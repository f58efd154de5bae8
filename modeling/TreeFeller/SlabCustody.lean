import TreeFeller.Custody
import TreeFeller.Slab

namespace TreeFeller

open ValueLedger

/-!
# The slab and the arena agree

The journal's books name every value by the call that made it.  What they still
hold is what stands in the slab, handle by handle, and the handles are those in
the filter's arena.  So each child's value is there when its parent is
reported, and a handle is used again only when no entry has it any more.
-/

/-- The books of a journal: what each call made and used up, and what is left. -/
structure SlabBooks (V : Type) where
  /-- By call: the birth of the value it made, and of those it used up. -/
  moves : List (Option Nat × List Nat)
  deposits : List (Deposit V)

/-- The books of the moves, by birth. -/
def moveAccounts : Accounts (Option Nat × List Nat) Nat where
  issues := fun move => move.1.toList
  takes := fun move => move.2

namespace SlabBooks

variable {V : Type}

/-- The books before any call. -/
def empty : SlabBooks V :=
  ⟨[], []⟩

/-- Whether a deposit is one of those given to a call. -/
def isGiven (call : SlabCall V) (deposit : Deposit V) : Bool :=
  decide (deposit.handle ∈ call.given.map Prod.fst)

/-- What a call given some deposits leaves. -/
def others
    (self : SlabBooks V)
    (call : SlabCall V) :
    List (Deposit V) :=
  self.deposits.filter (fun deposit => !isGiven call deposit)

/-- Enter a call: declining moves nothing. -/
def enter (self : SlabBooks V) (call : SlabCall V) : SlabBooks V :=
  match call.answer with
  | none => { self with moves := self.moves ++ [(none, [])] }
  | some (handle, value) =>
      {
        moves :=
          self.moves ++
            [(some self.moves.length,
              (self.deposits.filter (isGiven call)).map Deposit.birth)]
        deposits :=
          ⟨handle, self.moves.length, value⟩ :: self.others call
      }

end SlabBooks

/-- The books of a journal. -/
def booksOf {V : Type} (journal : List (SlabCall V)) : SlabBooks V :=
  journal.foldl .enter .empty

section Books

variable {V : Type}

/-- The books of one call more. -/
theorem booksOf_concat (journal : List (SlabCall V)) (call : SlabCall V) :
    booksOf (journal ++ [call]) = (booksOf journal).enter call := by
  simp [booksOf]

/-- Births are numbers of calls already made. -/
theorem birth_lt (journal : List (SlabCall V)) :
    ∀ birth ∈ moveAccounts.issued (booksOf journal).moves,
      birth < (booksOf journal).moves.length := by
  induction journal using List.reverseRecOn with
  | nil =>
      simp [booksOf, SlabBooks.empty]
  | append_singleton journal call inductionHypothesis =>
      rw [booksOf_concat]
      unfold SlabBooks.enter
      intro birth member
      split at member
      · have earlier := inductionHypothesis birth
          (by simpa [moveAccounts] using member)
        simp only [List.length_append]
        omega
      · simp only [Accounts.issued_append, List.mem_append] at member
        simp only [List.length_append, List.length_singleton]
        rcases member with old | new
        · have earlier := inductionHypothesis birth old
          omega
        · have same : birth = (booksOf journal).moves.length := by
            simpa [moveAccounts] using new
          omega

/-- No two values have one birth. -/
theorem births_nodup (journal : List (SlabCall V)) :
    (moveAccounts.issued (booksOf journal).moves).Nodup := by
  induction journal using List.reverseRecOn with
  | nil =>
      simp [booksOf, SlabBooks.empty]
  | append_singleton journal call inductionHypothesis =>
      rw [booksOf_concat]
      unfold SlabBooks.enter
      split
      · simpa [moveAccounts] using inductionHypothesis
      · simp only [Accounts.issued_append]
        refine List.nodup_append.mpr
          ⟨inductionHypothesis, by simp [moveAccounts], ?_⟩
        intro birth old other new
        have earlier := birth_lt journal birth old
        have same : other = (booksOf journal).moves.length := by
          simpa [moveAccounts] using new
        omega

/-- The books balance with the deposits they hold. -/
theorem books_balanced (journal : List (SlabCall V)) :
    Balanced moveAccounts (booksOf journal).moves
      ((booksOf journal).deposits.map Deposit.birth) := by
  induction journal using List.reverseRecOn with
  | nil =>
      simpa [booksOf, SlabBooks.empty] using .empty
  | append_singleton journal call inductionHypothesis =>
      rw [booksOf_concat]
      unfold SlabBooks.enter
      split
      · exact inductionHypothesis.idle _ rfl rfl
      · refine inductionHypothesis.record _ ?_ (.refl _)
        have parts :
            List.Perm (booksOf journal).deposits
              ((booksOf journal).deposits.filter
                  (SlabBooks.isGiven call) ++
                (booksOf journal).others call) :=
          (List.filter_append_perm _ _).symm
        have births := parts.map Deposit.birth
        rw [List.map_append] at births
        exact births

end Books

/-- What a call finds and leaves in the slab. -/
structure SlabCall.Sound {V : Type}
    (call : SlabCall V)
    (books : SlabBooks V) : Prop where
  /-- Before it, the slab holds what the calls so far have left. -/
  before : call.before.Tracks books.deposits
  /-- It is given one value for each child, under the child's handle. -/
  handles :
    call.given.map (fun pair => some pair.1) =
      call.node.children.map TFVisibleChild.value
  distinct : (call.given.map Prod.fst).Nodup
  /-- Each value given is the one deposited under its handle. -/
  given :
    ∀ pair ∈ call.given,
      ∃ deposit ∈ books.deposits,
        deposit.handle = pair.1 ∧ deposit.value = pair.2
  /-- After it, the slab holds that without what it used up. -/
  after : call.after.Tracks (books.enter call).deposits
  /-- Declining a fold leaves the slab as it was. -/
  declined : call.answer = none → call.fold = true ∧ call.after = call.before

/-- At some time as many values were in the slab as it has slots. -/
def WithinPeak {V : Type}
    (slab : Slab V)
    (journal : List (SlabCall V)) : Prop :=
  ∃ before after,
    journal = before ++ after ∧
      slab.items.length ≤ (booksOf before).deposits.length

/-- A journal whose calls are all sound, and never outgrow the peak so far. -/
def SoundJournal {V : Type} (journal : List (SlabCall V)) : Prop :=
  ∀ before call after,
    journal = before ++ call :: after →
      call.Sound (booksOf before) ∧
        WithinPeak call.after (before ++ [call])

/-- The slab and its journal, with the handles still out. -/
structure SlabHolds {ω V : Type}
    (state : State ω V)
    (out : List Nat) : Prop where
  calm : state.panicked = false
  tracks : state.values.Tracks (booksOf state.journal).deposits
  out :
    List.Perm out
      ((booksOf state.journal).deposits.map Deposit.handle)
  journal : SoundJournal state.journal
  peak : WithinPeak state.values state.journal

section Custody

variable {ω V : Type}

/-- One sound call more. -/
theorem SoundJournal.concat
    {journal : List (SlabCall V)}
    {call : SlabCall V}
    (sound : SoundJournal journal)
    (next : call.Sound (booksOf journal))
    (peak : WithinPeak call.after (journal ++ [call])) :
    SoundJournal (journal ++ [call]) := by
  intro before other after parts
  rcases List.eq_nil_or_concat after with rfl | ⟨earlier, last, rfl⟩
  · obtain ⟨sameJournal, sameCall⟩ := List.append_inj' parts rfl
    simp only [List.cons.injEq, and_true] at sameCall
    rw [← sameJournal, ← sameCall]
    exact ⟨next, peak⟩
  · rw [List.concat_eq_append, ← List.cons_append,
      ← List.append_assoc] at parts
    obtain ⟨sameJournal, _⟩ := List.append_inj' parts rfl
    exact sound before other earlier sameJournal

/-- What has been within the peak stays there. -/
theorem WithinPeak.later
    {slab slab' : Slab V}
    {journal : List (SlabCall V)}
    (within : WithinPeak slab journal)
    (same : slab'.items.length = slab.items.length)
    (more : List (SlabCall V)) :
    WithinPeak slab' (journal ++ more) := by
  obtain ⟨before, after, rfl, bound⟩ := within
  exact ⟨before, after ++ more, List.append_assoc _ _ _,
    same.symm ▸ bound⟩

/-- The children of a node are all taken out, and nothing else is. -/
theorem Slab.Tracks.takeAll
    {slab : Slab V}
    {deposits : List (Deposit V)}
    (tracks : slab.Tracks deposits)
    {handles : List (TFVisibleChild Nat)}
    (valued : AllValued handles)
    {others : List Nat}
    (out :
      List.Perm (entryValues handles ++ others)
        (deposits.map Deposit.handle)) :
    ∃ children after,
      Slab.takeAll handles slab = (some children, after) ∧
        (givenValues handles children).map (fun pair => some pair.1) =
          handles.map TFVisibleChild.value ∧
        (givenValues handles children).map Prod.fst =
          entryValues handles ∧
        (∀ pair ∈ givenValues handles children,
          ∃ deposit ∈ deposits,
            deposit.handle = pair.1 ∧ deposit.value = pair.2) ∧
        after.Tracks
          (deposits.filter
            (fun deposit => !decide (deposit.handle ∈ entryValues handles))) ∧
        List.Perm others
          ((deposits.filter
            (fun deposit =>
              !decide (deposit.handle ∈ entryValues handles))).map
            Deposit.handle) := by
  induction handles generalizing slab deposits with
  | nil =>
      refine ⟨[], slab, rfl, rfl, rfl, by simp [givenValues], ?_, ?_⟩
      · simpa [entryValues] using tracks
      · simpa [entryValues] using out
  | cons child rest inductionHypothesis =>
      obtain ⟨handle, isHandle⟩ :=
        Option.isSome_iff_exists.mp (valued child (List.mem_cons_self ..))
      rw [entryValues_cons, isHandle, Option.toList_some,
        List.singleton_append, List.cons_append] at out
      obtain ⟨deposit, stands, sameHandle⟩ :=
        List.mem_map.mp (out.subset (List.mem_cons_self ..))
      subst sameHandle
      obtain ⟨value, tracksAfter⟩ := tracks.take stands
      generalize first :
        slab.take (some deposit.handle) = taken at value tracksAfter
      obtain ⟨found, between⟩ := taken
      cases value
      have distinct :
          deposit.handle ∉ entryValues rest ++ others ∧
            (entryValues rest ++ others).Nodup :=
        List.nodup_cons.mp (out.nodup_iff.mpr tracks.handles)
      have outAfter :
          List.Perm (entryValues rest ++ others)
            ((deposits.filter
              (fun other =>
                decide (other.handle ≠ deposit.handle))).map
              Deposit.handle) := by
        have filtered :=
          out.filter (fun handle => decide (handle ≠ deposit.handle))
        rw [List.filter_cons_of_neg (by simp), List.filter_map,
          List.filter_eq_self.mpr] at filtered
        · exact filtered
        · intro handle member
          refine decide_eq_true ?_
          rintro rfl
          exact distinct.1 member
      obtain ⟨children, after, takes, sameHandles, sameGiven, given,
          tracksLast, outLast⟩ :=
        inductionHypothesis tracksAfter
          (fun other member =>
            valued other (List.mem_cons_of_mem _ member))
          outAfter
      have parts :
          deposits.filter
              (fun other =>
                !decide (other.handle ∈ entryValues (child :: rest))) =
            (deposits.filter
              (fun other =>
                decide (other.handle ≠ deposit.handle))).filter
              (fun other =>
                !decide (other.handle ∈ entryValues rest)) := by
        rw [List.filter_filter]
        refine List.filter_congr ?_
        intro other _
        rw [entryValues_cons, isHandle]
        simp [Bool.and_comm]
      refine
        ⟨⟨child.symbol, child.fieldId, child.extra, deposit.value⟩ ::
            children, after, ?_, ?_, ?_, ?_, ?_, ?_⟩
      · simp only [Slab.takeAll, isHandle, first, takes, Option.map_some]
      · simpa [givenValues, isHandle] using sameHandles
      · rw [entryValues_cons, isHandle, ← sameGiven]
        simp [givenValues, isHandle]
      · intro pair member
        have cases_ :
            pair = (deposit.handle, deposit.value) ∨
              pair ∈ givenValues rest children := by
          simpa [givenValues, isHandle] using member
        rcases cases_ with rfl | later
        · exact ⟨deposit, stands, rfl, rfl⟩
        · obtain ⟨other, isOther, same⟩ := given pair later
          exact ⟨other, (List.mem_filter.mp isOther).1, same⟩
      · rw [parts]
        exact tracksLast
      · rw [parts]
        exact outLast

/-- A call keeps the slab, whether it makes a value or declines to. -/
theorem SlabHolds.dispatch
    {visit : Visit ω V}
    (polite : visit.Polite)
    (fold : Bool)
    {state : State ω V}
    {node : TFVisibleNode Nat}
    {others : List Nat}
    (valued : AllValued node.children)
    (holds : SlabHolds state (entryValues node.children ++ others)) :
    let answer := TreeFeller.dispatch visit fold node state
    (∃ handle,
      answer.1 = some handle ∧ SlabHolds answer.2 (handle :: others)) ∨
      (fold = true ∧ answer.1 = none ∧
        SlabHolds answer.2 (entryValues node.children ++ others)) := by
  obtain ⟨children, taken, takes, sameHandles, sameGiven, given,
      tracksTaken, outTaken⟩ :=
    holds.tracks.takeAll valued holds.out
  have distinct :
      ((givenValues node.children children).map Prod.fst).Nodup := by
    rw [sameGiven]
    exact (List.nodup_append.mp
      (holds.out.nodup_iff.mpr holds.tracks.handles)).1
  unfold TreeFeller.dispatch
  rw [if_neg (by simp [holds.calm])]
  simp only [takes]
  generalize answered :
    (if fold then
      visit.hidden node.head children state.visit
    else
      ((some (visit.node node.head children state.visit).1, children,
        (visit.node node.head children state.visit).2) :
          Option V × List (Child V) × ω)) = answer
  have declines : answer.1 = none → fold = true ∧ answer.2.1 = children := by
    intro refused
    rw [← answered] at refused ⊢
    split at refused
    · rename_i folds
      rw [if_pos folds]
      exact ⟨folds, polite _ _ _ refused⟩
    · cases refused
  obtain ⟨made, left, visited⟩ := answer
  cases made with
  | some value =>
      left
      refine ⟨_, rfl, ?_⟩
      let call : SlabCall V :=
        ⟨fold, node, givenValues node.children children,
          some ((taken.insert value).1, value), state.values,
          (taken.insert value).2⟩
      have isGiven :
          SlabBooks.isGiven call =
            fun deposit =>
              decide (deposit.handle ∈ entryValues node.children) := by
        funext deposit
        simp only [SlabBooks.isGiven, call, sameGiven]
      have entered :
          ((booksOf state.journal).enter call).deposits =
            ⟨(taken.insert value).1, (booksOf state.journal).moves.length,
                value⟩ ::
              (booksOf state.journal).deposits.filter
                (fun deposit =>
                  !decide
                    (deposit.handle ∈ entryValues node.children)) := by
        change _ :: (booksOf state.journal).others call = _
        simp only [SlabBooks.others, isGiven]
      have tracksAfter :
          (taken.insert value).2.Tracks
            ((booksOf state.journal).enter call).deposits := by
        rw [entered]
        exact tracksTaken.insert _ value
      have sound : call.Sound (booksOf state.journal) :=
        ⟨holds.tracks, sameHandles, distinct, given, tracksAfter,
          fun refused => by cases refused⟩
      have peak :
          WithinPeak (taken.insert value).2 (state.journal ++ [call]) := by
        obtain ⟨_, sameLength⟩ := Slab.takeAll_frees takes
        rcases List.eq_nil_or_concat taken.free with
          noneFree | ⟨earlier, index, free⟩
        · refine ⟨state.journal ++ [call], [], by simp, ?_⟩
          rw [booksOf_concat, entered, List.length_cons]
          have bound := tracksTaken.length_le noneFree
          simp only [Slab.insert, noneFree, List.getLast?_nil,
            List.length_append, List.length_singleton]
          omega
        · rw [List.concat_eq_append] at free
          refine holds.peak.later ?_ [call]
          rw [← sameLength]
          simp [Slab.insert, free]
      refine ⟨rfl, ?_, ?_, holds.journal.concat sound peak, peak⟩
      · change
          (taken.insert value).2.Tracks
            (booksOf (state.journal ++ [call])).deposits
        rw [booksOf_concat]
        exact tracksAfter
      · change
          List.Perm _
            ((booksOf (state.journal ++ [call])).deposits.map
              Deposit.handle)
        rw [booksOf_concat, entered]
        exact outTaken.cons _
  | none =>
      obtain ⟨folds, sameChildren⟩ := declines rfl
      simp only at sameChildren
      subst sameChildren
      right
      have back := Slab.rollback_restoreAll takes
      let call : SlabCall V :=
        ⟨fold, node, givenValues node.children left, none, state.values,
          (taken.restoreAll left node.children).rollback
            state.values.mark⟩
      have entered :
          ((booksOf state.journal).enter call).deposits =
            (booksOf state.journal).deposits :=
        rfl
      have tracksAfter :
          call.after.Tracks
            ((booksOf state.journal).enter call).deposits := by
        rw [entered]
        simp only [call, back]
        exact holds.tracks
      have sound : call.Sound (booksOf state.journal) :=
        ⟨holds.tracks, sameHandles, distinct, given, tracksAfter,
          fun _ => ⟨folds, back⟩⟩
      have peak : WithinPeak call.after (state.journal ++ [call]) := by
        refine holds.peak.later ?_ [call]
        simp only [call, back]
      refine ⟨folds, rfl, rfl, ?_, ?_, holds.journal.concat sound peak, peak⟩
      · change
          call.after.Tracks (booksOf (state.journal ++ [call])).deposits
        rw [booksOf_concat]
        exact tracksAfter
      · change
          List.Perm _
            ((booksOf (state.journal ++ [call])).deposits.map
              Deposit.handle)
        rw [booksOf_concat, entered]
        exact holds.out

/-- The slab looks after the values it is given. -/
theorem dispatchSink_custodian
    {visit : Visit ω V}
    (polite : visit.Polite)
    (namedOnly : Bool) :
    Custodian (dispatchSink visit namedOnly) SlabHolds where
  reorder := by
    intro state out out' holds same
    exact ⟨holds.calm, holds.tracks, same.symm.trans holds.out,
      holds.journal, holds.peak⟩
  reports := rfl
  node := by
    rintro _ ⟨⟩ node state others valued holds
    rcases holds.dispatch polite false valued with
      answered | ⟨folds, _⟩
    · exact answered
    · cases folds
  hidden := by
    rintro _ ⟨⟩ node state others valued holds
    rcases holds.dispatch polite true valued with
      answered | ⟨_, refused⟩
    · exact Or.inl answered
    · exact Or.inr refused

/-- Before any call the slab holds nothing, and nothing is out. -/
theorem SlabHolds.initial (visit : ω) :
    SlabHolds (State.initial visit : State ω V) [] where
  calm := rfl
  tracks := .new
  out := .refl _
  journal := by
    intro before call after parts
    simp [State.initial] at parts
  peak := ⟨[], [], rfl, Nat.zero_le _⟩

end Custody

/-- Where slab, arena and visitor stand at the end of a run. -/
structure SlabAgrees {ω V : Type}
    (lang : TFLanguage)
    (sink : TFVisibleSink (State ω V) Nat)
    (raw : TFResult (TFFilter (State ω V) Nat) (TFFilterValue Nat)) :
    Prop where
  /-- No child was reported without a value. -/
  calm : raw.parser.payload.consumer.payload.panicked = false
  journal : SoundJournal raw.parser.payload.consumer.payload.journal
  /-- Every value is used up by one later call, or still in the slab. -/
  once :
    let books := booksOf raw.parser.payload.consumer.payload.journal
    moveAccounts.TakenOnce books.moves (books.deposits.map Deposit.birth)
  /-- What is in the slab stands in the arena, unless the root is reported. -/
  arena :
    (raw.ok = true → raw.parser.reportsRoot lang = false) →
      TFFilter.InCustody SlabHolds raw.parser.payload
  /-- A reported root's value alone is left, and is what the parse returns. -/
  root :
    raw.ok = true → raw.parser.reportsRoot lang = true →
      let state := raw.parser.payload.consumer.payload
      ∃ deposit,
        (booksOf state.journal).deposits = [deposit] ∧
          SlabHolds state [deposit.handle] ∧
          TFVisibleResult.rootOf raw.root = some deposit.handle ∧
          ParseOutcome.ofResult (TFVisibleResult.ofRaw sink raw) =
            .value deposit.value

open TFFilter (rawSink) in
/--
Slab and arena agree wherever the driver stands on its way through a run, until
the root is emitted or the filter gives up.
-/
def SlabAgreesAlong {ω V : Type}
    (lang : TFLanguage)
    (sink : TFVisibleSink (State ω V) Nat)
    (source : List UInt8)
    (start : ω)
    (raw : TFResult (TFFilter (State ω V) Nat) (TFFilterValue Nat)) :
    Prop :=
  ∀ first reached,
    TFParser.Entered source (.initial (.initial start)) first →
      TFParser.Trace (rawSink sink lang) lang first reached →
        reached.events <+: raw.parser.events →
          reached.rootEmitted = false →
            reached.payload.failed = false →
              TFFilter.InCustody SlabHolds reached.payload

open TFFilter (rawSink) in
/--
Over a parse, slab and arena agree: between operations the handles in the arena
are those of the values in the slab, every call finds its children's values,
and in the end each value has gone to one call or is still where it was.
-/
theorem slab_agrees_with_arena {ω V : Type}
    {lang : TFLanguage}
    (loaded : lang.Loaded)
    (reserves : lang.ReservesEnd)
    {visit : Visit ω V}
    (polite : visit.Polite)
    {namedOnly : Bool}
    {start : ω}
    {fuel : Nat}
    {source : List UInt8}
    {heap : Heap}
    {raw : TFResult (TFFilter (State ω V) Nat) (TFFilterValue Nat)}
    (ran :
      tfParse lang (rawSink (dispatchSink visit namedOnly) lang) fuel
        source (.initial (.initial start)) heap = some raw)
    (healthy : raw.parser.payload.failed = false) :
    SlabAgrees lang (dispatchSink visit namedOnly) raw ∧
      SlabAgreesAlong lang (dispatchSink visit namedOnly) source start
        raw := by
  have custodian := dispatchSink_custodian polite namedOnly
  have endsAlone := TFParser.tfParse_endsAlone loaded reserves ran
  constructor
  · have once :=
      (books_balanced
        raw.parser.payload.consumer.payload.journal).takenOnce
        (births_nodup _)
    cases run_inCustody loaded custodian (.initial start) ran endsAlone
        healthy with
    | arena custody noRoot =>
        refine ⟨custody.held.calm, custody.held.journal, once,
          fun _ => custody, ?_⟩
        intro ok reported
        rw [(noRoot ok).2] at reported
        cases reported
    | @root value ok reported isRoot held =>
        refine ⟨held.calm, held.journal, once, ?_, ?_⟩
        · intro unreported
          rw [unreported ok] at reported
          cases reported
        · intro _ _
          obtain ⟨deposit, only⟩ :=
            List.length_eq_one_iff.mp
              (by simpa using held.out.length_eq.symm)
          have isHandle : value = deposit.handle := by
            simpa [only] using held.out
          subst isHandle
          have stands :
              deposit ∈
                (booksOf
                  raw.parser.payload.consumer.payload.journal).deposits := by
            simp [only]
          have taken := (held.tracks.take stands).1
          refine ⟨deposit, only, held, isRoot, ?_⟩
          simp [ParseOutcome.ofResult, TFVisibleResult.ofRaw, ok, healthy,
            isRoot, held.calm, taken]
  · intro first reached entered trace onTheWay open_ gaveNotUp
    have ends :
        ∀ event ∈ reached.events, event.EndsAsExtra :=
      fun event member =>
        tfParse_endsAsExtra reserves ran event (onTheWay.subset member)
    rcases trace.inHand custodian entered.ready
        (entered.inHand (.initial start)) with
      ⟨_, holds⟩ | ⟨rooted, _⟩
    · rcases trace.noEnd entered.ready entered.noEnd ends with
        ⟨_, noEnd⟩ | ⟨rooted, _⟩
      · rcases holds noEnd with inHand | gaveUp
        · exact inHand.custody
        · rw [gaveUp] at gaveNotUp
          cases gaveNotUp
      · rw [open_] at rooted
        cases rooted
    · rw [open_] at rooted
      cases rooted

/-- A visitor that numbers what it makes, and folds one symbol only. -/
def foldingVisit (symbol : TSSymbol) : Visit Nat Nat where
  node := fun _ _ count => (count, count + 1)
  hidden := fun node children count =>
    if node.symbol = symbol then
      (some count, children, count + 1)
    else
      (none, children, count)

/-- The visitor leaves the children as they were. -/
theorem foldingVisit_polite (symbol : TSSymbol) :
    (foldingVisit symbol).Polite := by
  intro node children count _
  unfold foldingVisit
  dsimp only
  split <;> rfl

/-- The folds the visitor was offered: the values given and what it made. -/
def offeredFolds
    (raw : TFResult (TFFilter (State Nat Nat) Nat) (TFFilterValue Nat)) :
    List (List Nat × Option Nat) :=
  (raw.parser.payload.consumer.payload.journal.filter SlabCall.fold).map
    (fun call => (call.given.map Prod.snd, call.answer.map Prod.snd))

/--
Three letters are folded two by two, a fold among what the second is given, and
a run of the others is declined: slab and arena agree.
-/
theorem slab_agrees_with_arena_repeats :
    ∃ raw,
      tfParse repeatsGrammar
          (TFFilter.rawSink (dispatchSink (foldingVisit 4) false)
            repeatsGrammar) 60 [97, 97, 97, 98, 98, 98]
          (.initial (.initial 0)) .reliable = some raw ∧
        raw.ok = true ∧
        offeredFolds raw =
          [([0, 1], some 2), ([2, 3], some 4), ([5, 6], none)] ∧
        SlabAgrees repeatsGrammar (dispatchSink (foldingVisit 4) false)
          raw ∧
        SlabAgreesAlong repeatsGrammar
          (dispatchSink (foldingVisit 4) false) [97, 97, 97, 98, 98, 98] 0
          raw := by
  have computed :
      (tfParse repeatsGrammar
          (TFFilter.rawSink (dispatchSink (foldingVisit 4) false)
            repeatsGrammar) 60 [97, 97, 97, 98, 98, 98]
          (.initial (.initial 0)) .reliable).map
        (fun raw =>
          (raw.parser.payload.failed, raw.ok, offeredFolds raw)) =
        some (false, true,
          [([0, 1], some 2), ([2, 3], some 4), ([5, 6], none)]) := by
    decide +kernel
  obtain ⟨raw, ran, checked⟩ := Option.map_eq_some_iff.mp computed
  simp only [Prod.mk.injEq] at checked
  obtain ⟨healthy, ok, folds⟩ := checked
  exact ⟨raw, ran, ok, folds,
    slab_agrees_with_arena repeatsGrammar_loaded repeatsGrammar_reservesEnd
      (foldingVisit_polite 4) ran healthy⟩

end TreeFeller
