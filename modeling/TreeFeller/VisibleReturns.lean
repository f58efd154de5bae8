import TreeFeller.Cuts
import TreeFeller.EndReplays
import TreeFeller.VisibleBooks
import TreeFeller.SmallTables

namespace TreeFeller

open ValueLedger

/-!
# What a visible parse gives back

Over a run of the driver the filter's books balance with its arena: a cell of
the stack owns a run of entries, and those of all cells make up the arena.
Whatever fails then, what stands in the arena is given back.  What is lost is
what the filter itself had under way when it ran out of memory, and what a root
that is not reported leaves behind.
-/

/-- No reduction of a log ends in the end token. -/
def NoEnd {W : Type} (log : List (Event (TFFilterValue W))) : Prop :=
  ∀ reduction value,
    .reduce reduction value ∈ log → TFFilter.isRoot reduction = false

/-- What is no end of a log is none of its beginning. -/
theorem NoEnd.of_append
    {W : Type}
    {first second : List (Event (TFFilterValue W))}
    (noEnd : NoEnd (first ++ second)) :
    NoEnd first := by
  intro reduction value member
  exact noEnd reduction value (List.mem_append_left _ member)

/-- A log goes on without an end token if no reduction follows. -/
theorem NoEnd.append
    {W : Type}
    {first second : List (Event (TFFilterValue W))}
    (noEnd : NoEnd first)
    (others : ∀ reduction value, .reduce reduction value ∉ second) :
    NoEnd (first ++ second) := by
  intro reduction value member
  rcases List.mem_append.mp member with old | isNew
  · exact noEnd reduction value old
  · exact absurd isNew (others reduction value)

/-- A log goes on without an end token by a reduction that has none. -/
theorem NoEnd.concat
    {W : Type}
    {log : List (Event (TFFilterValue W))}
    (noEnd : NoEnd log)
    {reduction : TFReduction (TFFilterValue W)}
    (inner : TFFilter.isRoot reduction = false)
    (answer : Option (TFFilterValue W)) :
    NoEnd (log ++ [.reduce reduction answer]) := by
  intro other value member
  rcases List.mem_append.mp member with old | isNew
  · exact noEnd other value old
  · cases List.mem_singleton.mp isNew
    exact inner

/-- Handing over a token logs no reduction. -/
theorem TFSink.reduce_not_mem_shiftEvents
    {σ V : Type}
    (sink : TFSink σ V)
    (token : TFToken)
    (extra : Bool)
    (answer : Option V)
    (reduction : TFReduction V)
    (value : Option V) :
    .reduce reduction value ∉ sink.shiftEvents token extra answer := by
  unfold TFSink.shiftEvents
  split <;> simp

namespace TFParser

open TFFilter (owns rawSink Sound Spoiled)

variable {τ W : Type}

/-- How many entries the cells of a stack own. -/
def ownedBy (cells : List (TFCell (TFFilterValue W))) : Nat :=
  (cells.map (fun cell => owns cell.node)).sum

@[simp] theorem ownedBy_append
    (first second : List (TFCell (TFFilterValue W))) :
    ownedBy (first ++ second) = ownedBy first + ownedBy second := by
  simp [ownedBy]

@[simp] theorem ownedBy_singleton (cell : TFCell (TFFilterValue W)) :
    ownedBy [cell] = owns cell.node := by
  simp [ownedBy]

@[simp] theorem ownedBy_map_state
    (cells : List (TFCell (TFFilterValue W)))
    (state : TSStateId) :
    ownedBy (cells.map (fun cell => { cell with state := state })) =
      ownedBy cells := by
  simp [ownedBy, Function.comp_def]

/-- The cells of the stack own the arena of a sound filter. -/
structure InArena
    (parser : TFParser (TFFilter τ W) (TFFilterValue W)) : Prop where
  sound : Sound parser.payload
  owned : ownedBy parser.cells = parser.payload.arena.length
  extras :
    ∀ cell ∈ parser.cells,
      cell.node.extra = true → owns cell.node = 0
  packed :
    ∀ cell ∈ parser.cells, ∃ packed,
      cell.node.value = some (.cell packed)

/-- Cells that are extras own nothing. -/
theorem ownedBy_extras
    {cells : List (TFCell (TFFilterValue W))}
    (nothing : ∀ cell ∈ cells, owns cell.node = 0) :
    ownedBy cells = 0 := by
  induction cells with
  | nil =>
      rfl
  | cons cell rest inductionHypothesis =>
      have first := nothing cell (List.mem_cons_self ..)
      have others :=
        inductionHypothesis
          (fun other member =>
            nothing other (List.mem_cons_of_mem _ member))
      simp only [ownedBy, List.map_cons, List.sum_cons] at others ⊢
      rw [first, others]

section Operations

variable {sink : TFVisibleSink τ W}
variable {lang : TFLanguage}
variable {before after : TFParser (TFFilter τ W) (TFFilterValue W)}

/-- A shifted token owns nothing. -/
theorem InArena.shift
    (inArena : InArena before)
    {token : TFToken}
    {extra : Bool}
    {state : TSStateId}
    (shifted :
      before.shift (rawSink sink lang) token extra state = (true, after)) :
    InArena after := by
  rcases before.shift_cases (rawSink sink lang) token extra state with
    ⟨heap, capacity, _, _, well⟩ | ⟨heap, failed⟩
  · rw [(Prod.mk.inj (shifted.symm.trans well)).2]
    refine ⟨inArena.sound, ?_, ?_, ?_⟩
    · rw [ownedBy_append, ownedBy_singleton]
      exact inArena.owned
    · intro cell member isExtra
      rcases List.mem_append.mp member with old | new
      · exact inArena.extras cell old isExtra
      · rw [List.mem_singleton.mp new]
        rfl
    · intro cell member
      rcases List.mem_append.mp member with old | new
      · exact inArena.packed cell old
      · rw [List.mem_singleton.mp new]
        exact ⟨_, rfl⟩
  · cases (Prod.mk.inj (shifted.symm.trans failed)).1

/-- Handing a token over leaves the filter alone. -/
theorem payload_shift
    {token : TFToken}
    {extra : Bool}
    {state : TSStateId}
    {placed : Bool}
    (shifted :
      before.shift (rawSink sink lang) token extra state =
        (placed, after)) :
    after.payload = before.payload := by
  rcases before.shift_cases (rawSink sink lang) token extra state with
    ⟨heap, capacity, _, _, well⟩ | ⟨heap, failed⟩
  · rw [(Prod.mk.inj (shifted.symm.trans well)).2]
    rfl
  · rw [(Prod.mk.inj (shifted.symm.trans failed)).2]
    rfl

/-- The run that the children popped for a reduction own. -/
theorem InArena.split
    (inArena : InArena before)
    {childCount : Nat}
    {cut : Popped (TFFilterValue W)}
    (cuts : popped before.cells childCount = some cut) :
    ∃ below run,
      before.payload.arena = below ++ run ∧
        below.length = ownedBy cut.below ∧
        ((cut.children.map TFCell.node).map owns).sum = run.length ∧
        ownedBy cut.trailing = 0 := by
  have parts := cells_of_popped cuts
  have trailing : ownedBy cut.trailing = 0 := by
    refine ownedBy_extras ?_
    intro cell member
    refine inArena.extras cell ?_ (extra_of_popped cuts cell member)
    rw [parts]
    exact List.mem_append_right _ member
  have total := inArena.owned
  rw [parts, ownedBy_append, ownedBy_append, trailing, Nat.add_zero]
    at total
  refine
    ⟨before.payload.arena.take (ownedBy cut.below),
      before.payload.arena.drop (ownedBy cut.below),
      (List.take_append_drop _ _).symm, ?_, ?_, trailing⟩
  · rw [List.length_take]
    omega
  · rw [List.length_drop, List.map_map]
    change ownedBy cut.children = _
    omega

/-- A reduction before the root keeps the arena, or spoils the filter. -/
theorem InArena.inner
    (reports : sink.onNode.isSome = true)
    (inArena : InArena before)
    {cut : Popped (TFFilterValue W)}
    {symbol : TSSymbol}
    {childCount productionId : Nat}
    {placed : Bool}
    (cuts : popped before.cells childCount = some cut)
    (inner :
      InnerReduction (rawSink sink lang) lang before cut symbol childCount
        productionId placed after)
    (noEnd : NoEnd after.events) :
    (placed = true ∧ InArena after) ∨
      (placed = false ∧ Sound after.payload) ∨
      Spoiled after.payload := by
  obtain ⟨below, run, arena, belowLength, owned, trailing⟩ :=
    inArena.split cuts
  let own :=
    reductionOf before.cells cut.children symbol childCount productionId
  have noRoot : TFFilter.isRoot own = false := by
    obtain ⟨_, _, _, ⟨_, _, same⟩ | ⟨_, _, _, same⟩⟩ := inner.done
    · refine noEnd own
        ((rawSink sink lang).callReduce own before.payload
          before.heap).1 ?_
      rw [same]
      simp [TFSink.reduceEvents, rawSink, own]
    · refine noEnd own
        ((rawSink sink lang).callReduce own before.payload
          before.heap).1 ?_
      rw [same]
      simp [TFSink.reduceEvents, rawSink, own]
  have answer :=
    inArena.sound.onReduce_inner reports lang noRoot arena owned
      before.heap
  rcases answer with ⟨count, value, sound, arenaLength⟩ | ⟨_, spoiled⟩
  · obtain ⟨heap, capacity, _, ⟨well, _, same⟩ | ⟨failed, _, _, same⟩⟩ :=
      inner.done
    · have old :
          ∀ other,
            other ∈ cut.below ∨ other ∈ cut.trailing →
              other ∈ before.cells := by
        intro other within
        rw [cells_of_popped cuts, List.mem_append, List.mem_append]
        rcases within with low | high
        · exact Or.inl (Or.inl low)
        · exact Or.inr high
      refine Or.inl ⟨well, ?_⟩
      rw [same]
      refine ⟨sound, ?_, ?_, ?_⟩
      · have counted :
            owns
                (parentNode own
                  ((rawSink sink lang).callReduce own before.payload
                    before.heap).1) = count := by
          change
            (TFFilter.cellOf
              (TFFilter.onReduce sink lang own before.payload
                before.heap).1).children = count
          rw [value]
          rfl
        simp only [RawStack.placed, ownedBy_append, ownedBy_singleton,
          ownedBy_map_state, trailing, Nat.add_zero]
        change _ + owns (parentNode own _) = _
        rw [counted, ← belowLength]
        exact arenaLength.symm
      · intro cell member isExtra
        simp only [RawStack.placed, List.mem_append, List.mem_singleton,
          List.mem_map] at member
        rcases member with (low | rfl) | ⟨other, high, rfl⟩
        · exact inArena.extras cell (old cell (Or.inl low)) isExtra
        · cases isExtra
        · exact inArena.extras other (old other (Or.inr high)) isExtra
      · intro cell member
        simp only [RawStack.placed, List.mem_append, List.mem_singleton,
          List.mem_map] at member
        rcases member with (low | rfl) | ⟨other, high, rfl⟩
        · exact inArena.packed cell (old cell (Or.inl low))
        · exact ⟨_, value⟩
        · exact inArena.packed other (old other (Or.inr high))
    · refine Or.inr (Or.inl ⟨failed, ?_⟩)
      rw [same]
      exact sound
  · refine Or.inr (Or.inr ?_)
    obtain ⟨heap, capacity, _, ⟨_, _, same⟩ | ⟨_, _, _, same⟩⟩ :=
      inner.done
    · rw [same]
      exact spoiled
    · rw [same]
      exact spoiled

/-- A reduction by a filter that has given up leaves it alone. -/
theorem payload_inner
    (failed : before.payload.failed = true)
    {cut : Popped (TFFilterValue W)}
    {symbol : TSSymbol}
    {childCount productionId : Nat}
    {placed : Bool}
    (inner :
      InnerReduction (rawSink sink lang) lang before cut symbol childCount
        productionId placed after) :
    after.payload = before.payload := by
  let own :=
    reductionOf before.cells cut.children symbol childCount productionId
  have nothing :
      ((rawSink sink lang).callReduce own before.payload
        before.heap).2.1 = before.payload :=
    congrArg (fun answer => answer.2.1)
      (TFFilter.onReduce_failed sink lang failed own before.heap)
  obtain ⟨_, _, _, ⟨_, _, same⟩ | ⟨_, _, _, same⟩⟩ := inner.done
  · rw [same]
    exact nothing
  · rw [same]
    exact nothing

/-- What the filter holds once the root has been reduced. -/
def RootInArena
    (lang : TFLanguage)
    (parser : TFParser (TFFilter τ W) (TFFilterValue W)) : Prop :=
  ∃ cell,
    parser.cells[parser.leading]? = some cell ∧
      TFFilter.RootHeld lang cell.node.symbol cell.node.value
        parser.payload

/-- The root's reduction reports the arena, or spoils the filter. -/
theorem InArena.root
    (reports : sink.onNode.isSome = true)
    (inArena : InArena before)
    {cut : Popped (TFFilterValue W)}
    {symbol : TSSymbol}
    {childCount productionId : Nat}
    {token : TFToken}
    (root :
      RootReduction (rawSink sink lang) lang before cut symbol childCount
        productionId token true after) :
    RootInArena lang after ∨ Spoiled after.payload := by
  obtain ⟨heap, capacity, _, ⟨_, _, heapBefore, same⟩ | ⟨failed, _⟩⟩ :=
    root.done
  · let own :=
      reductionOf before.cells cut.children symbol childCount productionId
    let whole :=
      rootReduction before.cells own token
        (some (TFFilterValue.cell ⟨0, 0⟩))
    have isRoot : TFFilter.isRoot whole = true := by
      simp [TFFilter.isRoot, whole, rootReduction, TFToken.node,
        root.isEnd]
    have owned :
        (whole.children.map owns).sum =
          before.payload.arena.length := by
      rw [← inArena.owned]
      simp [whole, rootReduction, ownedBy, owns, TFFilter.cellOf,
        TFToken.node, Function.comp_def]
    have answer :=
      inArena.sound.onReduce_root reports lang isRoot owned heapBefore
    rcases answer with held | spoiled
    · left
      rw [same]
      refine
        ⟨⟨parentNode own
            (TFFilter.onReduce sink lang whole before.payload
              heapBefore).1,
          reducedState lang before.cells cut symbol⟩, ?_, held⟩
      simp only [RawStack.placed, ← root.bottom]
      simp
      rfl
    · right
      rw [same]
      exact spoiled
  · cases failed

/-- A root reduced by a filter that has given up leaves it alone. -/
theorem payload_root
    (failed : before.payload.failed = true)
    {cut : Popped (TFFilterValue W)}
    {symbol : TSSymbol}
    {childCount productionId : Nat}
    {token : TFToken}
    {placed : Bool}
    (root :
      RootReduction (rawSink sink lang) lang before cut symbol childCount
        productionId token placed after) :
    after.payload = before.payload := by
  obtain ⟨_, _, _, ⟨_, _, heapBefore, same⟩ | ⟨_, same⟩⟩ := root.done
  · rw [same]
    exact congrArg (fun answer => answer.2.1)
      (TFFilter.onReduce_failed sink lang failed _ heapBefore)
  · rw [same]

/-- Along a trace the arena is owned by the cells, or the filter spoiled. -/
theorem Trace.inArena
    (reports : sink.onNode.isSome = true)
    {first last : TFParser (TFFilter τ W) (TFFilterValue W)}
    (ready : Ready first)
    (initially : InArena first)
    (trace : Trace (rawSink sink lang) lang first last) :
    (Ready last ∧
        (NoEnd last.events → InArena last ∨ Spoiled last.payload)) ∨
      (last.rootEmitted = true ∧
        (NoEnd last.events.dropLast →
          RootInArena lang last ∨ Spoiled last.payload)) := by
  refine
    trace.rule
      (fun parser =>
        NoEnd parser.events → InArena parser ∨ Spoiled parser.payload)
      (fun parser =>
        NoEnd parser.events.dropLast →
          RootInArena lang parser ∨ Spoiled parser.payload)
      ready (fun _ => Or.inl initially) ?_ ?_ ?_ ?_ ?_
  · intro before after holds same noEnd
    rw [same.events] at noEnd
    rcases holds noEnd with inArena | spoiled
    · refine Or.inl ⟨?_, ?_, ?_, ?_⟩
      · rw [same.payload]
        exact inArena.sound
      · rw [same.cells, same.payload]
        exact inArena.owned
      · rw [same.cells]
        exact inArena.extras
      · rw [same.cells]
        exact inArena.packed
    · rw [same.payload]
      exact Or.inr spoiled
  · intro before after holds same noEnd
    rw [same.events] at noEnd
    unfold RootInArena
    rw [same.cells, same.leading, same.payload]
    exact holds noEnd
  · intro before after token extra state _ holds shifted noEnd
    have noEndBefore : NoEnd before.events := by
      rcases before.shift_cases (rawSink sink lang) token extra state with
        ⟨heap, capacity, _, _, well⟩ | ⟨heap, failed⟩
      · rw [(Prod.mk.inj (shifted.symm.trans well)).2] at noEnd
        exact noEnd.of_append
      · cases (Prod.mk.inj (shifted.symm.trans failed)).1
    rcases holds noEndBefore with inArena | spoiled
    · exact Or.inl (inArena.shift shifted)
    · rw [payload_shift shifted]
      exact Or.inr spoiled
  · intro before after cut symbol childCount productionId _ holds cuts
      inner noEnd
    have noEndBefore : NoEnd before.events := by
      obtain ⟨_, _, _, ⟨_, _, same⟩ | ⟨failed, _⟩⟩ := inner.done
      · rw [same] at noEnd
        exact noEnd.of_append
      · cases failed
    rcases holds noEndBefore with inArena | spoiled
    · rcases inArena.inner reports cuts inner noEnd with
        ⟨_, kept⟩ | ⟨failed, _⟩ | spoiled
      · exact Or.inl kept
      · cases failed
      · exact Or.inr spoiled
    · rw [payload_inner spoiled.failed inner]
      exact Or.inr spoiled
  · intro before after cut symbol childCount productionId token _ holds _
      root noEnd
    have noEndBefore : NoEnd before.events := by
      obtain ⟨_, _, _, ⟨_, _, _, same⟩ | ⟨failed, _⟩⟩ := root.done
      · have logged :
            ∀ reduction value,
              (rawSink sink lang).reduceEvents reduction value =
                [.reduce reduction value] :=
          fun _ _ => rfl
        rw [same] at noEnd
        simp only [logged, List.dropLast_concat] at noEnd
        exact noEnd.of_append
      · cases failed
    rcases holds noEndBefore with inArena | spoiled
    · exact inArena.root reports root
    · rw [payload_root spoiled.failed root]
      exact Or.inr spoiled

/-- A failed operation leaves a filter sound or spoiled. -/
theorem Fails.filter
    (reports : sink.onNode.isSome = true)
    (ready : Ready before)
    (holds : InArena before ∨ Spoiled before.payload)
    (fails : Fails (rawSink sink lang) lang before after)
    (noEnd : NoEnd after.events) :
    Sound after.payload ∨ Spoiled after.payload := by
  have same :
      ∀ parser : TFParser (TFFilter τ W) (TFFilterValue W),
        parser.payload = before.payload →
          Sound parser.payload ∨ Spoiled parser.payload := by
    intro parser payload
    rw [payload]
    rcases holds with inArena | spoiled
    · exact Or.inl inArena.sound
    · exact Or.inr spoiled
  cases fails with
  | quiet quiet =>
      exact same after quiet.payload
  | shift shifted quiet =>
      exact same after (quiet.payload.trans (payload_shift shifted))
  | reduce reduced quiet =>
      rw [quiet.payload]
      rw [quiet.events] at noEnd
      obtain ⟨cut, cuts, ⟨_, inner⟩ | ⟨token, _, root⟩⟩ :=
        reduce_cases ready.fits reduced
      · rcases holds with inArena | spoiled
        · rcases inArena.inner reports cuts inner noEnd with
            ⟨well, _⟩ | ⟨_, sound⟩ | spoiled
          · cases well
          · exact Or.inl sound
          · exact Or.inr spoiled
        · rw [payload_inner spoiled.failed inner]
          exact Or.inr spoiled
      · obtain ⟨_, _, _, ⟨well, _⟩ | ⟨_, unchanged⟩⟩ := root.done
        · cases well
        · refine same _ ?_
          rw [unchanged]

/-- An operation that fails adds to the log, and does not emit the root. -/
theorem Fails.later
    {σ V : Type}
    {sink : TFSink σ V}
    {before after : TFParser σ V}
    (ready : Ready before)
    (fails : Fails sink lang before after) :
    after.rootEmitted = false ∧
      ∃ more, after.events = before.events ++ more := by
  cases fails with
  | quiet same =>
      rw [same.rootEmitted, same.events]
      exact ⟨ready.open_, [], (List.append_nil _).symm⟩
  | shift shifted same =>
      rename_i failed token extra state
      rw [same.rootEmitted, same.events]
      rcases before.shift_cases sink token extra state with
        ⟨_, _, _, _, well⟩ | ⟨_, unplaced⟩
      · cases (Prod.mk.inj (shifted.symm.trans well)).1
      · rw [(Prod.mk.inj (shifted.symm.trans unplaced)).2]
        exact ⟨ready.open_, _, List.append_assoc _ _ _⟩
  | reduce reduced same =>
      rw [same.rootEmitted, same.events]
      obtain ⟨cut, cuts, ⟨_, inner⟩ | ⟨token, _, root⟩⟩ :=
        reduce_cases ready.fits reduced
      · obtain ⟨_, _, _, ⟨well, _⟩ | ⟨_, _, _, unplaced⟩⟩ := inner.done
        · cases well
        · rw [unplaced]
          exact ⟨ready.open_, _, List.append_assoc _ _ _⟩
      · obtain ⟨_, _, _, ⟨well, _⟩ | ⟨_, unplaced⟩⟩ := root.done
        · cases well
        · rw [unplaced]
          exact ⟨ready.open_, _, rfl⟩

/-! ### The end token comes last -/

/-- Only the root's reduction, a run's last event, ends in the end token. -/
def EndsAlone (parser : TFParser (TFFilter τ W) (TFFilterValue W)) : Prop :=
  NoEnd
    (if parser.rootEmitted then parser.events.dropLast else parser.events)

/-- A reduction of the driver's children ends in no end token. -/
theorem isRoot_reductionOf
    {cells : List (TFCell (TFFilterValue W))}
    {childCount : Nat}
    {cut : Popped (TFFilterValue W)}
    (cuts : popped cells childCount = some cut)
    {symbol : TSSymbol}
    {productionId : Nat}
    (ends :
      ∀ child ∈
        (reductionOf cells cut.children symbol childCount
          productionId).children,
        child.EndsAsExtra) :
    TFFilter.isRoot
        (reductionOf cells cut.children symbol childCount productionId) =
      false := by
  unfold TFFilter.isRoot reductionOf at *
  dsimp only at *
  rw [List.getLast?_map]
  cases isLast : cut.children.getLast? with
  | none =>
      rfl
  | some last =>
      have structural := last_of_popped cuts last isLast
      have member : last ∈ cut.children := List.mem_of_getLast? isLast
      have other : last.node.symbol ≠ tsBuiltinSymEnd := by
        intro isEnd
        have isExtra := ends _ (List.mem_map_of_mem member) isEnd
        rw [structural] at isExtra
        cases isExtra
      simpa using other

/-- Events before others end as extras when all of them do. -/
theorem endsAsExtra_of_append
    {first second : List (Event (TFFilterValue W))}
    (ends : ∀ event ∈ first ++ second, event.EndsAsExtra) :
    ∀ event ∈ first, event.EndsAsExtra :=
  fun event member => ends event (List.mem_append_left _ member)

/-- Along a trace the end token comes last, in the root's reduction. -/
theorem Trace.noEnd
    {first last : TFParser (TFFilter τ W) (TFFilterValue W)}
    (ready : Ready first)
    (initially : NoEnd first.events)
    (trace : Trace (rawSink sink lang) lang first last)
    (ends : ∀ event ∈ last.events, event.EndsAsExtra) :
    (Ready last ∧ NoEnd last.events) ∨
      (last.rootEmitted = true ∧ NoEnd last.events.dropLast) := by
  have kept :=
    trace.rule
      (fun parser =>
        (∀ event ∈ parser.events, event.EndsAsExtra) → NoEnd parser.events)
      (fun parser =>
        (∀ event ∈ parser.events, event.EndsAsExtra) →
          NoEnd parser.events.dropLast)
      ready (fun _ => initially) ?_ ?_ ?_ ?_ ?_
  · rcases kept with ⟨ready, holds⟩ | ⟨rooted, holds⟩
    · exact Or.inl ⟨ready, holds ends⟩
    · exact Or.inr ⟨rooted, holds ends⟩
  · intro before after holds same
    rw [same.events]
    exact holds
  · intro before after holds same
    rw [same.events]
    exact holds
  · intro before after token extra state _ holds shifted ends
    rcases before.shift_cases (rawSink sink lang) token extra state with
      ⟨heap, capacity, _, _, well⟩ | ⟨heap, failed⟩
    · rw [(Prod.mk.inj (shifted.symm.trans well)).2] at ends ⊢
      exact (holds (endsAsExtra_of_append ends)).append
        ((rawSink sink lang).reduce_not_mem_shiftEvents _ _ _)
    · cases (Prod.mk.inj (shifted.symm.trans failed)).1
  · intro before after cut symbol childCount productionId _ holds cuts inner
      ends
    obtain ⟨_, _, _, ⟨_, _, same⟩ | ⟨failed, _⟩⟩ := inner.done
    · rw [same] at ends ⊢
      have own := ends _ (List.mem_append_right _ List.mem_cons_self)
      exact (holds (endsAsExtra_of_append ends)).concat
        (isRoot_reductionOf cuts own) _
    · cases failed
  · intro before after cut symbol childCount productionId token _ holds _
      root ends
    obtain ⟨_, _, _, ⟨_, _, _, same⟩ | ⟨failed, _⟩⟩ := root.done
    · have logged :
          ∀ reduction value,
            (rawSink sink lang).reduceEvents reduction value =
              [.reduce reduction value] :=
        fun _ _ => rfl
      rw [same] at ends ⊢
      simp only [logged, List.dropLast_concat] at ends ⊢
      have old := endsAsExtra_of_append (endsAsExtra_of_append ends)
      exact (holds old).append
        ((rawSink sink lang).reduce_not_mem_shiftEvents _ _ _)
    · cases failed

/-- A failed operation keeps the end token out of the log. -/
theorem Fails.noEnd
    (ready : Ready before)
    (noEnd : NoEnd before.events)
    (fails : Fails (rawSink sink lang) lang before after)
    (ends : ∀ event ∈ after.events, event.EndsAsExtra) :
    NoEnd after.events := by
  have growth :
      ∀ rooted,
        ∀ reduction value,
          (.reduce reduction value : Event (TFFilterValue W)) ∉
            [.growthFailed rooted] := by
    intro rooted reduction value member
    cases List.mem_singleton.mp member
  cases fails with
  | quiet same =>
      rw [same.events]
      exact noEnd
  | shift shifted same =>
      rename_i failed token extra state
      rw [same.events]
      rcases before.shift_cases (rawSink sink lang) token extra state with
        ⟨_, _, _, _, well⟩ | ⟨_, unplaced⟩
      · cases (Prod.mk.inj (shifted.symm.trans well)).1
      · rw [(Prod.mk.inj (shifted.symm.trans unplaced)).2]
        exact (noEnd.append
          ((rawSink sink lang).reduce_not_mem_shiftEvents _ _ _)).append
          (growth _)
  | reduce reduced same =>
      rw [same.events] at ends ⊢
      obtain ⟨cut, cuts, ⟨_, inner⟩ | ⟨token, _, root⟩⟩ :=
        reduce_cases ready.fits reduced
      · obtain ⟨_, _, _, ⟨well, _⟩ | ⟨_, _, _, unplaced⟩⟩ := inner.done
        · cases well
        · rw [unplaced] at ends ⊢
          have own :=
            ends _
              (List.mem_append_left _
                (List.mem_append_right _ List.mem_cons_self))
          exact (noEnd.concat (isRoot_reductionOf cuts own) _).append
            (growth _)
      · obtain ⟨_, _, _, ⟨well, _⟩ | ⟨_, unplaced⟩⟩ := root.done
        · cases well
        · rw [unplaced]
          exact noEnd.append (growth _)

/-- Before a run no event has happened. -/
theorem Entered.noEnd
    {source : List UInt8}
    {payload : TFFilter τ W}
    {first : TFParser (TFFilter τ W) (TFFilterValue W)}
    (entered : Entered source payload first) :
    NoEnd first.events := by
  obtain ⟨_, _, rfl⟩ := entered.entered
  intro reduction value member
  cases member

/-- A parse over tables that keep the end token for the root. -/
theorem tfParse_endsAlone
    (loaded : lang.Loaded)
    (reserves : lang.ReservesEnd)
    {fuel : Nat}
    {source : List UInt8}
    {payload : TFFilter τ W}
    {heap : Heap}
    {raw : TFResult (TFFilter τ W) (TFFilterValue W)}
    (ran :
      tfParse lang (rawSink sink lang) fuel source payload heap = some raw) :
    raw.parser.EndsAlone := by
  have ends := tfParse_endsAsExtra reserves ran
  unfold EndsAlone
  cases run_spec loaded (fun _ _ _ _ _ => ⟨rfl, rfl⟩) ran with
  | unentered notOk noCells untouched noCalls =>
      have noReduction :
          ∀ reduction value,
            .reduce reduction value ∉ raw.parser.events := by
        rcases noCalls with nothing | growth
        · rw [nothing]
          exact fun _ _ => List.not_mem_nil
        · rw [growth]
          intro reduction value member
          cases List.mem_singleton.mp member
      intro reduction value member
      refine absurd ?_ (noReduction reduction value)
      split at member
      · exact List.dropLast_subset _ member
      · exact member
  | @failed first last entered notOk fails discarded =>
      obtain ⟨before, ready, trace, failure⟩ := fails.failure
      have same : raw.parser = last := by
        rw [discarded]
        rfl
      rw [same] at ends ⊢
      obtain ⟨rootEmitted, more, logged⟩ := failure.later ready
      rw [rootEmitted, if_neg Bool.false_ne_true]
      refine failure.noEnd ready ?_ ends
      rw [logged] at ends
      rcases trace.noEnd entered.ready entered.noEnd
          (endsAsExtra_of_append ends) with
        ⟨_, noEnd⟩ | ⟨rooted, _⟩
      · exact noEnd
      · rw [ready.open_] at rooted
        cases rooted
  | accepted entered ok trace last root =>
      rcases trace.noEnd entered.ready entered.noEnd ends with
        ⟨ready, noEnd⟩ | ⟨rooted, noEnd⟩
      · rw [ready.open_, if_neg Bool.false_ne_true]
        exact noEnd
      · rw [rooted, if_pos rfl]
        exact noEnd

end Operations

/-- Whether the root has been emitted, and is visible. -/
def reportsRoot {σ V : Type}
    (lang : TFLanguage)
    (parser : TFParser σ V) : Bool :=
  parser.rootEmitted &&
    parser.cells[parser.leading]?.any
      (fun cell => (lang.symbolMetadata cell.node.symbol).visible)

end TFParser

namespace TFFilter

variable {τ W : Type}

/-- Giving the arena back is logged value by value. -/
theorem events_discardArena
    {sink : TFVisibleSink τ W}
    {onDiscard : W → τ → τ}
    (discards : sink.onDiscard = some onDiscard)
    (filter : TFFilter τ W) :
    (filter.discardArena sink).consumer.events =
      filter.consumer.events ++
        (entryValues filter.arena).map .discard := by
  unfold discardArena
  rw [discards]
  dsimp only
  generalize filter.consumer = consumer
  induction filter.arena generalizing consumer with
  | nil =>
      simp [entryValues]
  | cons entry rest inductionHypothesis =>
      rw [List.foldl_cons, inductionHypothesis, entryValues_cons]
      unfold TFConsumer.callDiscard
      cases entry.value with
      | none =>
          simp
      | some value =>
          simp

/-- Giving values back keeps the books balanced. -/
theorem balanced_discards
    {log : List (VisibleEvent W)}
    {held : List W}
    (balanced : Balanced (visibleAccounts W) log held) :
    Balanced (visibleAccounts W) (log ++ held.map .discard) [] := by
  induction held generalizing log with
  | nil =>
      simpa using balanced
  | cons value rest inductionHypothesis =>
      have given :
          Balanced (visibleAccounts W) (log ++ [.discard value]) rest :=
        balanced.record _ (.refl _) (.refl _)
      simpa using inductionHypothesis given

/-- Giving values back is no giving up. -/
theorem gaveUp_not_mem_discards
    (held : List W)
    (answered : Bool) :
    VisibleEvent.gaveUp answered ∉
      held.map (fun value => VisibleEvent.discard value) := by
  simp

/-- What is lost when a spoiled filter gives its arena back. -/
theorem Spoiled.discarded [DecidableEq W]
    {sink : TFVisibleSink τ W}
    {onDiscard : W → τ → τ}
    (discards : sink.onDiscard = some onDiscard)
    {filter : TFFilter τ W}
    (spoiled : Spoiled filter)
    (fresh :
      FreshNodes sink (filter.discardArena sink).consumer.events) :
    (visibleAccounts W).TakenOnce
        (filter.discardArena sink).consumer.events [] ↔
      .gaveUp true ∉ (filter.discardArena sink).consumer.events := by
  have logged := events_discardArena discards filter
  cases spoiled with
  | whole failed quiet balanced =>
      have books := balanced_discards balanced
      rw [← logged] at books
      refine iff_of_true (books.takenOnce fresh.distinct) ?_
      rw [logged, List.mem_append, not_or]
      exact ⟨quiet, gaveUp_not_mem_discards _ true⟩
  | missing failed log calls loggedCalls some_ nodes taken arena =>
      refine iff_of_false ?_ ?_
      · intro takenOnce
        obtain ⟨event, isCall⟩ := List.exists_mem_of_ne_nil calls some_
        obtain ⟨node, answer, rfl⟩ := nodes event isCall
        have member :
            .node node answer ∈
              (filter.discardArena sink).consumer.events := by
          rw [logged, loggedCalls]
          simp [isCall]
        obtain ⟨value, rfl⟩ :=
          Option.isSome_iff_exists.mp (fresh.answered _ member)
        have issued :
            value ∈ (visibleAccounts W).issued calls :=
          List.mem_flatMap.mpr ⟨_, isCall, by simp [visibleAccounts]⟩
        have untaken : value ∉ (visibleAccounts W).issued log := by
          intro earlier
          have distinct := fresh.distinct
          rw [logged, loggedCalls, List.append_assoc, List.append_assoc,
            Accounts.issued_append, Accounts.issued_append] at distinct
          exact (List.nodup_append.mp distinct).2.2 value earlier value
            (List.mem_append_left _ issued) rfl
        have wasIssued :
            value ∈
              (visibleAccounts W).issued
                (filter.discardArena sink).consumer.events :=
          List.mem_flatMap.mpr ⟨_, member, by simp [visibleAccounts]⟩
        rcases Accounts.TakenOnce.taken_or_kept _ takenOnce wasIssued with
          isTaken | kept
        · rw [logged, loggedCalls, Accounts.taken_append,
            Accounts.taken_append, List.mem_append, List.mem_append]
            at isTaken
          have discarded :
              (visibleAccounts W).taken
                  ((entryValues filter.arena).map .discard) =
                entryValues filter.arena := by
            simp [Accounts.taken, visibleAccounts, List.flatMap_map]
          rcases isTaken with (before | gaveUp) | back
          · exact untaken (taken before)
          · simp [visibleAccounts] at gaveUp
          · rw [discarded] at back
            exact untaken (arena back)
        · cases kept
      · rw [logged, loggedCalls]
        simp

end TFFilter

/-- Calls give nothing up. -/
theorem gaveUp_not_mem_of_calls {W : Type}
    {log : List (VisibleEvent W)}
    (calls : ∀ event ∈ log, event.isCall = true)
    (answered : Bool) :
    .gaveUp answered ∉ log := by
  intro member
  cases calls _ member

/-- A filter that has not been called is sound. -/
theorem TFFilter.sound_initial {τ W : Type}
    (payload : τ) :
    Sound (.initial payload : TFFilter τ W) :=
  ⟨rfl, by simp [TFFilter.initial],
    by simpa [TFFilter.initial, entryValues] using .empty⟩

/-- As a parse enters, no cell owns anything of an empty arena. -/
theorem TFParser.Entered.inArena {τ W : Type}
    {source : List UInt8}
    {payload : τ}
    {first : TFParser (TFFilter τ W) (TFFilterValue W)}
    (entered : Entered source (.initial payload) first) :
    InArena first := by
  obtain ⟨_, _, rfl⟩ := entered.entered
  exact ⟨TFFilter.sound_initial payload, rfl, by simp [TFParser.initial],
    by simp [TFParser.initial]⟩

section Delivery

open TFFilter

variable {τ W : Type}
variable {lang : TFLanguage}
variable {sink : TFVisibleSink τ W}
variable {onDiscard : W → τ → τ}
variable {raw : TFResult (TFFilter τ W) (TFFilterValue W)}

/-- A parse that goes well keeps its filter and the root it was given. -/
theorem ofRaw_of_healthy
    (sink : TFVisibleSink τ W)
    (ok : raw.ok = true)
    (healthy : raw.parser.payload.failed = false) :
    (TFVisibleResult.ofRaw sink raw).filter = raw.parser.payload ∧
      (TFVisibleResult.ofRaw sink raw).root =
        TFVisibleResult.rootOf raw.root := by
  simp [TFVisibleResult.ofRaw, ok, healthy]

/-- A cell of a stack before the root is reduced is no root. -/
theorem TFParser.InArena.rootOf_acceptedRoot
    {parser : TFParser (TFFilter τ W) (TFFilterValue W)}
    (inArena : parser.InArena) :
    TFVisibleResult.rootOf (TFStep.acceptedRoot parser) = none := by
  unfold TFStep.acceptedRoot
  split
  · rename_i cell isCell
    obtain ⟨packed, value⟩ :=
      inArena.packed cell (List.mem_of_getElem? isCell)
    rw [value]
    rfl
  · rfl

variable [DecidableEq W]

/-- When a parse that is over has handed over every value once. -/
def DeliversWhen
    (lang : TFLanguage)
    (sink : TFVisibleSink τ W)
    (raw : TFResult (TFFilter τ W) (TFFilterValue W)) : Prop :=
  let result := TFVisibleResult.ofRaw sink raw
  (visibleAccounts W).TakenOnce result.filter.consumer.events
      result.root.toList ↔
    .gaveUp true ∉ result.filter.consumer.events ∧
      (raw.ok = true →
        raw.parser.payload.failed = false →
          raw.parser.reportsRoot lang = true ∨
            entryValues raw.parser.payload.arena = [])

/-- A parse that fails discards what stands in the arena. -/
theorem deliversWhen_of_failed
    (discards : sink.onDiscard = some onDiscard)
    (fresh :
      FreshNodes sink
        (TFVisibleResult.ofRaw sink raw).filter.consumer.events)
    (failing : raw.ok = true → raw.parser.payload.failed = true)
    (state : Sound raw.parser.payload ∨ Spoiled raw.parser.payload) :
    DeliversWhen lang sink raw := by
  have notOk : (TFVisibleResult.ofRaw sink raw).ok = false := by
    simpa [TFVisibleResult.ofRaw] using failing
  have filterEq :
      (TFVisibleResult.ofRaw sink raw).filter =
        raw.parser.payload.discardArena sink := by
    simp only [TFVisibleResult.ofRaw] at notOk ⊢
    rw [if_neg (by simp [notOk])]
  have rootEq : (TFVisibleResult.ofRaw sink raw).root = none := by
    simp only [TFVisibleResult.ofRaw] at notOk ⊢
    rw [if_neg (by simp [notOk])]
  have unaccepted :
      raw.ok = true →
        raw.parser.payload.failed = false →
          raw.parser.reportsRoot lang = true ∨
            entryValues raw.parser.payload.arena = [] := by
    intro ok healthy
    rw [failing ok] at healthy
    cases healthy
  unfold DeliversWhen
  dsimp only
  rw [rootEq, filterEq, and_iff_left unaccepted, Option.toList_none]
  rw [filterEq] at fresh
  rcases state with sound | spoiled
  · have logged := events_discardArena discards raw.parser.payload
    have books := balanced_discards sound.balanced
    rw [← logged] at books
    refine iff_of_true (books.takenOnce fresh.distinct) ?_
    rw [logged, List.mem_append, not_or]
    exact ⟨sound.quiet true, gaveUp_not_mem_discards _ true⟩
  · exact spoiled.discarded discards fresh

/-- Without a visible root, what stands in the arena is lost. -/
theorem deliversWhen_of_unreported
    (fresh :
      FreshNodes sink
        (TFVisibleResult.ofRaw sink raw).filter.consumer.events)
    (ok : raw.ok = true)
    (notReported : raw.parser.reportsRoot lang = false)
    (sound : Sound raw.parser.payload)
    (noRoot : TFVisibleResult.rootOf raw.root = none) :
    DeliversWhen lang sink raw := by
  obtain ⟨filterEq, rootEq⟩ := ofRaw_of_healthy sink ok sound.healthy
  unfold DeliversWhen
  dsimp only
  rw [filterEq] at fresh
  rw [rootEq, noRoot, filterEq, Option.toList_none,
    sound.balanced.takenOnce_nil_iff fresh.distinct]
  constructor
  · intro nothing
    exact ⟨sound.quiet true, fun _ _ => Or.inr nothing⟩
  · rintro ⟨_, accepts⟩
    rcases accepts ok sound.healthy with reported | nothing
    · rw [notReported] at reported
      cases reported
    · exact nothing

/-- A visible root has taken everything else, and is handed over itself. -/
theorem deliversWhen_of_root
    (fresh :
      FreshNodes sink
        (TFVisibleResult.ofRaw sink raw).filter.consumer.events)
    (ok : raw.ok = true)
    (root : raw.root = TFStep.acceptedRoot raw.parser)
    (rooted : raw.parser.rootEmitted = true)
    (inArena : TFParser.RootInArena lang raw.parser) :
    DeliversWhen lang sink raw := by
  obtain ⟨cell, isCell, held⟩ := inArena
  have accepted : raw.root = cell.node.value := by
    rw [root]
    simp only [TFStep.acceptedRoot, isCell]
  obtain ⟨filterEq, rootEq⟩ := ofRaw_of_healthy sink ok held.healthy
  cases visible : (lang.symbolMetadata cell.node.symbol).visible with
  | true =>
      obtain ⟨value, valueEq, balanced⟩ := held.visible visible
      have reported : raw.parser.reportsRoot lang = true := by
        simp [TFParser.reportsRoot, rooted, isCell, visible]
      have kept : (TFVisibleResult.ofRaw sink raw).root = value := by
        rw [rootEq, accepted, valueEq]
        cases value <;> rfl
      unfold DeliversWhen
      dsimp only
      rw [filterEq] at fresh
      rw [kept, filterEq]
      exact iff_of_true (balanced.takenOnce fresh.distinct)
        ⟨gaveUp_not_mem_of_calls held.calls true,
          fun _ _ => Or.inl reported⟩
  | false =>
      obtain ⟨noValue, balanced⟩ := held.hidden visible
      refine deliversWhen_of_unreported fresh ok ?_
        ⟨held.healthy, held.calls, balanced⟩ ?_
      · simp [TFParser.reportsRoot, isCell, visible]
      · rw [accepted, noValue]
        rfl

end Delivery

open TFFilter in
/--
Every value a visible parse was given is handed over once, if and only if the
filter does not run out of memory after a call for the same reduction and, where
the accept action is taken by a filter that has not failed, the root has been
emitted and is visible, or no value stands in the arena.
-/
theorem visible_values_delivered_iff {τ W : Type} [DecidableEq W]
    {lang : TFLanguage}
    (loaded : lang.Loaded)
    (reserves : lang.ReservesEnd)
    {sink : TFVisibleSink τ W}
    {onDiscard : W → τ → τ}
    (discards : sink.onDiscard = some onDiscard)
    {fuel : Nat}
    {source : List UInt8}
    {payload : τ}
    {heap : Heap}
    {raw : TFResult (TFFilter τ W) (TFFilterValue W)}
    (ran :
      tfParse lang (rawSink sink lang) fuel source (.initial payload)
        heap = some raw)
    (fresh :
      FreshNodes sink
        (TFVisibleResult.ofRaw sink raw).filter.consumer.events) :
    let result := TFVisibleResult.ofRaw sink raw
    (visibleAccounts W).TakenOnce result.filter.consumer.events
        result.root.toList ↔
      .gaveUp true ∉ result.filter.consumer.events ∧
        ∀ parser : TFParser (TFFilter τ W) (TFFilterValue W),
          TFParser.AcceptsAt (.consumer lang (rawSink sink lang) fuel)
              source (.initial payload) heap parser →
            parser.payload.failed = false →
              parser.reportsRoot lang = true ∨
                entryValues parser.payload.arena = [] := by
  intro result
  have reports := fresh.reports
  have endsAlone := TFParser.tfParse_endsAlone loaded reserves ran
  simp only [TFParser.acceptsAt_iff ran]
  suffices delivers : DeliversWhen lang sink raw by
    rw [DeliversWhen] at delivers
    rw [delivers]
    refine and_congr_right (fun _ => ⟨?_, fun each ok => each _ ⟨ok, rfl⟩⟩)
    rintro accepts parser ⟨ok, rfl⟩
    exact accepts ok
  cases TFParser.run_spec loaded (fun _ _ _ _ _ => ⟨rfl, rfl⟩) ran with
  | unentered notOk noCells untouched noCalls =>
      refine deliversWhen_of_failed discards fresh (by simp [notOk])
        (Or.inl ?_)
      rw [untouched]
      exact sound_initial payload
  | @failed first last entered notOk fails discarded =>
      obtain ⟨before, ready, trace, failure⟩ := fails.failure
      have same : raw.parser = last := by
        rw [discarded]
        rfl
      obtain ⟨rootEmitted, more, logged⟩ := failure.later ready
      have noEnd : NoEnd last.events := by
        unfold TFParser.EndsAlone at endsAlone
        rw [same, rootEmitted, if_neg Bool.false_ne_true] at endsAlone
        exact endsAlone
      have noEndBefore : NoEnd before.events := by
        rw [logged] at noEnd
        exact noEnd.of_append
      refine deliversWhen_of_failed discards fresh (by simp [notOk]) ?_
      rw [same]
      rcases trace.inArena reports entered.ready entered.inArena
        with ⟨_, holds⟩ | ⟨rooted, _⟩
      · exact failure.filter reports ready (holds noEndBefore) noEnd
      · rw [ready.open_] at rooted
        cases rooted
  | accepted entered ok trace last root =>
      unfold TFParser.EndsAlone at endsAlone
      rcases trace.inArena reports entered.ready entered.inArena with
        ⟨ready, holds⟩ | ⟨rooted, holds⟩
      · rw [ready.open_, if_neg Bool.false_ne_true] at endsAlone
        rcases holds endsAlone with inArena | spoiled
        · refine deliversWhen_of_unreported fresh ok ?_ inArena.sound ?_
          · simp [TFParser.reportsRoot, ready.open_]
          · rw [root]
            exact inArena.rootOf_acceptedRoot
        · exact deliversWhen_of_failed discards fresh
            (fun _ => spoiled.failed) (Or.inr spoiled)
      · rw [rooted, if_pos rfl] at endsAlone
        rcases holds endsAlone with inArena | spoiled
        · exact deliversWhen_of_root fresh ok root rooted inArena
        · exact deliversWhen_of_failed discards fresh
            (fun _ => spoiled.failed) (Or.inr spoiled)

/-- A visible consumer that numbers its answers. -/
def countingVisibleSink : TFVisibleSink Nat Nat where
  onNode := some (fun _ count => (some count, count + 1))
  onHidden := none
  onDiscard := some (fun _ count => count)
  namedOnly := false

/-- What is read of a run of the consumer. -/
def countedNodes
    (raw : TFResult (TFFilter Nat Nat) (TFFilterValue Nat)) :
    Bool × List Nat × List Nat :=
  let result := TFVisibleResult.ofRaw countingVisibleSink raw
  let events := result.filter.consumer.events
  (events.all VisibleEvent.answers,
    (visibleAccounts Nat).issued events,
    (visibleAccounts Nat).taken events)

/-- A run that issued distinct numbers made fresh values. -/
theorem FreshNodes.of_countedNodes
    {raw : TFResult (TFFilter Nat Nat) (TFFilterValue Nat)}
    {issued taken : List Nat}
    (counted : countedNodes raw = (true, issued, taken))
    (distinct : issued.Nodup) :
    FreshNodes countingVisibleSink
      (TFVisibleResult.ofRaw countingVisibleSink
        raw).filter.consumer.events := by
  simp only [countedNodes, Prod.mk.injEq] at counted
  obtain ⟨answered, issuedEq, _⟩ := counted
  refine ⟨rfl, List.all_eq_true.mp answered, ?_⟩
  rw [issuedEq]
  exact distinct

/-- The grammar keeps the end token for the root. -/
theorem fieldedGrammar_reservesEnd : fieldedGrammar.ReservesEnd :=
  fieldedGrammar_loaded.reservesEnd (by decide +kernel) (by decide +kernel)
    (by decide +kernel) (by decide +kernel)

/-- And so do the repetitions. -/
theorem repeatsGrammar_reservesEnd : repeatsGrammar.ReservesEnd :=
  repeatsGrammar_loaded.reservesEnd (by decide +kernel) (by decide +kernel)
    (by decide +kernel) (by decide +kernel)

/--
The letter has been reported when growing the arena fails, and the value made
for it is given to nobody.
-/
theorem visible_values_lost :
    ∃ raw,
      tfParse fieldedGrammar
          (TFFilter.rawSink countingVisibleSink fieldedGrammar) 20 [97]
          (.initial 0) ⟨fun request => request == 3, 0⟩ = some raw ∧
        let result := TFVisibleResult.ofRaw countingVisibleSink raw
        FreshNodes countingVisibleSink result.filter.consumer.events ∧
          ¬ (visibleAccounts Nat).TakenOnce
              result.filter.consumer.events result.root.toList := by
  have computed :
      (tfParse fieldedGrammar
          (TFFilter.rawSink countingVisibleSink fieldedGrammar) 20 [97]
          (.initial 0) ⟨fun request => request == 3, 0⟩).map
        (fun raw =>
          (countedNodes raw,
            (TFVisibleResult.ofRaw countingVisibleSink raw).root)) =
        some ((true, [0], []), none) := by
    decide +kernel
  obtain ⟨raw, ran, counted⟩ := Option.map_eq_some_iff.mp computed
  obtain ⟨countedEq, noRoot⟩ := Prod.mk.inj counted
  have fresh := FreshNodes.of_countedNodes countedEq (by decide)
  simp only [countedNodes, Prod.mk.injEq] at countedEq
  obtain ⟨_, issued, taken⟩ := countedEq
  refine ⟨raw, ran, fresh, ?_⟩
  intro takenOnce
  rcases Accounts.TakenOnce.taken_or_kept _ takenOnce
      (show 0 ∈ (visibleAccounts Nat).issued _ by
        rw [issued]
        simp) with
    isTaken | kept
  · rw [taken] at isTaken
    cases isTaken
  · rw [noRoot] at kept
    cases kept

/-- With memory enough every value of the letter's parse is delivered. -/
theorem visible_values_delivered_iff_letter :
    ∃ raw,
      tfParse fieldedGrammar
          (TFFilter.rawSink countingVisibleSink fieldedGrammar) 20 [97]
          (.initial 0) .reliable = some raw ∧
        let result := TFVisibleResult.ofRaw countingVisibleSink raw
        ((visibleAccounts Nat).TakenOnce result.filter.consumer.events
            result.root.toList ↔
          .gaveUp true ∉ result.filter.consumer.events ∧
            ∀ parser : TFParser (TFFilter Nat Nat) (TFFilterValue Nat),
              TFParser.AcceptsAt
                  (.consumer fieldedGrammar
                    (TFFilter.rawSink countingVisibleSink fieldedGrammar)
                    20)
                  [97] (.initial 0) .reliable parser →
                parser.payload.failed = false →
                  parser.reportsRoot fieldedGrammar = true ∨
                    entryValues parser.payload.arena = []) := by
  have computed :
      (tfParse fieldedGrammar
          (TFFilter.rawSink countingVisibleSink fieldedGrammar) 20 [97]
          (.initial 0) .reliable).map countedNodes =
        some (true, [0, 1, 2], [0, 1]) := by
    decide +kernel
  obtain ⟨raw, ran, counted⟩ := Option.map_eq_some_iff.mp computed
  exact ⟨raw, ran,
    visible_values_delivered_iff fieldedGrammar_loaded
      fieldedGrammar_reservesEnd rfl ran
      (FreshNodes.of_countedNodes counted (by decide))⟩

end TreeFeller
