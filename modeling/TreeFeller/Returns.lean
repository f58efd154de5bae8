import TreeFeller.Handovers
import TreeFeller.SmallTables

namespace TreeFeller

open ValueLedger

/-!
# What a failed parse gives back

A failed parse discards what the cells hold.  That is every value no reduction
has taken, but for one: a value whose cell found no room on the stack after
the callback had returned it.  Nobody is handed that value.
-/

/-- Whether a callback's answer, if the event is a call, is a value. -/
def Event.answers {V : Type} : Event V → Bool
  | .shift _ _ value => value.isSome
  | .reduce _ value => value.isSome
  | _ => true

/-- Callbacks that return a value of its own for every call of a log. -/
structure FreshValues {σ V : Type}
    (sink : TFSink σ V)
    (log : List (Event V)) : Prop where
  shifts : sink.onShift.isSome = true
  reduces : sink.onReduce.isSome = true
  answered : ∀ event ∈ log, event.answers = true
  distinct : ((valueAccounts V).issued log).Nodup

namespace TFParser

variable {σ V : Type}
variable {sink : TFSink σ V}
variable {lang : TFLanguage}

/-- The values of callbacks count. -/
theorem Counts.value (reduces : sink.onReduce.isSome = true) :
    Counts sink TFNode.value :=
  ⟨reduces, fun _ _ _ => rfl⟩

/-- A failed operation loses a value if its cell found no room for it. -/
theorem Fails.books
    {before last : TFParser σ V}
    (ready : Ready before)
    (neverFull : NeverFull before)
    (balanced :
      Balanced (valueAccounts V) before.events
        (heldBy TFNode.value before.cells))
    (fails : Fails sink lang before last)
    (shifts : sink.onShift.isSome = true)
    (reduces : sink.onReduce.isSome = true)
    (answered : ∀ event ∈ last.events, event.answers = true) :
    ∃ lost,
      Balanced (valueAccounts V) last.events
          (heldBy TFNode.value last.cells ++ lost) ∧
        (lost = [] ↔ Event.growthFailed true ∉ last.events) := by
  have counts := Counts.value reduces
  have nothingLost :
      ∀ after : TFParser σ V,
        after.cells = before.cells →
        Balanced (valueAccounts V) after.events
          (heldBy TFNode.value before.cells) →
        Event.growthFailed true ∉ after.events →
        ∃ lost,
          Balanced (valueAccounts V) after.events
              (heldBy TFNode.value after.cells ++ lost) ∧
            (lost = [] ↔ Event.growthFailed true ∉ after.events) := by
    intro after cells books noLoss
    refine ⟨[], ?_, iff_of_true rfl noLoss⟩
    rw [cells, List.append_nil]
    exact books
  cases fails with
  | quiet same =>
      refine nothingLost last same.cells ?_ ?_
      · rw [same.events]
        exact balanced
      · rw [same.events]
        exact neverFull true
  | shift shifted same =>
      rename_i failed token extra state
      obtain ⟨value, _, logged, books⟩ :=
        counts.shiftFailed balanced shifted
      rw [← same.cells, ← same.events] at books
      rw [← same.events] at logged
      refine ⟨_, books, ?_⟩
      have isAnswered : value.isSome = true := by
        refine answered (.shift token extra value) ?_
        rw [logged]
        simp [TFSink.shiftEvents, shifts]
      obtain ⟨answer, rfl⟩ := Option.isSome_iff_exists.mp isAnswered
      simp [TFToken.node, logged]
  | reduce reduced same =>
      obtain ⟨cut, cuts, ⟨_, inner⟩ | ⟨token, _, root⟩⟩ :=
        reduce_cases ready.fits reduced
      · obtain ⟨reduction, value, _, logged, books⟩ :=
          counts.reduceInnerFailed balanced inner
        rw [← same.cells, ← same.events] at books
        rw [← same.events] at logged
        refine ⟨_, books, ?_⟩
        have isAnswered : value.isSome = true := by
          refine answered (.reduce reduction value) ?_
          rw [logged]
          simp
        obtain ⟨answer, rfl⟩ := Option.isSome_iff_exists.mp isAnswered
        simp [parentNode, logged]
      · obtain ⟨heap, capacity, _, ⟨well, _⟩ | ⟨_, sameFailed⟩⟩ :=
          root.done
        · cases well
        · refine nothingLost last ?_ ?_ ?_
          · rw [same.cells, sameFailed]
          · rw [same.events, sameFailed]
            exact balanced.idle _ rfl rfl
          · rw [same.events, sameFailed]
            simpa using neverFull true

end TFParser

open TFParser in
/--
A failed parse gives every value back once, to a reduction or to
`on_discard`, if and only if no cell failed to find room after the callback
made for it.
-/
theorem failed_parse_returns_values_iff {σ V : Type} [DecidableEq V]
    {lang : TFLanguage}
    (loaded : lang.Loaded)
    {sink : TFSink σ V}
    {onDiscard : V → σ → σ}
    (discards : sink.onDiscard = some onDiscard)
    {fuel : Nat}
    {source : List UInt8}
    {payload : σ}
    {heap : Heap}
    {result : TFResult σ V}
    (ran : tfParse lang sink fuel source payload heap = some result)
    (failed : result.ok = false)
    (fresh : FreshValues sink result.parser.events) :
    (valueAccounts V).TakenOnce result.parser.events [] ↔
      Event.growthFailed true ∉ result.parser.events := by
  cases run_spec loaded (fun _ _ _ _ _ => ⟨rfl, rfl⟩) ran with
  | unentered _ _ _ noCalls =>
      have noneIssued :
          Balanced (valueAccounts V) result.parser.events [] := by
        rcases noCalls with none | one
        · rw [none]
          exact .empty
        · rw [one]
          exact Balanced.empty.idle _ rfl rfl
      rw [noneIssued.takenOnce_nil_iff fresh.distinct]
      rcases noCalls with none | one
      · simp [none]
      · simp [one]
  | accepted _ ok _ _ _ =>
      rw [failed] at ok
      cases ok
  | @failed first last entered _ fails discarded =>
      obtain ⟨before, ready, trace, failure⟩ := fails.failure
      have readyFirst := entered.ready
      have logged :
          result.parser.events =
            last.events ++
              (heldBy TFNode.value last.cells).map .discard := by
        rw [discarded]
        exact events_discardAll discards last
      obtain ⟨startHeap, capacity, rfl⟩ := entered.entered
      have balanced :
          Balanced (valueAccounts V) before.events
            (heldBy TFNode.value before.cells) := by
        rcases (Counts.value fresh.reduces).trace readyFirst rfl rfl
            trace with ⟨_, balanced⟩ | ⟨rooted, _⟩
        · exact balanced
        · rw [ready.open_] at rooted
          cases rooted
      have neverFull := Trace.neverFull readyFirst rfl trace
      obtain ⟨lost, books, lostIff⟩ :=
        Fails.books ready neverFull balanced failure fresh.shifts
          fresh.reduces
          (by
            intro event member
            refine fresh.answered event ?_
            rw [logged]
            exact List.mem_append_left _ member)
      have booksAfter := balanced_discards books
      rw [← logged] at booksAfter
      rw [booksAfter.takenOnce_nil_iff fresh.distinct, lostIff, logged]
      simp

/-- A grammar whose one token is an extra, so that the stack only grows. -/
def extrasGrammar : TFLanguage :=
  TSLanguage.loaded
    (smallTables 3 2 2 [(97, 1)] [[], [.shift 0 true false]] [(1, 1, 1)] [])

/-- The tables of the grammar load. -/
theorem extrasGrammar_loaded : extrasGrammar.Loaded :=
  TSLanguage.loaded_of_isOk (by decide +kernel)

/-- A consumer that numbers its answers. -/
def countingSink : TFSink Nat Nat where
  onShift := some (fun _ _ count heap => (some count, count + 1, heap))
  onReduce := some (fun _ count heap => (some count, count + 1, heap))
  onDiscard := some (fun _ count => count)

/-- What is read of a failed run of the consumer. -/
def countedValues (result : TFResult Nat Nat) :
    Bool × Bool × List Nat × List Nat :=
  (result.ok, result.parser.events.all Event.answers,
    (valueAccounts Nat).issued result.parser.events,
    (valueAccounts Nat).taken result.parser.events)

/-- A run that issued distinct numbers made fresh values. -/
theorem FreshValues.of_countedValues
    {result : TFResult Nat Nat}
    {ok : Bool}
    {issued taken : List Nat}
    (counted : countedValues result = (ok, true, issued, taken))
    (distinct : issued.Nodup) :
    FreshValues countingSink result.parser.events := by
  simp only [countedValues, Prod.mk.injEq, List.all_eq_true] at counted
  obtain ⟨_, answered, issuedEq, _⟩ := counted
  refine ⟨rfl, rfl, answered, ?_⟩
  rw [issuedEq]
  exact distinct

/--
After 64 tokens the stack has to grow.  If it cannot, the value returned for
the next one is given to nobody.
-/
theorem failed_parse_loses_value :
    ∃ result,
      tfParse extrasGrammar countingSink 140 (List.replicate 65 97) 0
          ⟨fun request => request == 2, 0⟩ = some result ∧
        result.ok = false ∧
        FreshValues countingSink result.parser.events ∧
        ¬ (valueAccounts Nat).TakenOnce result.parser.events [] := by
  have computed :
      (tfParse extrasGrammar countingSink 140 (List.replicate 65 97) 0
          ⟨fun request => request == 2, 0⟩).map countedValues =
        some (false, true, List.range 65, List.range 64) := by
    decide +kernel
  obtain ⟨result, ran, counted⟩ := Option.map_eq_some_iff.mp computed
  have fresh :=
    FreshValues.of_countedValues counted List.nodup_range
  simp only [countedValues, Prod.mk.injEq] at counted
  obtain ⟨failed, _, issued, taken⟩ := counted
  refine ⟨result, ran, failed, fresh, ?_⟩
  intro takenOnce
  have last :=
    Accounts.TakenOnce.taken_or_kept _ takenOnce
      (show 64 ∈ (valueAccounts Nat).issued result.parser.events by
        rw [issued]
        simp)
  rw [taken] at last
  simp at last

/-- A token the lexer does not know: the value before it comes back. -/
theorem failed_parse_returns_values_iff_letter :
    ∃ result,
      tfParse extrasGrammar countingSink 8 [97, 98] 0 .reliable =
          some result ∧
        ((valueAccounts Nat).TakenOnce result.parser.events [] ↔
          Event.growthFailed true ∉ result.parser.events) := by
  have computed :
      (tfParse extrasGrammar countingSink 8 [97, 98] 0 .reliable).map
          countedValues =
        some (false, true, [0], [0]) := by
    decide +kernel
  obtain ⟨result, ran, counted⟩ := Option.map_eq_some_iff.mp computed
  exact ⟨result, ran,
    failed_parse_returns_values_iff extrasGrammar_loaded rfl ran
      (congrArg Prod.fst counted)
      (FreshValues.of_countedValues counted (by decide))⟩

end TreeFeller
