import TreeFeller.Traces
import TreeFeller.Library.Ledger

namespace TreeFeller

open ValueLedger

/-!
# Who holds a value

A callback returns a value for the cell it was called for.  The stack holds
the value until a reduction hands it to the sink as a child's; a failed parse
gives what is still held back.  The log's books say so: at every point of a
trace they balance with what the cells hold.

What is counted of a node is a parameter, its value for instance.
-/

/-- The books of a log, where `read` is what counts of a node. -/
def nodeAccounts {V α : Type}
    (read : TFNode V → Option α)
    (returned : V → List α) :
    Accounts (Event V) α where
  issues := fun event =>
    match event with
    | .shift token extra value => (read (token.node extra value)).toList
    | .reduce reduction value =>
        (read (TFParser.parentNode reduction value)).toList
    | _ => []
  takes := fun event =>
    match event with
    | .reduce reduction _ => reduction.children.filterMap read
    | .discard value => returned value
    | _ => []

/-- The books of the values that callbacks return. -/
def valueAccounts (V : Type) : Accounts (Event V) V :=
  nodeAccounts TFNode.value (fun value => [value])

namespace TFParser

variable {σ V α : Type}

/-- What the cells of a stack hold. -/
def heldBy
    (read : TFNode V → Option α)
    (cells : List (TFCell V)) :
    List α :=
  cells.filterMap (fun cell => read cell.node)

@[simp] theorem heldBy_append
    (read : TFNode V → Option α)
    (first second : List (TFCell V)) :
    heldBy read (first ++ second) =
      heldBy read first ++ heldBy read second := by
  simp [heldBy]

@[simp] theorem heldBy_singleton
    (read : TFNode V → Option α)
    (cell : TFCell V) :
    heldBy read [cell] = (read cell.node).toList := by
  simp [heldBy, List.filterMap_cons]
  cases read cell.node <;> rfl

/-- Giving cells another state changes nothing they hold. -/
@[simp] theorem heldBy_map_state
    (read : TFNode V → Option α)
    (cells : List (TFCell V))
    (state : TSStateId) :
    heldBy read (cells.map (fun cell => { cell with state := state })) =
      heldBy read cells := by
  simp [heldBy, List.filterMap_map]

/-- The children of a reduction hold what their cells do. -/
theorem filterMap_children
    (read : TFNode V → Option α)
    (cells : List (TFCell V)) :
    (cells.map TFCell.node).filterMap read = heldBy read cells := by
  simp [heldBy, List.filterMap_map]

/-- Only what a callback is made for counts. -/
structure Counts
    (sink : TFSink σ V)
    (read : TFNode V → Option α) : Prop where
  reduces : sink.onReduce.isSome = true
  silent :
    sink.onShift.isSome = false →
      ∀ (token : TFToken) (extra : Bool), read (token.node extra none) = none

section Operations

variable {sink : TFSink σ V}
variable {lang : TFLanguage}
variable {read : TFNode V → Option α}
variable {returned : V → List α}
variable {before after : TFParser σ V}
variable {held : List α}

/-- Handing a token over issues what counts of its node. -/
theorem Counts.callShift
    (counts : Counts sink read)
    {log : List (Event V)}
    (balanced : Balanced (nodeAccounts read returned) log held)
    (token : TFToken)
    (extra : Bool)
    (payload : σ)
    (heap : Heap) :
    let answer := sink.callShift token extra payload heap
    Balanced (nodeAccounts read returned)
      (log ++ sink.shiftEvents token extra answer.1)
      (held ++ (read (token.node extra answer.1)).toList) := by
  intro answer
  cases present : sink.onShift with
  | none =>
      have nothing :=
        counts.silent (by simp [present]) token extra
      have answered : answer.1 = none := by
        simp [answer, TFSink.callShift, present]
      simpa [TFSink.shiftEvents, present, answered, nothing] using balanced
  | some onShift =>
      have logged :
          sink.shiftEvents token extra answer.1 =
            [.shift token extra answer.1] := by
        simp [TFSink.shiftEvents, present]
      rw [logged]
      refine balanced.record _
        (show List.Perm held (_ ++ held) from ?_) ?_
      · exact .refl _
      · exact List.perm_append_comm

/-- A reduction takes what its children hold and issues its own. -/
theorem Counts.callReduce
    (counts : Counts sink read)
    {log : List (Event V)}
    (reduction : TFReduction V)
    {rest : List α}
    (balanced :
      Balanced (nodeAccounts read returned) log
        (reduction.children.filterMap read ++ rest))
    (value : Option V) :
    Balanced (nodeAccounts read returned)
      (log ++ sink.reduceEvents reduction value)
      ((read (parentNode reduction value)).toList ++ rest) := by
  have logged :
      sink.reduceEvents reduction value = [.reduce reduction value] := by
    simp [TFSink.reduceEvents, counts.reduces]
  rw [logged]
  exact balanced.record _ (.refl _) (.refl _)

/-- What the cells hold, with the children counted first. -/
theorem heldBy_cut
    {cells : List (TFCell V)}
    {childCount : Nat}
    {cut : Popped V}
    (cuts : popped cells childCount = some cut) :
    List.Perm (heldBy read cells)
      ((cut.children.map TFCell.node).filterMap read ++
        (heldBy read cut.below ++ heldBy read cut.trailing)) := by
  rw [filterMap_children, cells_of_popped cuts, heldBy_append,
    heldBy_append, ← List.append_assoc]
  exact List.perm_append_comm.append_right _

/-- What the cells hold after a reduction, with the parent counted first. -/
theorem heldBy_placed
    (cut : Popped V)
    (parent : TFNode V)
    (state : TSStateId) :
    List.Perm (heldBy read (RawStack.placed cut parent state))
      ((read parent).toList ++
        (heldBy read cut.below ++ heldBy read cut.trailing)) := by
  unfold RawStack.placed
  rw [heldBy_append, heldBy_append, heldBy_singleton, heldBy_map_state,
    ← List.append_assoc]
  exact List.perm_append_comm.append_right _

/-- A shift keeps the books balanced with what the cells hold. -/
theorem Counts.shift
    (counts : Counts sink read)
    (balanced :
      Balanced (nodeAccounts read returned) before.events
        (heldBy read before.cells))
    {token : TFToken}
    {extra : Bool}
    {state : TSStateId}
    (shifted : before.shift sink token extra state = (true, after)) :
    Balanced (nodeAccounts read returned) after.events
      (heldBy read after.cells) := by
  have called :=
    counts.callShift balanced token extra before.payload before.heap
  rcases before.shift_cases sink token extra state with
    ⟨heap, capacity, _, _, well⟩ | ⟨heap, failed⟩
  · rw [(Prod.mk.inj (shifted.symm.trans well)).2]
    simpa using called
  · cases (Prod.mk.inj (shifted.symm.trans failed)).1

/-- A shift whose push fails leaves what the sink returned with nobody. -/
theorem Counts.shiftFailed
    (counts : Counts sink read)
    (balanced :
      Balanced (nodeAccounts read returned) before.events
        (heldBy read before.cells))
    {token : TFToken}
    {extra : Bool}
    {state : TSStateId}
    (shifted : before.shift sink token extra state = (false, after)) :
    ∃ value,
      after.cells = before.cells ∧
        after.events =
          before.events ++ sink.shiftEvents token extra value ++
            [.growthFailed true] ∧
        Balanced (nodeAccounts read returned) after.events
          (heldBy read after.cells ++
            (read (token.node extra value)).toList) := by
  have called :=
    counts.callShift balanced token extra before.payload before.heap
  rcases before.shift_cases sink token extra state with
    ⟨heap, capacity, _, _, well⟩ | ⟨heap, failed⟩
  · cases (Prod.mk.inj (shifted.symm.trans well)).1
  · rw [(Prod.mk.inj (shifted.symm.trans failed)).2]
    exact ⟨_, rfl, rfl, called.idle _ rfl rfl⟩

/-- A reduction other than the root's keeps the books balanced. -/
theorem Counts.reduceInner
    (counts : Counts sink read)
    (balanced :
      Balanced (nodeAccounts read returned) before.events
        (heldBy read before.cells))
    {cut : Popped V}
    {symbol : TSSymbol}
    {childCount productionId : Nat}
    (cuts : popped before.cells childCount = some cut)
    (inner :
      InnerReduction sink lang before cut symbol childCount productionId
        true after) :
    Balanced (nodeAccounts read returned) after.events
      (heldBy read after.cells) := by
  obtain ⟨heap, capacity, _, ⟨_, _, same⟩ | ⟨failed, _⟩⟩ := inner.done
  · have children := balanced.reorder (heldBy_cut cuts)
    rw [same]
    exact (counts.callReduce _ children _).reorder
      (heldBy_placed cut _ _).symm
  · cases failed

/-- An empty production whose cell finds no room leaves its value with nobody. -/
theorem Counts.reduceInnerFailed
    (counts : Counts sink read)
    (balanced :
      Balanced (nodeAccounts read returned) before.events
        (heldBy read before.cells))
    {cut : Popped V}
    {symbol : TSSymbol}
    {childCount productionId : Nat}
    (inner :
      InnerReduction sink lang before cut symbol childCount productionId
        false after) :
    ∃ reduction value,
      after.cells = before.cells ∧
        after.events =
          before.events ++ [.reduce reduction value] ++
            [.growthFailed true] ∧
        Balanced (nodeAccounts read returned) after.events
          (heldBy read after.cells ++
            (read (parentNode reduction value)).toList) := by
  obtain ⟨heap, capacity, _, ⟨well, _⟩ | ⟨_, empty, _, same⟩⟩ :=
    inner.done
  · cases well
  · have noChildren :
        (reductionOf before.cells cut.children symbol childCount
          productionId).children.filterMap read = [] := by
      simp [reductionOf, empty]
    have called :=
      counts.callReduce
        (reductionOf before.cells cut.children symbol childCount
          productionId)
        (show Balanced (nodeAccounts read returned) before.events
            (_ ++ heldBy read before.cells) by
          rw [noChildren]
          exact balanced)
    have logged :
        ∀ reduction value,
          sink.reduceEvents reduction value =
            [.reduce reduction value] := by
      intro reduction value
      simp [TFSink.reduceEvents, counts.reduces]
    simp only [logged] at called same
    rw [same]
    exact ⟨_, _, rfl, rfl,
      ((called _).idle _ rfl rfl).reorder List.perm_append_comm⟩

/-- The root's reduction takes what every cell holds, and the end token's. -/
theorem Counts.reduceRoot
    (counts : Counts sink read)
    (balanced :
      Balanced (nodeAccounts read returned) before.events
        (heldBy read before.cells))
    {cut : Popped V}
    {symbol : TSSymbol}
    {childCount productionId : Nat}
    {token : TFToken}
    (root :
      RootReduction sink lang before cut symbol childCount productionId
        token true after) :
    ∃ earlier reduction value,
      after.events = earlier ++ [.reduce reduction value] ∧
        (after.cells[after.leading]?).map (fun cell => cell.node.value) =
          some value ∧
        Balanced (nodeAccounts read returned) after.events
          (read (parentNode reduction value)).toList := by
  obtain ⟨heap, capacity, _, ⟨_, _, heapBefore, same⟩ | ⟨failed, _⟩⟩ :=
    root.done
  · have ended :=
      counts.callShift balanced token true before.payload heapBefore
    have logged :
        ∀ reduction value,
          sink.reduceEvents reduction value =
            [.reduce reduction value] := by
      intro reduction value
      simp [TFSink.reduceEvents, counts.reduces]
    simp only [logged] at same
    refine ⟨_, _, _, by rw [same], ?_, ?_⟩
    · rw [same]
      simp [RawStack.placed, ← root.bottom, parentNode]
    · have children :
          ∀ value,
            (rootReduction before.cells
                (reductionOf before.cells cut.children symbol childCount
                  productionId) token value).children.filterMap read =
              heldBy read before.cells ++
                (read (token.node true value)).toList := by
        intro value
        rw [← heldBy_singleton read ⟨token.node true value, 0⟩,
          ← heldBy_append, ← filterMap_children]
        simp [rootReduction]
      have called :=
        counts.callReduce
          (rootReduction before.cells
            (reductionOf before.cells cut.children symbol childCount
              productionId) token
            (sink.callShift token true before.payload heapBefore).1)
          (show Balanced (nodeAccounts read returned) _ (_ ++ []) by
            rw [children, List.append_nil]
            exact ended)
      simp only [logged, List.append_nil] at called
      rw [same]
      exact called _
  · cases failed

/-- Once the root is emitted, only its value is held. -/
def RootHeld
    (read : TFNode V → Option α)
    (returned : V → List α)
    (parser : TFParser σ V) : Prop :=
  ∃ earlier reduction value,
    parser.events = earlier ++ [.reduce reduction value] ∧
      (parser.cells[parser.leading]?).map (fun cell => cell.node.value) =
        some value ∧
      Balanced (nodeAccounts read returned) parser.events
        (read (parentNode reduction value)).toList

/-- Along a trace the books balance with what the cells hold. -/
theorem Counts.trace
    (counts : Counts sink read)
    {first last : TFParser σ V}
    (ready : Ready first)
    (noCells : first.cells = [])
    (noEvents : first.events = [])
    (trace : Trace sink lang first last) :
    (Ready last ∧
        Balanced (nodeAccounts read returned) last.events
          (heldBy read last.cells)) ∨
      (last.rootEmitted = true ∧ RootHeld read returned last) := by
  refine
    trace.rule
      (fun parser =>
        Balanced (nodeAccounts read returned) parser.events
          (heldBy read parser.cells))
      (RootHeld read returned) ready ?_ ?_ ?_ ?_ ?_ ?_
  · rw [noCells, noEvents]
    exact .empty
  · intro before after balanced same
    rw [same.cells, same.events]
    exact balanced
  · intro before after held same
    unfold RootHeld
    rw [same.cells, same.events, same.leading]
    exact held
  · intro before after token extra state _ balanced shifted
    exact counts.shift balanced shifted
  · intro before after cut symbol childCount productionId _ balanced cuts
      inner
    exact counts.reduceInner balanced cuts inner
  · intro before after cut symbol childCount productionId token _ balanced
      _ root
    exact counts.reduceRoot balanced root

/-- No failure to grow is in the log. -/
def NeverFull (parser : TFParser σ V) : Prop :=
  ∀ answered, Event.growthFailed answered ∉ parser.events

/-- Calls of the sink are no failures to grow. -/
theorem growthFailed_not_mem_calls
    (sink : TFSink σ V)
    (token : TFToken)
    (extra : Bool)
    (reduction : TFReduction V)
    (value value' : Option V)
    (answered : Bool) :
    Event.growthFailed answered ∉ sink.shiftEvents token extra value ∧
      Event.growthFailed answered ∉
        sink.reduceEvents reduction value' := by
  unfold TFSink.shiftEvents TFSink.reduceEvents
  constructor
  · split <;> simp
  · split <;> simp

/-- A trace logs no failure to grow. -/
theorem Trace.neverFull
    {first last : TFParser σ V}
    (ready : Ready first)
    (noEvents : first.events = [])
    (trace : Trace sink lang first last) :
    NeverFull last := by
  have calls := growthFailed_not_mem_calls sink
  have always :=
    trace.rule NeverFull NeverFull ready
      (by
        simp [NeverFull, noEvents])
      (by
        intro before after holds same
        simpa [NeverFull, same.events] using holds)
      (by
        intro before after holds same
        simpa [NeverFull, same.events] using holds)
      (by
        intro before after token extra state _ holds shifted answered
        rcases before.shift_cases sink token extra state with
          ⟨heap, capacity, _, _, well⟩ | ⟨heap, failed⟩
        · rw [(Prod.mk.inj (shifted.symm.trans well)).2]
          simp only [List.mem_append, not_or]
          exact ⟨holds answered, (calls _ _ default _ none _).1⟩
        · cases (Prod.mk.inj (shifted.symm.trans failed)).1)
      (by
        intro before after cut symbol childCount productionId _ holds _
          inner answered
        obtain ⟨_, _, _, ⟨_, _, same⟩ | ⟨failed, _⟩⟩ := inner.done
        · rw [same]
          simp only [List.mem_append, not_or]
          exact ⟨holds answered, (calls default false _ none _ _).2⟩
        · cases failed)
      (by
        intro before after cut symbol childCount productionId token _
          holds _ root answered
        obtain ⟨_, _, _, ⟨_, _, _, same⟩ | ⟨failed, _⟩⟩ := root.done
        · rw [same]
          simp only [List.mem_append, not_or]
          exact ⟨⟨holds answered, (calls _ _ default _ none _).1⟩,
            (calls default false _ none _ _).2⟩
        · cases failed)
  rcases always with ⟨_, holds⟩ | ⟨_, holds⟩
  · exact holds
  · exact holds

end Operations

/-! ## Giving values back -/

/-- A failed parse gives back what its cells hold, in order. -/
theorem events_discardAll
    {sink : TFSink σ V}
    {onDiscard : V → σ → σ}
    (discards : sink.onDiscard = some onDiscard)
    (self : TFParser σ V) :
    (self.discardAll sink).events =
      self.events ++ (heldBy TFNode.value self.cells).map .discard := by
  unfold discardAll
  rw [discards]
  dsimp only
  generalize self.cells = cells
  induction cells generalizing self with
  | nil =>
      simp [heldBy]
  | cons cell rest inductionHypothesis =>
      rw [List.foldl_cons, inductionHypothesis]
      cases value : cell.node.value with
      | none =>
          simp [heldBy, value]
      | some held =>
          simp [heldBy, value]

/-- Giving values back keeps the books balanced with what is left. -/
theorem balanced_discards
    {log : List (Event V)}
    {held left : List V}
    (balanced : Balanced (valueAccounts V) log (held ++ left)) :
    Balanced (valueAccounts V) (log ++ held.map .discard) left := by
  induction held generalizing log with
  | nil =>
      simpa using balanced
  | cons value rest inductionHypothesis =>
      have given :
          Balanced (valueAccounts V) (log ++ [.discard value])
            (rest ++ left) :=
        balanced.record _ (.refl _) (.refl _)
      simpa using inductionHypothesis given

end TFParser

end TreeFeller
