import TreeFeller.Extras
import TreeFeller.StackEnds
import TreeFeller.Traces

namespace TreeFeller

open StatefulProgram

/-!
# The real stack under a split

The driver's stack is one of LR cells wherever a split can begin.  Shifts and
reductions keep it so, and so does the replay of what a split is left with: its
leaves lie beyond the stack, one behind the other, and each of its parents has
children.
-/

namespace TFParser

variable {V : Type}

/-! ### Cells over a state and a byte -/

/-- The byte above some cells. -/
def beyond (byte : Nat) (cells : List (TFCell V)) : Nat :=
  (cells.getLast?.map (fun cell => cell.node.endByte)).getD byte

@[simp] theorem beyond_cons
    (byte : Nat)
    (cell : TFCell V)
    (rest : List (TFCell V)) :
    beyond byte (cell :: rest) = beyond cell.node.endByte rest := by
  cases rest with
  | nil =>
      rfl
  | cons next rest =>
      unfold beyond
      rw [List.getLast?_cons_cons]
      simp [List.getLast?_cons]

@[simp] theorem beyond_append
    (byte : Nat)
    (front back : List (TFCell V)) :
    beyond byte (front ++ back) = beyond (beyond byte front) back := by
  induction front generalizing byte with
  | nil =>
      rfl
  | cons cell rest inductionHypothesis =>
      rw [List.cons_append, beyond_cons, beyond_cons]
      exact inductionHypothesis cell.node.endByte

/-- Cells that were pushed one on another, from a state and a byte on. -/
inductive Piled (lang : TFLanguage) :
    TSStateId → Nat → List (TFCell V) → Prop where
  | nil {state : TSStateId} {byte : Nat} : Piled lang state byte []
  | cons
      {state : TSStateId}
      {byte : Nat}
      {cell : TFCell V}
      {rest : List (TFCell V)}
      (isState :
        cell.state =
          if cell.node.extra then
            state
          else
            lang.nextState state cell.node.symbol)
      (spans : byte < cell.node.endByte)
      (later : Piled lang cell.state cell.node.endByte rest) :
      Piled lang state byte (cell :: rest)

namespace Piled

variable {lang : TFLanguage}
variable {state : TSStateId}
variable {byte : Nat}
variable {cells front back : List (TFCell V)}

/-- The upper cells are piled on the lower ones. -/
theorem append_iff :
    Piled lang state byte (front ++ back) ↔
      Piled lang state byte front ∧
        Piled lang (above state front) (beyond byte front) back := by
  induction front generalizing state byte with
  | nil =>
      exact ⟨fun piled => ⟨.nil, piled⟩, fun both => both.2⟩
  | cons cell rest inductionHypothesis =>
      constructor
      · intro piled
        cases piled with
        | cons isState spans later =>
            obtain ⟨lower, upper⟩ := inductionHypothesis.mp later
            rw [beyond_cons]
            exact ⟨.cons isState spans lower, upper⟩
      · rintro ⟨lower, upper⟩
        rw [beyond_cons] at upper
        cases lower with
        | cons isState spans later =>
            exact .cons isState spans (inductionHypothesis.mpr ⟨later, upper⟩)

/-- A stack of piled cells is one of LR cells. -/
theorem lrStack
    (piled : Piled lang startState 0 cells) :
    LrStack lang cells := by
  have each :
      ∀ (index : Nat) (cell : TFCell V), cells[index]? = some cell →
        cell.state =
            (if cell.node.extra then
              stateAt cells index
            else
              lang.nextState (stateAt cells index) cell.node.symbol) ∧
          topByte (cells.take index) < cell.node.endByte := by
    intro index cell isCell
    obtain ⟨inRange, same⟩ := List.getElem?_eq_some_iff.mp isCell
    have parts :
        cells.take index ++ cell :: cells.drop (index + 1) = cells := by
      rw [← same, List.getElem_cons_drop, List.take_append_drop]
    have isBelow :
        stateAt cells index = above startState (cells.take index) := by
      have below := stateAt_below (cells.take index)
        (cell :: cells.drop (index + 1))
      rw [parts, List.length_take,
        Nat.min_eq_left (Nat.le_of_lt inRange)] at below
      exact below
    rw [← parts, append_iff] at piled
    cases piled.2 with
    | cons isState spans _ =>
        rw [isBelow]
        exact ⟨isState, spans⟩
  exact ⟨fun index cell isCell => (each index cell isCell).1,
    fun index cell isCell => (each index cell isCell).2⟩

/-- Cells stay piled without their values. -/
theorem forget
    (piled : Piled lang state byte cells) :
    Piled lang state byte (cells.map TFCell.forget) := by
  induction piled with
  | nil =>
      exact .nil
  | cons isState spans _ inductionHypothesis =>
      exact .cons isState spans inductionHypothesis

/-- A cell pushed into the state over the top of a stack. -/
theorem push
    (piled : Piled lang startState 0 cells)
    {cell : TFCell V}
    (isState :
      cell.state =
        if cell.node.extra then
          topState cells
        else
          lang.nextState (topState cells) cell.node.symbol)
    (spans : topByte cells < cell.node.endByte) :
    Piled lang startState 0 (cells ++ [cell]) := by
  rw [topState_eq_above] at isState
  exact append_iff.mpr ⟨piled, .cons isState spans .nil⟩

/-- Extras may be piled on another state. -/
theorem extras
    (piled : Piled lang state byte cells)
    (areExtras : ∀ cell ∈ cells, cell.node.extra = true)
    (other : TSStateId) :
    Piled lang other byte
      (cells.map (fun cell => { cell with state := other })) := by
  induction piled with
  | nil =>
      exact .nil
  | @cons state byte cell rest _ spans _ inductionHypothesis =>
      refine .cons ?_ spans (inductionHypothesis
        (fun cell member => areExtras cell (List.mem_cons_of_mem _ member)))
      rw [if_pos (areExtras cell (List.mem_cons_self ..))]

end Piled

/-- Extras in another state end where they did. -/
theorem beyond_extras
    (byte : Nat)
    (cells : List (TFCell V))
    (state : TSStateId) :
    beyond byte (cells.map (fun cell => { cell with state := state })) =
      beyond byte cells := by
  induction cells generalizing byte with
  | nil =>
      rfl
  | cons cell rest inductionHypothesis =>
      rw [List.map_cons, beyond_cons, beyond_cons]
      exact inductionHypothesis cell.node.endByte

/-- A reduction of some children takes some cells. -/
theorem children_of_popped
    {cells : List (TFCell V)}
    {childCount : Nat}
    {cut : Popped V}
    (cuts : popped cells childCount = some cut)
    (positive : 0 < childCount) :
    cut.children ≠ [] := by
  cases popped_eq_some_iff.mp cuts with
  | empty =>
      exact absurd positive (Nat.lt_irrefl 0)
  | single _ _ _ =>
      exact List.cons_ne_nil _ _
  | several _ _ _ _ =>
      exact List.cons_ne_nil _ _

/-- A reduction leaves a stack of LR cells, which ends where it did. -/
theorem Piled.placed
    {lang : TFLanguage}
    {cells : List (TFCell V)}
    {cut : Popped V}
    {symbol : TSSymbol}
    {childCount productionId : Nat}
    {value : Option V}
    (piled : Piled lang startState 0 cells)
    (cuts : popped cells childCount = some cut)
    (positive : 0 < childCount) :
    let own := reductionOf cells cut.children symbol childCount productionId
    let after :=
      RawStack.placed cut (parentNode own value)
        (reducedState lang cells cut symbol)
    Piled lang startState 0 after ∧ topByte after = topByte cells := by
  intro own after
  have parts := cells_of_popped cuts
  have areExtras := extra_of_popped cuts
  have some_ := children_of_popped cuts positive
  let state := reducedState lang cells cut symbol
  have isState :
      state = lang.nextState (above startState cut.below) symbol := by
    have below := stateAt_below cut.below (cut.children ++ cut.trailing)
    rw [← List.append_assoc, ← parts] at below
    exact congrArg (fun state => lang.nextState state symbol) below
  have ends_ : ∀ byte, own.endByte = beyond byte cut.children := by
    intro byte
    obtain ⟨last, isLast⟩ :=
      Option.isSome_iff_exists.mp (List.getLast?_isSome.mpr some_)
    change
      (((cut.children.map TFCell.node).getLast?.map
        TFNode.endByte)).getD (topByte cells) = _
    unfold beyond
    rw [List.getLast?_map, isLast]
    rfl
  have piledParts := piled
  rw [parts, Piled.append_iff, Piled.append_iff] at piledParts
  obtain ⟨⟨below, children⟩, trailing⟩ := piledParts
  rw [beyond_append, ← ends_] at trailing
  have rises :
      ∀ {state : TSStateId} {byte : Nat} {cells : List (TFCell V)},
        Piled lang state byte cells → byte ≤ beyond byte cells := by
    intro state byte cells piled
    induction piled with
    | nil =>
        exact Nat.le_refl _
    | cons _ spans _ inductionHypothesis =>
        rw [beyond_cons]
        exact Nat.le_trans (Nat.le_of_lt spans) inductionHypothesis
  have spans : beyond 0 cut.below < own.endByte := by
    rw [ends_ (beyond 0 cut.below)]
    cases isChildren : cut.children with
    | nil =>
        exact absurd isChildren some_
    | cons first rest =>
        rw [isChildren] at children
        cases children with
        | cons _ spans later =>
            rw [beyond_cons]
            exact Nat.lt_of_lt_of_le spans (rises later)
  have lower :
      Piled lang startState 0
        (cut.below ++ [(⟨parentNode own value, state⟩ : TFCell V)]) :=
    Piled.append_iff.mpr ⟨below, .cons isState spans .nil⟩
  refine ⟨Piled.append_iff.mpr ⟨lower, ?_⟩, ?_⟩
  · rw [above_append, beyond_append]
    exact trailing.extras areExtras state
  · change
      beyond 0
        (cut.below ++ [(⟨parentNode own value, state⟩ : TFCell V)] ++
          cut.trailing.map (fun cell => { cell with state := state })) =
        beyond 0 cells
    rw [beyond_append, beyond_append, beyond_extras, parts, beyond_append,
      beyond_append, ← ends_]
    rfl

end TFParser

end TreeFeller
