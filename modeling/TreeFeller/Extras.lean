import TreeFeller.Cuts
import TreeFeller.Raw
import TreeFeller.Settling

namespace TreeFeller

/-!
# Stacks with extras put in

Two stacks that differ by extras only: the same cells in the same states, with
more extras between them, each in the state of the cell below it.  A reduction
cuts both in corresponding places.
-/

/-! ## Trees, nodes and cells -/

mutual

/-- A tree, and the same tree with tokens put in as extras. -/
inductive RawTree.Woven (inserted : TFToken → Prop) :
    RawTree → RawTree → Prop where
  | token
      {first second : TFToken}
      {extra : Bool}
      (symbol : first.symbol = second.symbol) :
      RawTree.Woven inserted (.token first extra) (.token second extra)
  | rule
      {first second : TFToken}
      {productionId : Nat}
      {children children' : List RawTree}
      (symbol : first.symbol = second.symbol)
      (woven : RawTree.WovenAll inserted children children') :
      RawTree.Woven inserted
        (.rule first productionId children)
        (.rule second productionId children')

/-- Children, and the same children with tokens put in as extras. -/
inductive RawTree.WovenAll (inserted : TFToken → Prop) :
    List RawTree → List RawTree → Prop where
  | nil : RawTree.WovenAll inserted [] []
  | keep
      {tree tree' : RawTree}
      {trees trees' : List RawTree}
      (same : RawTree.Woven inserted tree tree')
      (rest : RawTree.WovenAll inserted trees trees') :
      RawTree.WovenAll inserted (tree :: trees) (tree' :: trees')
  | added
      {token : TFToken}
      {trees trees' : List RawTree}
      (known : inserted token)
      (rest : RawTree.WovenAll inserted trees trees') :
      RawTree.WovenAll inserted trees (.token token true :: trees')

end

/-- A tree keeps its kind. -/
theorem RawTree.Woven.extra
    {inserted : TFToken → Prop}
    {tree tree' : RawTree}
    (woven : tree.Woven inserted tree') :
    tree'.extra = tree.extra := by
  cases woven with
  | token symbol =>
      rfl
  | rule symbol children =>
      rfl

/-- The children that are not extras correspond one to one. -/
theorem RawTree.WovenAll.structural
    {inserted : TFToken → Prop}
    {trees trees' : List RawTree}
    (woven : RawTree.WovenAll inserted trees trees') :
    List.Forall₂ (RawTree.Woven inserted)
      (trees.filter (fun tree => !tree.extra))
      (trees'.filter (fun tree => !tree.extra)) := by
  induction trees' generalizing trees with
  | nil =>
      cases woven with
      | nil =>
          exact .nil
  | cons tree' rest inductionHypothesis =>
      cases woven with
      | @keep tree _ _ _ same later =>
          have tail := inductionHypothesis later
          rw [List.filter_cons, List.filter_cons, same.extra]
          split
          · exact .cons same tail
          · exact tail
      | added known later =>
          exact inductionHypothesis later

/-- A node and its counterpart, whose values are trees. -/
structure NodeWoven
    (inserted : TFToken → Prop)
    (node node' : TFNode RawTree) : Prop where
  symbol : node'.symbol = node.symbol
  extra : node'.extra = node.extra
  trees :
    ∃ tree tree', node.value = some tree ∧ node'.value = some tree' ∧
      tree.Woven inserted tree'

/-- Nodes, and the same nodes with tokens put in as extras. -/
inductive NodesWoven (inserted : TFToken → Prop) :
    List (TFNode RawTree) → List (TFNode RawTree) → Prop where
  | nil : NodesWoven inserted [] []
  | keep
      {node node' : TFNode RawTree}
      {nodes nodes' : List (TFNode RawTree)}
      (same : NodeWoven inserted node node')
      (rest : NodesWoven inserted nodes nodes') :
      NodesWoven inserted (node :: nodes) (node' :: nodes')
  | added
      {token : TFToken}
      {nodes nodes' : List (TFNode RawTree)}
      (known : inserted token)
      (rest : NodesWoven inserted nodes nodes') :
      NodesWoven inserted nodes
        (token.node true (some (.token token true)) :: nodes')

namespace NodesWoven

variable {inserted : TFToken → Prop}
variable {nodes nodes' more more' : List (TFNode RawTree)}

/-- The trees of woven nodes are woven. -/
theorem trees
    (woven : NodesWoven inserted nodes nodes') :
    RawTree.WovenAll inserted
      (nodes.filterMap TFNode.value) (nodes'.filterMap TFNode.value) := by
  induction woven with
  | nil =>
      exact .nil
  | keep same rest inductionHypothesis =>
      obtain ⟨tree, tree', isTree, isTree', treesWoven⟩ := same.trees
      rw [List.filterMap_cons_some isTree, List.filterMap_cons_some isTree']
      exact .keep treesWoven inductionHypothesis
  | added known rest inductionHypothesis =>
      exact .added known inductionHypothesis

/-- Weaving goes along lists. -/
theorem append
    (woven : NodesWoven inserted nodes nodes')
    (moreWoven : NodesWoven inserted more more') :
    NodesWoven inserted (nodes ++ more) (nodes' ++ more') := by
  induction woven with
  | nil =>
      exact moreWoven
  | keep same rest inductionHypothesis =>
      exact .keep same inductionHypothesis
  | added known rest inductionHypothesis =>
      exact .added known inductionHypothesis

end NodesWoven

namespace TFParser

/-- The state above some cells. -/
def above {V : Type} : TSStateId → List (TFCell V) → TSStateId
  | state, [] => state
  | _, cell :: rest => above cell.state rest

@[simp] theorem above_append {V : Type}
    (state : TSStateId)
    (first second : List (TFCell V)) :
    above state (first ++ second) = above (above state first) second := by
  induction first generalizing state with
  | nil =>
      rfl
  | cons cell rest inductionHypothesis =>
      exact inductionHypothesis cell.state

/-- The state above the lower cells of a stack. -/
theorem stateAt_below {V : Type}
    (below rest : List (TFCell V)) :
    stateAt (below ++ rest) below.length = above startState below := by
  induction below using List.reverseRecOn with
  | nil =>
      rfl
  | append_singleton front cell _ =>
      rw [above_append]
      simp [stateAt, above]

/-- The state on top of a stack. -/
theorem topState_eq_above {V : Type}
    (cells : List (TFCell V)) :
    topState cells = above startState cells := by
  have whole := stateAt_below cells []
  rw [List.append_nil] at whole
  exact whole

/-- Cells above a state, and the same cells with extras put in. -/
inductive CellsWoven (inserted : TFToken → Prop) :
    TSStateId → List (TFCell RawTree) → List (TFCell RawTree) → Prop where
  | nil {state : TSStateId} : CellsWoven inserted state [] []
  | keep
      {state : TSStateId}
      {cell cell' : TFCell RawTree}
      {cells cells' : List (TFCell RawTree)}
      (same : NodeWoven inserted cell.node cell'.node)
      (sameState : cell'.state = cell.state)
      (rest : CellsWoven inserted cell.state cells cells') :
      CellsWoven inserted state (cell :: cells) (cell' :: cells')
  | added
      {state : TSStateId}
      {token : TFToken}
      {cells cells' : List (TFCell RawTree)}
      (known : inserted token)
      (rest : CellsWoven inserted state cells cells') :
      CellsWoven inserted state cells
        (⟨token.node true (some (.token token true)), state⟩ :: cells')

namespace CellsWoven

variable {inserted : TFToken → Prop}
variable {state : TSStateId}
variable {cells cells' more more' : List (TFCell RawTree)}

/-- Both stacks end in the same state. -/
theorem above_eq
    (woven : CellsWoven inserted state cells cells') :
    above state cells' = above state cells := by
  induction woven with
  | nil =>
      rfl
  | keep same sameState rest inductionHypothesis =>
      unfold above
      rw [sameState]
      exact inductionHypothesis
  | added known rest inductionHypothesis =>
      exact inductionHypothesis

/-- The nodes of woven cells are woven. -/
theorem nodes
    (woven : CellsWoven inserted state cells cells') :
    NodesWoven inserted (cells.map TFCell.node)
      (cells'.map TFCell.node) := by
  induction woven with
  | nil =>
      exact .nil
  | keep same sameState rest inductionHypothesis =>
      exact .keep same inductionHypothesis
  | added known rest inductionHypothesis =>
      exact .added known inductionHypothesis

/-- Weaving goes along stacks. -/
theorem append
    (woven : CellsWoven inserted state cells cells')
    (moreWoven : CellsWoven inserted (above state cells) more more') :
    CellsWoven inserted state (cells ++ more) (cells' ++ more') := by
  induction woven with
  | nil =>
      exact moreWoven
  | keep same sameState rest inductionHypothesis =>
      exact .keep same sameState (inductionHypothesis moreWoven)
  | added known rest inductionHypothesis =>
      exact .added known (inductionHypothesis moreWoven)

/-- All are extras in one stack if they are in the other. -/
theorem allExtra_iff
    (woven : CellsWoven inserted state cells cells') :
    AllExtra cells' ↔ AllExtra cells := by
  induction woven with
  | nil =>
      exact Iff.rfl
  | keep same sameState rest inductionHypothesis =>
      unfold AllExtra at inductionHypothesis ⊢
      simp only [List.forall_mem_cons, same.extra, inductionHypothesis]
  | added known rest inductionHypothesis =>
      unfold AllExtra at inductionHypothesis ⊢
      simp only [List.forall_mem_cons, inductionHypothesis]
      exact ⟨fun both => both.2, fun others => ⟨rfl, others⟩⟩

/-- As many cells are not extras. -/
theorem structural_eq
    (woven : CellsWoven inserted state cells cells') :
    structural cells' = structural cells := by
  induction woven with
  | nil =>
      rfl
  | keep same sameState rest inductionHypothesis =>
      unfold structural at inductionHypothesis ⊢
      rw [List.countP_cons, List.countP_cons, inductionHypothesis,
        same.extra]
  | added known rest inductionHypothesis =>
      unfold structural at inductionHypothesis ⊢
      rw [List.countP_cons, inductionHypothesis]
      rfl

/-- Woven stacks come apart at any cell of the first. -/
theorem split
    {below rest : List (TFCell RawTree)}
    {cell : TFCell RawTree}
    (woven : CellsWoven inserted state (below ++ cell :: rest) cells') :
    ∃ below' cell' rest',
      cells' = below' ++ cell' :: rest' ∧
        CellsWoven inserted state below below' ∧
        NodeWoven inserted cell.node cell'.node ∧
        cell'.state = cell.state ∧
        CellsWoven inserted cell.state rest rest' := by
  induction cells' generalizing state below with
  | nil =>
      cases below with
      | nil =>
          cases woven
      | cons first others =>
          cases woven
  | cons first others inductionHypothesis =>
      generalize whole : below ++ cell :: rest = cells at woven
      cases woven with
      | @keep _ kept _ remaining _ same sameState later =>
          cases below with
          | nil =>
              cases whole
              exact ⟨[], first, others, rfl, .nil, same, sameState, later⟩
          | cons lowest upper =>
              cases whole
              obtain ⟨below', cell', rest', parts, belowWoven, sameNode,
                  sameCell, restWoven⟩ :=
                inductionHypothesis later
              exact ⟨first :: below', cell', rest', by rw [parts]; rfl,
                .keep same sameState belowWoven, sameNode, sameCell,
                restWoven⟩
      | added known later =>
          subst whole
          obtain ⟨below', cell', rest', parts, belowWoven, sameNode,
              sameCell, restWoven⟩ :=
            inductionHypothesis later
          exact ⟨_ :: below', cell', rest', by rw [parts]; rfl,
            .added known belowWoven, sameNode, sameCell, restWoven⟩

/-- Extras above a parent are woven in its state. -/
theorem restated
    (woven : CellsWoven inserted state cells cells')
    (next : TSStateId) :
    CellsWoven inserted next
      (cells.map (fun cell => { cell with state := next }))
      (cells'.map (fun cell => { cell with state := next })) := by
  induction woven with
  | nil =>
      exact .nil
  | keep same sameState rest inductionHypothesis =>
      exact .keep same rfl inductionHypothesis
  | added known rest inductionHypothesis =>
      exact .added known inductionHypothesis

end CellsWoven

/-- The parts of two cuts correspond. -/
structure CutsWoven
    (inserted : TFToken → Prop)
    (cut cut' : Popped RawTree) : Prop where
  below : CellsWoven inserted startState cut.below cut'.below
  children :
    NodesWoven inserted (cut.children.map TFCell.node)
      (cut'.children.map TFCell.node)
  trailing :
    ∃ state, CellsWoven inserted state cut.trailing cut'.trailing

/-- A reduction cuts woven stacks in corresponding places. -/
theorem CellsWoven.cuts
    {inserted : TFToken → Prop}
    {cells cells' : List (TFCell RawTree)}
    {childCount : Nat}
    {cut : Popped RawTree}
    (woven : CellsWoven inserted startState cells cells')
    (cuts : CutsAt cells childCount cut) :
    ∃ cut', CutsAt cells' childCount cut' ∧
      CutsWoven inserted cut cut' := by
  cases cuts with
  | empty =>
      exact ⟨_, .empty, woven, .nil, startState, .nil⟩
  | @single below trailing only parts isOnly extras =>
      subst parts
      obtain ⟨below', only', trailing', parts', belowWoven, same, _,
          trailingWoven⟩ :=
        woven.split
      refine ⟨_, .single parts' (same.extra.trans isOnly)
        (trailingWoven.allExtra_iff.mpr extras), belowWoven, ?_, _,
        trailingWoven⟩
      exact .keep same .nil
  | @several below between trailing first last parts isFirst isLast extras =>
      subst parts
      obtain ⟨below', first', rest', parts', belowWoven, sameFirst, _,
          restWoven⟩ :=
        woven.split
      obtain ⟨between', last', trailing', restParts, betweenWoven, sameLast,
          _, trailingWoven⟩ :=
        restWoven.split
      subst restParts
      rw [← betweenWoven.structural_eq]
      refine ⟨_, .several parts' (sameFirst.extra.trans isFirst)
        (sameLast.extra.trans isLast)
        (trailingWoven.allExtra_iff.mpr extras), belowWoven, ?_, _,
        trailingWoven⟩
      simp only [List.map_cons, List.map_append, List.map_nil]
      exact .keep sameFirst
        (betweenWoven.nodes.append (.keep sameLast .nil))

end TFParser

end TreeFeller
