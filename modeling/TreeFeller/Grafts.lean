import TreeFeller.StackRuns

namespace TreeFeller

open StatefulProgram

/-!
# Trees that a replay can rebuild

A tree of the graph shows what the real stack will hold for it once it has been
replayed: an inherited tree shows the cell it was unrolled from, a leaf its
token, and a parent spans its children as a reduction does.  A parent of the
split covers every cell of the owner's stack that is not an extra: a reduction
takes what is on top, so nothing but extras can be left above it.
-/

/-- The node that a replay puts on the stack for a tree, without its value. -/
def TFSpecTree.shown (self : TFSpecTree) : TFNode Unit :=
  self.token.node self.extra none

/-- More cells of a stack end further along. -/
theorem LrStack.topByte_take_mono {V : Type}
    {lang : TFLanguage}
    {cells : List (TFCell V)}
    (stack : LrStack lang cells)
    {low high : Nat}
    (most : low ≤ high)
    (within : high ≤ cells.length) :
    topByte (cells.take low) ≤ topByte (cells.take high) := by
  induction most with
  | refl =>
      exact Nat.le_refl _
  | @step high most inductionHypothesis =>
      have isCell : cells[high]? = some cells[high] :=
        List.getElem?_eq_getElem within
      have rises := stack.bytes high _ isCell
      have earlier := inductionHypothesis (Nat.le_of_lt within)
      rw [topByte_take_succ isCell]
      omega

namespace TFSpec

open Program

/-- Every cell that is not an extra ends at a byte or before it. -/
def Covers {V : Type} (cells : List (TFCell V)) (byte : Nat) : Prop :=
  ∀ cell ∈ cells, cell.node.extra = false → cell.node.endByte ≤ byte

/-- A parent that begins and ends where its children do. -/
structure Framed (graph : TFSpec) (parent : TFSpecTree) : Prop where
  first :
    ∀ child, parent.children.head? = some child →
      parent.token.startByte = (graph.tree child).token.startByte ∧
        parent.token.startPoint = (graph.tree child).token.startPoint
  last :
    ∀ child, parent.children.getLast? = some child →
      parent.token.endByte = (graph.tree child).token.endByte ∧
        parent.token.endPoint = (graph.tree child).token.endPoint

/-- A tree that shows what it will be on the real stack, down to its leaves. -/
inductive Grafted (graph : TFSpec) : Nat → Prop where
  | inherited
      {tree index : Nat}
      (within : tree < graph.trees.length)
      (isInherited : (graph.tree tree).inherited = true)
      (shows :
        (graph.owner.cells.getD index default).node.forget =
          (graph.tree tree).shown)
      (padding :
        (graph.tree tree).paddingStart =
          topByte (graph.owner.cells.take index))
      (uncounted : (graph.tree tree).structuralCount = 0) :
      Grafted graph tree
  | leaf
      {tree : Nat}
      (within : tree < graph.trees.length)
      (own : (graph.tree tree).inherited = false)
      (isLeaf : (graph.tree tree).leaf = true)
      (beyond :
        topByte graph.owner.cells ≤ (graph.tree tree).paddingStart)
      (uncounted : (graph.tree tree).structuralCount = 0) :
      Grafted graph tree
  | parent
      {tree : Nat}
      (within : tree < graph.trees.length)
      (own : (graph.tree tree).inherited = false)
      (inner : (graph.tree tree).leaf = false)
      (structural : (graph.tree tree).extra = false)
      (tiled : Tiled graph (graph.tree tree))
      (framed : Framed graph (graph.tree tree))
      (covers :
        Covers graph.owner.cells (graph.tree tree).token.endByte)
      (children :
        ∀ child ∈ (graph.tree tree).children, Grafted graph child) :
      Grafted graph tree

variable {before after graph : TFSpec}
variable {tree : Nat}

/-- A tree that is grafted is one of the graph. -/
theorem Grafted.within
    (grafted : Grafted graph tree) :
    tree < graph.trees.length := by
  cases grafted with
  | inherited within => exact within
  | leaf within => exact within
  | parent within => exact within

/-- The frame of a parent stays. -/
theorem Framed.evolves
    {parent parent' : TFSpecTree}
    (framed : Framed before parent)
    (evolves : Evolves before after)
    (same : SameTree parent parent')
    (own : parent.inherited = false)
    (within : ∀ child ∈ parent.children, child < before.trees.length) :
    Framed after parent' := by
  have children := same.children own
  refine ⟨?_, ?_⟩
  · intro child isFirst
    rw [children] at isFirst
    have known := within child (List.mem_of_mem_head? isFirst)
    rw [same.token, (evolves.tree child known).token]
    exact framed.first child isFirst
  · intro child isLast
    rw [children] at isLast
    have known := within child (List.mem_of_mem_getLast? isLast)
    rw [same.token, (evolves.tree child known).token]
    exact framed.last child isLast

/-- What a tree shows stays. -/
theorem SameTree.shown
    {first second : TFSpecTree}
    (same : SameTree first second) :
    second.shown = first.shown := by
  unfold TFSpecTree.shown
  rw [same.token, same.extra]

/-- A grafted tree stays one. -/
theorem Grafted.evolves
    (grafted : Grafted before tree)
    (evolves : Evolves before after) :
    Grafted after tree := by
  induction grafted with
  | @inherited tree index within isInherited shows padding uncounted =>
      have same := evolves.tree tree within
      have showsNow :
          (after.owner.cells.getD index default).node.forget =
            (after.tree tree).shown := by
        rw [same.shown, evolves.owner]
        exact shows
      refine .inherited (Nat.lt_of_lt_of_le within evolves.trees)
        (same.inherited.trans isInherited) showsNow ?_
        (same.structuralCount.trans uncounted)
      rw [same.paddingStart, evolves.owner]
      exact padding
  | @leaf tree within own isLeaf beyond uncounted =>
      have same := evolves.tree tree within
      refine .leaf (Nat.lt_of_lt_of_le within evolves.trees)
        (same.inherited.trans own) (same.leaf.trans isLeaf) ?_
        (same.structuralCount.trans uncounted)
      rw [same.paddingStart, evolves.owner]
      exact beyond
  | @parent tree within own inner structural tiled framed covers children
      inductionHypothesis =>
      have same := evolves.tree tree within
      refine .parent (Nat.lt_of_lt_of_le within evolves.trees)
        (same.inherited.trans own) (same.leaf.trans inner)
        (same.extra.trans structural) (tiled.evolves evolves same own)
        (framed.evolves evolves same own
          (fun child member => (children child member).within)) ?_ ?_
      · rw [same.token, evolves.owner]
        exact covers
      · intro child member
        rw [same.children own] at member
        exact inductionHypothesis child member

/-- A cell that ends beyond a byte is there. -/
theorem cell_of_spans
    {V : Type}
    {cells : List (TFCell V)}
    {index byte : Nat}
    (spans : byte < (cells.getD index default).node.endByte) :
    cells[index]? = some (cells.getD index default) := by
  rw [List.getD_eq_getElem?_getD] at spans ⊢
  cases known : cells[index]? with
  | none =>
      rw [known] at spans
      exact absurd spans (Nat.not_lt_zero _)
  | some cell =>
      rfl

/-- An extra of a row shows a cell, or begins beyond the stack. -/
theorem Grafted.of_extra
    (grafted : Grafted graph tree)
    (isExtra : (graph.tree tree).extra = true)
    (spans :
      (graph.tree tree).paddingStart < (graph.tree tree).token.endByte) :
    (∃ (index : Nat) (cell : TFCell Unit),
      graph.owner.cells[index]? = some cell ∧
        cell.node.forget = (graph.tree tree).shown ∧
        (graph.tree tree).paddingStart =
          topByte (graph.owner.cells.take index)) ∨
      topByte graph.owner.cells ≤ (graph.tree tree).paddingStart := by
  cases grafted with
  | inherited _ _ shows padding =>
      have ends_ := congrArg TFNode.endByte shows
      change _ = (graph.tree tree).token.endByte at ends_
      rw [← ends_] at spans
      exact Or.inl ⟨_, _, cell_of_spans spans, shows, padding⟩
  | leaf _ _ _ beyond =>
      exact Or.inr beyond
  | parent _ _ _ structural =>
      cases structural.symm.trans isExtra

/-! ## What extras leave uncovered -/

/-- Extras that reach the top of the stack begin above all its other cells. -/
theorem covers_of_extras
    {lang : TFLanguage}
    {first last : Nat}
    {trees : List Nat}
    (stack : LrStack lang graph.owner.cells)
    (row : Replayable graph first trees last)
    (grafted : ∀ tree ∈ trees, Grafted graph tree)
    (areExtras : ∀ tree ∈ trees, (graph.tree tree).extra = true)
    (high : topByte graph.owner.cells ≤ last) :
    Covers graph.owner.cells first := by
  induction trees generalizing first with
  | nil =>
      cases row
      intro cell member _
      obtain ⟨index, inRange, rfl⟩ := List.mem_iff_getElem.mp member
      have isCell := List.getElem?_eq_getElem inRange
      have below := stack.topByte_take_le (index + 1)
      rw [topByte_take_succ isCell] at below
      exact Nat.le_trans below high
  | cons tree rest inductionHypothesis =>
      have rows : Replayable graph first ([tree] ++ rest) last := row
      obtain ⟨middle, alone, later⟩ := rows.split
      have covered :=
        inductionHypothesis later
          (fun other member => grafted other (List.mem_cons_of_mem _ member))
          (fun other member => areExtras other (List.mem_cons_of_mem _ member))
      have isExtra := areExtras tree (List.mem_cons_self ..)
      cases alone.tiling with
      | cons within padding spans ended =>
          cases ended
          intro cell member structural
          by_contra above_
          have notAbove := covered cell member structural
          obtain ⟨index, inRange, rfl⟩ := List.mem_iff_getElem.mp member
          have isCell := List.getElem?_eq_getElem inRange
          have ends_ := topByte_take_succ isCell
          have below := stack.topByte_take_le (index + 1)
          rcases (grafted tree (List.mem_cons_self ..)).of_extra isExtra
              (by rwa [padding]) with
            ⟨place, known, isKnown, shows, starts⟩ | beyond
          · have atTop := topByte_take_succ isKnown
            have isEnd :
                known.node.endByte = (graph.tree tree).token.endByte :=
              congrArg TFNode.endByte shows
            have placeInRange :=
              (List.getElem?_eq_some_iff.mp isKnown).1
            -- The tree stands for the very cell that is not covered.
            have same : index = place := by
              rcases Nat.lt_trichotomy index place with lower | same | higher
              · have least :=
                  stack.topByte_take_mono (show index + 1 ≤ place from lower)
                    (Nat.le_of_lt placeInRange)
                omega
              · exact same
              · have most :=
                  stack.topByte_take_mono (show place + 1 ≤ index from higher)
                    (Nat.le_of_lt inRange)
                have rises := stack.bytes index _ isCell
                omega
            subst same
            have isSame : known = graph.owner.cells[index] :=
              Option.some.inj (isKnown.symm.trans isCell)
            have shownExtra : known.node.extra = (graph.tree tree).extra :=
              congrArg TFNode.extra shows
            rw [isSame] at shownExtra
            rw [structural, isExtra] at shownExtra
            cases shownExtra
          · omega

end TFSpec

end TreeFeller
