import TreeFeller.Merging
import TreeFeller.PopEnds

namespace TreeFeller

open StatefulProgram

/-!
# Links of a graph of LR stacks

Each node stands for the state and the position that a push of its link's tree
on the link's node leads to, as a cell of the real stack does over the cell
below it.  The nodes pushed for the end token are apart: nothing stands on one.
The graph only ever grows, and what is read of its nodes and trees here stays
as it is, so that a link which fits goes on fitting.
-/

/-- Cells as shifts and reductions leave them, each past the one below it. -/
structure LrStack {V : Type}
    (lang : TFLanguage)
    (cells : List (TFCell V)) : Prop where
  states :
    ∀ (index : Nat) (cell : TFCell V), cells[index]? = some cell →
      cell.state =
        if cell.node.extra then
          stateAt cells index
        else
          lang.nextState (stateAt cells index) cell.node.symbol
  bytes :
    ∀ (index : Nat) (cell : TFCell V), cells[index]? = some cell →
      topByte (cells.take index) < cell.node.endByte

namespace TFSpec

open Program

/-- The state that pushing a link's tree on its node leads to. -/
def stateOver
    (self : TFSpec)
    (lang : TFLanguage)
    (link : TFSpecLink) :
    TSStateId :=
  if (self.tree link.tree).extra then
    (self.node link.node).state
  else
    lang.nextState (self.node link.node).state
      (self.tree link.tree).token.symbol

/--
Trees that a replay goes over, from a byte to another: inherited ones lie within
the owner's stack, leaves beyond it, and a parent goes over its children.
-/
inductive Replayable (graph : TFSpec) : Nat → List Nat → Nat → Prop where
  | nil (byte : Nat) : Replayable graph byte [] byte
  | inherited
      {first last tree : Nat}
      {rest : List Nat}
      (within : tree < graph.trees.length)
      (padding : (graph.tree tree).paddingStart = first)
      (spans : first < (graph.tree tree).token.endByte)
      (isInherited : (graph.tree tree).inherited = true)
      (uncounted : (graph.tree tree).structuralCount = 0)
      (below :
        (graph.tree tree).token.endByte ≤ topByte graph.owner.cells)
      (later : Replayable graph (graph.tree tree).token.endByte rest last) :
      Replayable graph first (tree :: rest) last
  | leaf
      {first last tree : Nat}
      {rest : List Nat}
      (within : tree < graph.trees.length)
      (padding : (graph.tree tree).paddingStart = first)
      (spans : first < (graph.tree tree).token.endByte)
      (own : (graph.tree tree).inherited = false)
      (isLeaf : (graph.tree tree).leaf = true)
      (uncounted : (graph.tree tree).structuralCount = 0)
      (beyond : topByte graph.owner.cells ≤ first)
      (later : Replayable graph (graph.tree tree).token.endByte rest last) :
      Replayable graph first (tree :: rest) last
  | parent
      {first last tree : Nat}
      {rest : List Nat}
      (within : tree < graph.trees.length)
      (padding : (graph.tree tree).paddingStart = first)
      (spans : first < (graph.tree tree).token.endByte)
      (own : (graph.tree tree).inherited = false)
      (inner : (graph.tree tree).leaf = false)
      (counts : (graph.tree tree).structuralCount ≠ 0)
      (children :
        Replayable graph first (graph.tree tree).children
          (graph.tree tree).token.endByte)
      (later : Replayable graph (graph.tree tree).token.endByte rest last) :
      Replayable graph first (tree :: rest) last

/-- A link a node may have: pushing its tree on its node leads to that node. -/
structure Fits
    (lang : TFLanguage)
    (graph : TFSpec)
    (target : Nat)
    (link : TFSpecLink) : Prop where
  state : (graph.node target).state = graph.stateOver lang link
  byte :
    (graph.node target).byte = (graph.tree link.tree).token.endByte
  padding :
    (graph.tree link.tree).paddingStart = (graph.node link.node).byte
  spans : (graph.node link.node).byte < (graph.node target).byte
  grown :
    Replayable graph (graph.node link.node).byte [link.tree]
      (graph.node target).byte

/-- Trees that lie one after another, from a byte to another. -/
inductive Tiling (graph : TFSpec) : Nat → List Nat → Nat → Prop where
  | nil (byte : Nat) : Tiling graph byte [] byte
  | cons
      {first last tree : Nat}
      {rest : List Nat}
      (within : tree < graph.trees.length)
      (padding : (graph.tree tree).paddingStart = first)
      (spans : first < (graph.tree tree).token.endByte)
      (later : Tiling graph (graph.tree tree).token.endByte rest last) :
      Tiling graph first (tree :: rest) last

/-- How many trees of a list are not extras. -/
def structuralOf (self : TFSpec) (trees : List Nat) : Nat :=
  trees.countP (fun tree => !(self.tree tree).extra)

/-- A parent over the trees it spans. -/
structure Tiled (graph : TFSpec) (parent : TFSpecTree) : Prop where
  tiling :
    Tiling graph parent.paddingStart parent.children
      parent.token.endByte
  first :
    ∀ child, parent.children.head? = some child →
      (graph.tree child).extra = false
  last :
    ∀ child, parent.children.getLast? = some child →
      (graph.tree child).extra = false
  structural :
    graph.structuralOf parent.children = parent.structuralCount

/--
A parent that a reduction of the graph built.  Inherited trees, trees that a
private replay collected, which count no children, and the roots that accepting
built are not.
-/
structure Reduced
    (roots : Nat → Prop)
    (graph : TFSpec)
    (tree : Nat) : Prop where
  within : tree < graph.trees.length
  inner : (graph.tree tree).leaf = false
  own : (graph.tree tree).inherited = false
  counts : (graph.tree tree).structuralCount ≠ 0
  ordinary : ¬ roots tree

/-- The cells that are still to be unrolled, below the frontier. -/
structure Unrolling
    (lang : TFLanguage)
    (ends : Nat → Prop)
    (graph : TFSpec) : Prop where
  stack : LrStack lang graph.owner.cells
  frontier : graph.frontier < graph.nodes.length
  ordinary : ¬ ends graph.frontier
  left : graph.prefixLeft ≤ graph.owner.cells.length
  state :
    (graph.node graph.frontier).state =
      stateAt graph.owner.cells graph.prefixLeft
  byte :
    (graph.node graph.frontier).byte =
      topByte (graph.owner.cells.take graph.prefixLeft)
  slots :
    ∀ tree ∈ graph.prefixTree,
      tree < graph.trees.length ∧ (graph.tree tree).inherited = true

/-- While a root is rebuilt, the trees to come are its own. -/
def Rebuilding (roots : Nat → Prop) : Prop :=
  ∃ count, ∀ tree, count ≤ tree → roots tree

/-- A graph of LR stacks, but for the nodes pushed for the end token. -/
structure Stacked
    (lang : TFLanguage)
    (ends roots : Nat → Prop)
    (graph : TFSpec) : Prop where
  linked : graph.Linked
  isSealed : graph.Sealed
  /-- Nothing stands on a node pushed for the end token. -/
  apart : ∀ node, ∀ link ∈ (graph.node node).links, ¬ ends link.node
  fits :
    ∀ node, ¬ ends node → ∀ link ∈ (graph.node node).links,
      Fits lang graph node link
  room :
    ∀ node,
      (graph.node node).links.length ≤ (graph.node node).linkCapacity ∧
        (graph.node node).linkCapacity ≤ tfSpecLinks
  tiled :
    ∀ tree, Reduced roots graph tree → Tiled graph (graph.tree tree)
  ended :
    ∀ node, ends node →
      0 < node ∧ node < graph.nodes.length ∧ (graph.node node).links ≠ []
  closed :
    ∀ node, ends node → ∀ link ∈ (graph.node node).links,
      (graph.tree link.tree).extra = true
  /-- Only the frontier stands on nothing. -/
  rooted :
    ∀ node < graph.nodes.length, ¬ node = graph.frontier →
      (graph.node node).links ≠ []
  /-- Only a head that is accepting stands on such a node and goes on. -/
  heads :
    ∀ head ∈ graph.heads,
      head.halted = false → ends head.node → Rebuilding roots
  unrolling : Unrolling lang ends graph

/-! ## What stays -/

/-- What is read of a tree here, but for the shape of an inherited one. -/
structure SameTree (before after : TFSpecTree) : Prop where
  token : after.token = before.token
  paddingStart : after.paddingStart = before.paddingStart
  extra : after.extra = before.extra
  leaf : after.leaf = before.leaf
  inherited : after.inherited = before.inherited
  structuralCount : after.structuralCount = before.structuralCount
  children : before.inherited = false → after.children = before.children

/-- A later graph: nodes and trees stay what they are. -/
structure Evolves (before after : TFSpec) : Prop where
  nodes : before.nodes.length ≤ after.nodes.length
  trees : before.trees.length ≤ after.trees.length
  state :
    ∀ node < before.nodes.length,
      (after.node node).state = (before.node node).state
  byte :
    ∀ node < before.nodes.length,
      (after.node node).byte = (before.node node).byte
  tree :
    ∀ tree < before.trees.length,
      SameTree (before.tree tree) (after.tree tree)
  owner : after.owner = before.owner

namespace SameTree

/-- A tree stays itself. -/
theorem refl (tree : TFSpecTree) : SameTree tree tree :=
  ⟨rfl, rfl, rfl, rfl, rfl, rfl, fun _ => rfl⟩

/-- What stays goes on staying. -/
theorem trans
    {first second third : TFSpecTree}
    (later : SameTree second third)
    (earlier : SameTree first second) :
    SameTree first third where
  token := later.token.trans earlier.token
  paddingStart := later.paddingStart.trans earlier.paddingStart
  extra := later.extra.trans earlier.extra
  leaf := later.leaf.trans earlier.leaf
  inherited := later.inherited.trans earlier.inherited
  structuralCount := later.structuralCount.trans earlier.structuralCount
  children := by
    intro own
    have ownLater : second.inherited = false := by
      rw [earlier.inherited]
      exact own
    exact (later.children ownLater).trans (earlier.children own)

end SameTree

namespace Evolves

variable {first second third before after : TFSpec}

/-- A graph stays itself. -/
theorem refl (graph : TFSpec) : Evolves graph graph :=
  ⟨Nat.le_refl _, Nat.le_refl _, fun _ _ => rfl, fun _ _ => rfl,
    fun _ _ => .refl _, rfl⟩

/-- One evolution after another. -/
theorem trans
    (later : Evolves second third)
    (earlier : Evolves first second) :
    Evolves first third where
  nodes := Nat.le_trans earlier.nodes later.nodes
  trees := Nat.le_trans earlier.trees later.trees
  state := fun node within =>
    (later.state node (Nat.lt_of_lt_of_le within earlier.nodes)).trans
      (earlier.state node within)
  byte := fun node within =>
    (later.byte node (Nat.lt_of_lt_of_le within earlier.nodes)).trans
      (earlier.byte node within)
  tree := fun tree within =>
    (later.tree tree (Nat.lt_of_lt_of_le within earlier.trees)).trans
      (earlier.tree tree within)
  owner := later.owner.trans earlier.owner

/-- Graphs with the same nodes and trees. -/
theorem of_same
    (nodes : after.nodes = before.nodes)
    (trees : after.trees = before.trees)
    (owner : after.owner = before.owner) :
    Evolves before after := by
  have node : ∀ index, after.node index = before.node index := by
    intro index
    unfold TFSpec.node
    rw [nodes]
  have tree : ∀ index, after.tree index = before.tree index := by
    intro index
    unfold TFSpec.tree
    rw [trees]
  refine ⟨Nat.le_of_eq (congrArg List.length nodes.symm),
    Nat.le_of_eq (congrArg List.length trees.symm), ?_, ?_, ?_, owner⟩
  · intro index _
    rw [node]
  · intro index _
    rw [node]
  · intro index _
    rw [tree]
    exact .refl _

end Evolves

namespace Replayable

variable {before after graph : TFSpec}
variable {first middle last : Nat}
variable {trees front back : List Nat}

/-- Trees that are gone over go on being so. -/
theorem evolves
    (grown : Replayable before first trees last)
    (evolves : Evolves before after) :
    Replayable after first trees last := by
  induction grown with
  | nil byte =>
      exact .nil byte
  | @inherited first last tree rest within padding spans isInherited
      uncounted below later inductionHypothesis =>
      have same := evolves.tree tree within
      refine .inherited (Nat.lt_of_lt_of_le within evolves.trees)
        (same.paddingStart.trans padding) ?_
        (same.inherited.trans isInherited)
        (same.structuralCount.trans uncounted) ?_ ?_
      · rw [same.token]
        exact spans
      · rw [same.token, evolves.owner]
        exact below
      · rw [same.token]
        exact inductionHypothesis
  | @leaf first last tree rest within padding spans own isLeaf uncounted
      beyond later inductionHypothesis =>
      have same := evolves.tree tree within
      refine .leaf (Nat.lt_of_lt_of_le within evolves.trees)
        (same.paddingStart.trans padding) ?_ (same.inherited.trans own)
        (same.leaf.trans isLeaf) (same.structuralCount.trans uncounted)
        ?_ ?_
      · rw [same.token]
        exact spans
      · rw [evolves.owner]
        exact beyond
      · rw [same.token]
        exact inductionHypothesis
  | @parent first last tree rest within padding spans own inner counts
      children later childrenHypothesis inductionHypothesis =>
      have same := evolves.tree tree within
      refine .parent (Nat.lt_of_lt_of_le within evolves.trees)
        (same.paddingStart.trans padding) ?_ (same.inherited.trans own)
        (same.leaf.trans inner) ?_ ?_ ?_
      · rw [same.token]
        exact spans
      · rw [same.structuralCount]
        exact counts
      · rw [same.children own, same.token]
        exact childrenHypothesis
      · rw [same.token]
        exact inductionHypothesis

/-- Trees gone over lie one after another. -/
theorem tiling
    (grown : Replayable graph first trees last) :
    Tiling graph first trees last := by
  induction grown with
  | nil byte =>
      exact .nil byte
  | inherited within padding spans _ _ _ _ inductionHypothesis =>
      exact .cons within padding spans inductionHypothesis
  | leaf within padding spans _ _ _ _ _ inductionHypothesis =>
      exact .cons within padding spans inductionHypothesis
  | parent within padding spans _ _ _ _ _ _ inductionHypothesis =>
      exact .cons within padding spans inductionHypothesis

/-- One row of trees behind another. -/
theorem append
    (front' : Replayable graph first front middle)
    (back' : Replayable graph middle back last) :
    Replayable graph first (front ++ back) last := by
  induction front' with
  | nil byte =>
      exact back'
  | inherited within padding spans isInherited uncounted below _
      inductionHypothesis =>
      exact .inherited within padding spans isInherited uncounted below
        (inductionHypothesis back')
  | leaf within padding spans own isLeaf uncounted beyond _
      inductionHypothesis =>
      exact .leaf within padding spans own isLeaf uncounted beyond
        (inductionHypothesis back')
  | parent within padding spans own inner counts children _ _
      inductionHypothesis =>
      exact .parent within padding spans own inner counts children
        (inductionHypothesis back')

/-- A row of trees can be cut anywhere. -/
theorem split
    (grown : Replayable graph first (front ++ back) last) :
    ∃ middle,
      Replayable graph first front middle ∧
        Replayable graph middle back last := by
  induction front generalizing first with
  | nil =>
      exact ⟨first, .nil first, grown⟩
  | cons tree rest inductionHypothesis =>
      rw [List.cons_append] at grown
      cases grown with
      | inherited within padding spans isInherited uncounted below later =>
          obtain ⟨middle, front', back'⟩ := inductionHypothesis later
          exact ⟨middle,
            .inherited within padding spans isInherited uncounted below
              front',
            back'⟩
      | leaf within padding spans own isLeaf uncounted beyond later =>
          obtain ⟨middle, front', back'⟩ := inductionHypothesis later
          exact ⟨middle,
            .leaf within padding spans own isLeaf uncounted beyond front',
            back'⟩
      | parent within padding spans own inner counts children later =>
          obtain ⟨middle, front', back'⟩ := inductionHypothesis later
          exact ⟨middle,
            .parent within padding spans own inner counts children front',
            back'⟩

end Replayable

/-- A link that fits goes on fitting. -/
theorem Fits.evolves
    {lang : TFLanguage}
    {before after : TFSpec}
    {target : Nat}
    {link : TFSpecLink}
    (fits : Fits lang before target link)
    (evolves : Evolves before after)
    (targetWithin : target < before.nodes.length)
    (nodeWithin : link.node < before.nodes.length)
    (treeWithin : link.tree < before.trees.length) :
    Fits lang after target link := by
  have same := evolves.tree link.tree treeWithin
  refine ⟨?_, ?_, ?_, ?_, ?_⟩
  · rw [evolves.state target targetWithin, fits.state]
    unfold stateOver
    rw [same.extra, same.token, evolves.state link.node nodeWithin]
  · rw [evolves.byte target targetWithin, same.token]
    exact fits.byte
  · rw [same.paddingStart, evolves.byte link.node nodeWithin]
    exact fits.padding
  · rw [evolves.byte target targetWithin,
      evolves.byte link.node nodeWithin]
    exact fits.spans
  · rw [evolves.byte target targetWithin,
      evolves.byte link.node nodeWithin]
    exact fits.grown.evolves evolves

namespace Tiling

variable {before after : TFSpec}
variable {first middle last : Nat}
variable {trees front back : List Nat}

/-- Trees that lie one after another go on doing so. -/
theorem evolves
    (tiling : Tiling before first trees last)
    (evolves : Evolves before after) :
    Tiling after first trees last := by
  induction tiling with
  | nil byte =>
      exact .nil byte
  | cons within padding spans later inductionHypothesis =>
      have same := evolves.tree _ within
      refine .cons (Nat.lt_of_lt_of_le within evolves.trees) ?_ ?_ ?_
      · rw [same.paddingStart]
        exact padding
      · rw [same.token]
        exact spans
      · rw [same.token]
        exact inductionHypothesis

/-- The trees are those of the graph. -/
theorem within
    (tiling : Tiling before first trees last)
    {tree : Nat}
    (member : tree ∈ trees) :
    tree < before.trees.length := by
  induction tiling with
  | nil byte =>
      cases member
  | cons within padding spans later inductionHypothesis =>
      rcases List.mem_cons.mp member with rfl | old
      · exact within
      · exact inductionHypothesis old

/-- They never go back. -/
theorem le
    (tiling : Tiling before first trees last) :
    first ≤ last := by
  induction tiling with
  | nil byte =>
      exact Nat.le_refl _
  | cons within padding spans later inductionHypothesis =>
      exact Nat.le_trans (Nat.le_of_lt spans) inductionHypothesis

/-- Some trees span something. -/
theorem lt
    (tiling : Tiling before first trees last)
    (some_ : trees ≠ []) :
    first < last := by
  cases tiling with
  | nil byte =>
      exact absurd rfl some_
  | cons within padding spans later =>
      exact Nat.lt_of_lt_of_le spans later.le

/-- The first tree starts where the row does. -/
theorem head?
    (tiling : Tiling before first trees last)
    {tree : Nat}
    (isFirst : trees.head? = some tree) :
    (before.tree tree).paddingStart = first := by
  cases tiling with
  | nil byte =>
      cases isFirst
  | cons within padding spans later =>
      cases isFirst
      exact padding

/-- The last tree ends where the row does. -/
theorem getLast?
    (tiling : Tiling before first trees last)
    {tree : Nat}
    (isLast : trees.getLast? = some tree) :
    (before.tree tree).token.endByte = last := by
  induction tiling with
  | nil byte =>
      cases isLast
  | @cons first last other rest within padding spans later
      inductionHypothesis =>
      cases rest with
      | nil =>
          cases isLast
          cases later
          rfl
      | cons next rest =>
          rw [List.getLast?_cons_cons] at isLast
          exact inductionHypothesis isLast

end Tiling

/-- Extras stay extras. -/
theorem structuralOf_evolves
    {before after : TFSpec}
    (evolves : Evolves before after)
    {trees : List Nat}
    (within : ∀ tree ∈ trees, tree < before.trees.length) :
    after.structuralOf trees = before.structuralOf trees := by
  unfold structuralOf
  refine List.countP_congr ?_
  intro tree member
  rw [(evolves.tree tree (within tree member)).extra]

/-- A parent goes on spanning its children. -/
theorem Tiled.evolves
    {before after : TFSpec}
    {parent parent' : TFSpecTree}
    (tiled : Tiled before parent)
    (evolves : Evolves before after)
    (same : SameTree parent parent')
    (own : parent.inherited = false) :
    Tiled after parent' := by
  have within :
      ∀ tree, tree ∈ parent.children → tree < before.trees.length :=
    fun _ member => tiled.tiling.within member
  have children := same.children own
  refine ⟨?_, ?_, ?_, ?_⟩
  · rw [same.paddingStart, children, same.token]
    exact tiled.tiling.evolves evolves
  · rw [children]
    intro child isFirst
    have member : child ∈ parent.children :=
      List.mem_of_mem_head? isFirst
    rw [(evolves.tree child (within child member)).extra]
    exact tiled.first child isFirst
  · rw [children]
    intro child isLast
    have member : child ∈ parent.children :=
      List.mem_of_mem_getLast? isLast
    rw [(evolves.tree child (within child member)).extra]
    exact tiled.last child isLast
  · rw [children, same.structuralCount, structuralOf_evolves evolves within]
    exact tiled.structural

/-- What a reduction built was built by it before. -/
theorem Reduced.earlier
    {roots : Nat → Prop}
    {before after : TFSpec}
    {tree : Nat}
    (reduced : Reduced roots after tree)
    (evolves : Evolves before after)
    (within : tree < before.trees.length) :
    Reduced roots before tree := by
  have same := evolves.tree tree within
  refine ⟨within, ?_, ?_, ?_, reduced.ordinary⟩
  · rw [← same.leaf]
    exact reduced.inner
  · rw [← same.inherited]
    exact reduced.own
  · rw [← same.structuralCount]
    exact reduced.counts

/-- What is known of unrolling stays known while nothing is unrolled. -/
theorem Unrolling.evolves
    {lang : TFLanguage}
    {ends : Nat → Prop}
    {before after : TFSpec}
    (unrolling : Unrolling lang ends before)
    (evolves : Evolves before after)
    (owner : after.owner = before.owner)
    (frontier : after.frontier = before.frontier)
    (prefixLeft : after.prefixLeft = before.prefixLeft)
    (prefixTree : after.prefixTree = before.prefixTree) :
    Unrolling lang ends after := by
  have within := unrolling.frontier
  refine ⟨?_, ?_, ?_, ?_, ?_, ?_, ?_⟩
  · rw [owner]
    exact unrolling.stack
  · rw [frontier]
    exact Nat.lt_of_lt_of_le within evolves.nodes
  · rw [frontier]
    exact unrolling.ordinary
  · rw [prefixLeft, owner]
    exact unrolling.left
  · rw [frontier, evolves.state _ within, owner, prefixLeft]
    exact unrolling.state
  · rw [frontier, evolves.byte _ within, owner, prefixLeft]
    exact unrolling.byte
  · rw [prefixTree]
    intro tree member
    obtain ⟨treeWithin, isInherited⟩ := unrolling.slots tree member
    refine ⟨Nat.lt_of_lt_of_le treeWithin evolves.trees, ?_⟩
    rw [(evolves.tree tree treeWithin).inherited]
    exact isInherited

namespace Stacked

variable {lang : TFLanguage}
variable {ends roots : Nat → Prop}
variable {before after : TFSpec}

/-- A node that has links is there. -/
theorem within_of_link
    {graph : TFSpec}
    {node : Nat}
    {link : TFSpecLink}
    (isLink : link ∈ (graph.node node).links) :
    node < graph.nodes.length := by
  by_contra outside
  rw [links_of_not_lt outside] at isLink
  cases isLink

/--
A graph that evolved is one of LR stacks, where its new links, trees and heads
are as they should be.
-/
theorem later
    (stacked : Stacked lang ends roots before)
    (evolves : Evolves before after)
    (isSealed : after.Sealed)
    (unrolling : Unrolling lang ends after)
    (links :
      ∀ node, ∀ link ∈ (after.node node).links,
        link ∈ (before.node node).links ∨
          link.node < after.nodes.length ∧
            link.tree < after.trees.length ∧
            ¬ ends link.node ∧ ¬ ends node ∧ Fits lang after node link)
    (room :
      ∀ node,
        (after.node node).links.length ≤ (after.node node).linkCapacity ∧
          (after.node node).linkCapacity ≤ tfSpecLinks)
    (linked :
      ∀ node < before.nodes.length, ¬ node = before.frontier →
        (before.node node).links ≠ [] → (after.node node).links ≠ [])
    (rooted :
      ∀ node < after.nodes.length, ¬ node = after.frontier →
        before.nodes.length ≤ node ∨ node = before.frontier →
          (after.node node).links ≠ [])
    (trees :
      ∀ tree, before.trees.length ≤ tree → Reduced roots after tree →
        Tiled after (after.tree tree))
    (heads :
      ∀ head ∈ after.heads,
        head.node < after.nodes.length ∧
          (head.halted = false → ends head.node → Rebuilding roots)) :
    Stacked lang ends roots after where
  linked := by
    refine ⟨?_, fun head member => (heads head member).1⟩
    intro node member link isLink
    obtain ⟨index, within, rfl⟩ := List.mem_iff_getElem.mp member
    have isNode : after.nodes[index] = after.node index := by
      unfold TFSpec.node
      rw [List.getD_eq_getElem _ _ within]
    rw [isNode] at isLink
    rcases links index link isLink with old | ⟨node, tree, _⟩
    · obtain ⟨nodeWithin, treeWithin⟩ := stacked.linked.link old
      exact ⟨Nat.lt_of_lt_of_le nodeWithin evolves.nodes,
        Nat.lt_of_lt_of_le treeWithin evolves.trees⟩
    · exact ⟨node, tree⟩
  isSealed := isSealed
  apart := by
    intro node link isLink
    rcases links node link isLink with old | ⟨_, _, ordinary, _⟩
    · exact stacked.apart node link old
    · exact ordinary
  fits := by
    intro node ordinary link isLink
    rcases links node link isLink with old | ⟨_, _, _, _, fits⟩
    · obtain ⟨nodeWithin, treeWithin⟩ := stacked.linked.link old
      exact (stacked.fits node ordinary link old).evolves evolves
        (within_of_link old) nodeWithin treeWithin
    · exact fits
  room := room
  tiled := by
    intro tree reduced
    by_cases known : tree < before.trees.length
    · have reducedBefore := reduced.earlier evolves known
      exact (stacked.tiled tree reducedBefore).evolves evolves
        (evolves.tree tree known) reducedBefore.own
    · exact trees tree (Nat.le_of_not_lt known) reduced
  ended := by
    intro node isEnd
    obtain ⟨positive, within, links⟩ := stacked.ended node isEnd
    refine ⟨positive, Nat.lt_of_lt_of_le within evolves.nodes,
      linked node within ?_ links⟩
    intro atFrontier
    rw [atFrontier] at isEnd
    exact stacked.unrolling.ordinary isEnd
  closed := by
    intro node isEnd link isLink
    rcases links node link isLink with old | ⟨_, _, _, ordinary, _⟩
    · have treeWithin := (stacked.linked.link old).2
      rw [(evolves.tree link.tree treeWithin).extra]
      exact stacked.closed node isEnd link old
    · exact absurd isEnd ordinary
  rooted := by
    intro node within elsewhere
    by_cases isNew : before.nodes.length ≤ node ∨ node = before.frontier
    · exact rooted node within elsewhere isNew
    · rw [not_or] at isNew
      have known := Nat.lt_of_not_le isNew.1
      exact linked node known isNew.2
        (stacked.rooted node known isNew.2)
  heads := fun head member => (heads head member).2
  unrolling := unrolling

/-- The heads of the graph itself are as they should be. -/
theorem ownHeads
    (stacked : Stacked lang ends roots before) :
    ∀ head ∈ before.heads,
      head.node < before.nodes.length ∧
        (head.halted = false → ends head.node → Rebuilding roots) :=
  fun head member =>
    ⟨stacked.linked.heads head member, stacked.heads head member⟩

/-- A head that goes on stands on no node pushed for the end token. -/
theorem head
    (stacked : Stacked lang ends roots before)
    (settled : ¬ Rebuilding roots)
    {version : Nat}
    (going : (before.head version).halted = false) :
    ¬ ends (before.head version).node := by
  by_cases within : version < before.heads.length
  · intro isEnd
    refine settled (stacked.heads _ ?_ going isEnd)
    unfold TFSpec.head
    rw [List.getD_eq_getElem _ _ within]
    exact List.getElem_mem within
  · unfold TFSpec.head
    rw [List.getD_eq_default _ _ (Nat.le_of_not_lt within)]
    intro isEnd
    exact Nat.lt_irrefl _ (stacked.ended _ isEnd).1

/-- Every head stands on a node, and so does one that is not there. -/
theorem headWithin
    (stacked : Stacked lang ends roots before)
    (version : Nat) :
    (before.head version).node < before.nodes.length := by
  by_cases within : version < before.heads.length
  · exact stacked.linked.head within
  · unfold TFSpec.head
    rw [List.getD_eq_default _ _ (Nat.le_of_not_lt within)]
    exact Nat.lt_of_le_of_lt (Nat.zero_le _) stacked.unrolling.frontier

end Stacked

end TFSpec

end TreeFeller
