import TreeFeller.Recovery
import TreeFeller.SmallTables

namespace TreeFeller

open StatefulProgram

/-!
# Merging heads

A merge gives the surviving head every stack of both.  A link that is not
added is matched by one with a tree that reads the same, over a predecessor
that takes the other's links in turn.  Where every tree spans some of the
source, the node at which the inherited stack has been unrolled so far lies
below all others, so a merge never reads or adds links there.
-/

namespace TFSpec

open Program

/-! ## Stacks -/

/-- What is read of a tree on a link. -/
structure Label where
  symbol : TSSymbol
  extra : Bool
  padding : Nat
  size : Nat
  childCount : Nat
  deriving Repr, DecidableEq

/-- One step down a stack: a node's state and the tree below it. -/
structure Step where
  state : TSStateId
  label : Label
  deriving Repr, DecidableEq

/-- How many children trees and stack cells have, the unknown ones included. -/
structure Counts where
  trees : Nat → Nat
  cells : Nat → Nat

/-- The label of a tree of so many children. -/
def labelOf (tree : TFSpecTree) (childCount : Nat) : Label where
  symbol := tree.token.symbol
  extra := tree.extra
  padding := span32 tree.paddingStart tree.token.startByte
  size := span32 tree.token.startByte tree.token.endByte
  childCount := childCount

/-- Counts that agree with the children that are known. -/
def Counted (graph : TFSpec) (counts : Nat → Nat) : Prop :=
  ∀ tree < graph.trees.length,
    (graph.tree tree).isOpaque = false →
      counts tree = (graph.tree tree).children.length

/-- The inherited cells that are not unrolled, from the top down. -/
def stackBelow (self : TFSpec) (counts : Nat → Nat) : List Step :=
  (List.range self.prefixLeft).reverse.map (fun index =>
    ⟨stateAt self.owner.cells (index + 1),
      labelOf
        (inheritedTree (self.owner.cells.getD index default).node
          (topByte (self.owner.cells.take index)))
        (counts index)⟩)

/-- The step from a node down a link. -/
def stepDown
    (self : TFSpec)
    (counts : Counts)
    (node : Nat)
    (link : TFSpecLink) :
    Step :=
  ⟨(self.node node).state,
    labelOf (self.tree link.tree) (counts.trees link.tree)⟩

/--
The stacks read from a node: paths down to the bottom of the parse stack, past
the cells that are not unrolled.
-/
inductive Leads (graph : TFSpec) (counts : Counts) :
    Nat → List Step → Prop where
  | bottom :
      Leads graph counts graph.frontier (graph.stackBelow counts.cells)
  | down
      {node : Nat}
      {link : TFSpecLink}
      {rest : List Step}
      (isLink : link ∈ (graph.node node).links)
      (later : Leads graph counts link.node rest) :
      Leads graph counts node (graph.stepDown counts node link :: rest)

/-- Nodes of the same state and byte. -/
structure Alike (graph : TFSpec) (first second : Nat) : Prop where
  state : (graph.node first).state = (graph.node second).state
  byte : (graph.node first).byte = (graph.node second).byte

/--
The stacks got from those of a graph by exchanging the parts below nodes of
the same state and byte.
-/
inductive Exchanged (graph : TFSpec) (counts : Counts) :
    Nat → List Step → Prop where
  | bottom :
      Exchanged graph counts graph.frontier
        (graph.stackBelow counts.cells)
  | down
      {node : Nat}
      {link : TFSpecLink}
      {rest : List Step}
      (isLink : link ∈ (graph.node node).links)
      (later : Exchanged graph counts link.node rest) :
      Exchanged graph counts node
        (graph.stepDown counts node link :: rest)
  | exchange
      {node other : Nat}
      {stack : List Step}
      (alike : Alike graph node other)
      (below : Exchanged graph counts other stack) :
      Exchanged graph counts node stack

/-- Every tree on a link spans some of the source. -/
def Spanning (graph : TFSpec) : Prop :=
  ∀ node, ∀ link ∈ (graph.node node).links,
    (graph.node link.node).byte < (graph.node node).byte

/-! ## The lowest node -/

/-- Every node leads down, but for the one that unrolling goes on from. -/
structure Rooted (graph : TFSpec) : Prop where
  frontier : graph.frontier < graph.nodes.length
  linked :
    ∀ node < graph.nodes.length, node ≠ graph.frontier →
      (graph.node node).links ≠ []

/-- The nodes of a graph of which one is changed. -/
theorem node_modifyNode
    (self : TFSpec)
    (index : Nat)
    (change : TFSpecNode → TFSpecNode)
    (node : Nat) :
    (self.modifyNode index change).node node =
      if index = node ∧ node < self.nodes.length then
        change (self.node node)
      else
        self.node node := by
  unfold modifyNode TFSpec.node
  simp only [List.getD_eq_getElem?_getD, List.getElem?_modify]
  by_cases within : node < self.nodes.length
  · rw [List.getElem?_eq_getElem within]
    by_cases same : index = node
    · simp [same, within]
    · simp [same]
  · rw [List.getElem?_eq_none (Nat.le_of_not_lt within)]
    simp [within]

/-- Edits leave no node without a way down. -/
theorem robust_rooted : Robust Rooted where
  aside := by
    intro before after same rooted
    refine ⟨?_, ?_⟩
    · rw [same.frontier, same.nodes]
      exact rooted.frontier
    · unfold TFSpec.node
      rw [same.frontier, same.nodes]
      exact rooted.linked
  tree := by
    intro self tree known rooted
    exact ⟨rooted.frontier, rooted.linked⟩
  node := by
    intro self added linked rooted
    have frontier := rooted.frontier
    refine ⟨?_, ?_⟩
    · simp only [List.length_append, List.length_singleton]
      omega
    · intro node within apart
      simp only [List.length_append, List.length_singleton] at within
      unfold TFSpec.node
      dsimp only
      by_cases last : node = self.nodes.length
      · rw [last, List.getD_append_right _ _ _ _ (Nat.le_refl _)]
        simpa using linked
      · rw [List.getD_append _ _ _ _ (by omega)]
        exact rooted.linked node (by omega) apart
  relink := by
    intro self index change linked rooted
    refine ⟨?_, ?_⟩
    · simp only [modifyNode, List.length_modify]
      exact rooted.frontier
    · intro node within apart
      simp only [modifyNode, List.length_modify] at within
      rw [node_modifyNode]
      have links := rooted.linked node within apart
      split
      · exact linked _ links
      · exact links
  reweigh := by
    intro self index change rooted
    exact ⟨rooted.frontier, rooted.linked⟩
  unrolled := by
    intro self rooted
    have unrolls := unrolls_unrolled self
    have length := unrolls.length
    refine ⟨?_, ?_⟩
    · rw [unrolls.frontier, length]
      exact Nat.lt_succ_self _
    · intro node within apart
      rw [unrolls.frontier] at apart
      rw [length] at within
      rw [unrolls.links (by omega)]
      split
      · exact List.cons_ne_nil _ _
      · rename_i elsewhere
        exact rooted.linked node (by omega) (fun same => elsewhere same.symm)

/-- Every graph a split reaches is rooted. -/
theorem Reached.rooted
    {lang : TFLanguage}
    {fuel : Nat}
    {state : TFSpecState}
    (reached : Reached lang fuel state) :
    state.spec.Rooted := by
  have both : state.spec.Sealed ∧ state.spec.Rooted := by
    refine reached.invariant (robust_sealed.and robust_rooted) ?_ ?_
    · intro before value after kept ran
      obtain ⟨recovers, sealed, _⟩ := materialize_recovers kept.1 ran
      refine ⟨sealed, ?_, ?_⟩
      · rw [recovers.frontier, recovers.nodes]
        exact kept.2.frontier
      · unfold TFSpec.node
        rw [recovers.frontier, recovers.nodes]
        exact kept.2.linked
    · intro graph begun
      refine ⟨begun.isSealed, ?_, ?_⟩
      · obtain ⟨node, nodes, _⟩ := begun.nodes
        rw [begun.frontier, nodes]
        exact Nat.zero_lt_one
      · obtain ⟨node, nodes, _⟩ := begun.nodes
        intro index within apart
        rw [nodes] at within
        rw [begun.frontier] at apart
        simp only [List.length_singleton] at within
        omega
  exact both.2

/-- What a merge needs of its graph. -/
structure Ready (graph : TFSpec) : Prop where
  linked : graph.Linked
  isSealed : graph.Sealed
  rooted : graph.Rooted
  spanning : graph.Spanning

namespace Ready

variable {graph : TFSpec}

/-- Every other node ends after the one that unrolling goes on from. -/
theorem lowest
    (ready : graph.Ready)
    {node : Nat}
    (within : node < graph.nodes.length) :
    node = graph.frontier ∨
      (graph.node graph.frontier).byte < (graph.node node).byte := by
  induction size : (graph.node node).byte using Nat.strongRecOn
    generalizing node with
  | ind size inductionHypothesis =>
      by_cases same : node = graph.frontier
      · exact Or.inl same
      · have links := ready.rooted.linked node within same
        obtain ⟨link, isLink⟩ := List.exists_mem_of_ne_nil _ links
        have less := ready.spanning node link isLink
        have below := (ready.linked.link isLink).1
        rw [size] at less
        rcases inductionHypothesis _ less below rfl with atBottom | higher
        · rw [atBottom] at less
          exact Or.inr less
        · exact Or.inr (Nat.lt_trans higher less)

end Ready

/-! ## Trees that read the same -/

/-- Trees that read the same on a link, whatever the unknown counts are. -/
inductive Matches (graph : TFSpec) (first second : Nat) : Prop where
  | same (same : first = second)
  | known
      (span :
        sameSpan (graph.tree first) (graph.tree second) = true)
      (firstKnown : (graph.tree first).isOpaque = false)
      (secondKnown : (graph.tree second).isOpaque = false)
      (children :
        (graph.tree first).children.length =
          (graph.tree second).children.length)

/-- A tree whose children become known reads the same. -/
theorem Reshaped.labelOf_eq
    {before after : TFSpecTree}
    (reshaped : Reshaped before after)
    (count : Nat) :
    labelOf after count = labelOf before count := by
  cases reshaped with
  | same same =>
      rw [same]
  | known children unknown shape =>
      rw [shape]
      rfl

/-- A known tree stays as it is. -/
theorem Reshaped.of_known
    {before after : TFSpecTree}
    (reshaped : Reshaped before after)
    (known : before.isOpaque = false) :
    after = before := by
  cases reshaped with
  | same same =>
      exact same
  | known children unknown shape =>
      rw [known] at unknown
      cases unknown

/-- Shapes become known one after another. -/
theorem Reshaped.trans
    {first second third : TFSpecTree}
    (later : Reshaped second third)
    (earlier : Reshaped first second) :
    Reshaped first third := by
  cases earlier with
  | same same =>
      rw [same] at later
      exact later
  | known children unknown shape =>
      have known : second.isOpaque = false := by
        rw [shape]
      rw [later.of_known known]
      exact .known children unknown shape

namespace Matches

variable {graph : TFSpec}
variable {first second third : Nat}

/-- A tree reads as itself. -/
theorem refl (tree : Nat) : Matches graph tree tree :=
  .same rfl

/-- Reading the same goes both ways. -/
theorem symm
    (matches_ : Matches graph first second) :
    Matches graph second first := by
  cases matches_ with
  | same same =>
      exact .same same.symm
  | known span firstKnown secondKnown children =>
      refine .known ?_ secondKnown firstKnown children.symm
      unfold sameSpan at span ⊢
      simp only [Bool.and_eq_true, beq_iff_eq] at span ⊢
      obtain ⟨⟨⟨symbol, extra⟩, padding⟩, size⟩ := span
      exact ⟨⟨⟨symbol.symm, extra.symm⟩, padding.symm⟩, size.symm⟩

/-- Reading the same is passed on. -/
theorem trans
    (earlier : Matches graph first second)
    (later : Matches graph second third) :
    Matches graph first third := by
  cases earlier with
  | same same =>
      rw [same]
      exact later
  | known span firstKnown secondKnown children =>
      cases later with
      | same same =>
          rw [← same]
          exact .known span firstKnown secondKnown children
      | known span' secondKnown' thirdKnown children' =>
          refine .known ?_ firstKnown thirdKnown (children.trans children')
          unfold sameSpan at span span' ⊢
          simp only [Bool.and_eq_true, beq_iff_eq] at span span' ⊢
          obtain ⟨⟨⟨symbol, extra⟩, padding⟩, size⟩ := span
          obtain ⟨⟨⟨symbol', extra'⟩, padding'⟩, size'⟩ := span'
          exact ⟨⟨⟨symbol.trans symbol', extra.trans extra'⟩,
            padding.trans padding'⟩, size.trans size'⟩

/-- Trees that read the same have one label. -/
theorem labels
    (matches_ : Matches graph first second)
    {counts : Nat → Nat}
    (counted : graph.Counted counts)
    (firstWithin : first < graph.trees.length)
    (secondWithin : second < graph.trees.length) :
    labelOf (graph.tree first) (counts first) =
      labelOf (graph.tree second) (counts second) := by
  cases matches_ with
  | same same =>
      rw [same]
  | known span firstKnown secondKnown children =>
      rw [counted first firstWithin firstKnown,
        counted second secondWithin secondKnown, children]
      unfold sameSpan at span
      simp only [Bool.and_eq_true, beq_iff_eq] at span
      obtain ⟨⟨⟨symbol, extra⟩, padding⟩, size⟩ := span
      unfold labelOf
      rw [symbol, extra, padding, size]

end Matches

/-! ## What merging leaves -/

/-- A later graph that has every link of an earlier one, and few more. -/
structure Enlarges (before after : TFSpec) : Prop where
  nodes : after.nodes.length = before.nodes.length
  state : ∀ node, (after.node node).state = (before.node node).state
  byte : ∀ node, (after.node node).byte = (before.node node).byte
  frontier : after.frontier = before.frontier
  prefixLeft : after.prefixLeft = before.prefixLeft
  owner : after.owner = before.owner
  heads : after.heads = before.heads
  limited : before.limited = true → after.limited = true
  length : before.trees.length ≤ after.trees.length
  trees :
    ∀ tree < before.trees.length,
      Reshaped (before.tree tree) (after.tree tree)
  /-- Every link is still there, perhaps with another tree. -/
  kept :
    ∀ node, ∀ link ∈ (before.node node).links,
      ∃ link' ∈ (after.node node).links,
        link'.node = link.node ∧ Matches after link.tree link'.tree
  /-- Every link was there, perhaps at another node of that state and byte. -/
  gained :
    ∀ node, ∀ link' ∈ (after.node node).links,
      ∃ source, Alike before node source ∧
        ∃ link ∈ (before.node source).links,
          link.node = link'.node ∧ Matches after link.tree link'.tree

/-- Trees that read the same still do so once more is known. -/
theorem Matches.later
    {before after : TFSpec}
    {first second : Nat}
    (matches_ : Matches before first second)
    (firstWithin : first < before.trees.length)
    (secondWithin : second < before.trees.length)
    (trees :
      ∀ tree < before.trees.length,
        Reshaped (before.tree tree) (after.tree tree)) :
    Matches after first second := by
  cases matches_ with
  | same same =>
      exact .same same
  | known span firstKnown secondKnown children =>
      have firstSame := (trees first firstWithin).of_known firstKnown
      have secondSame := (trees second secondWithin).of_known secondKnown
      refine .known ?_ ?_ ?_ ?_
      · rw [firstSame, secondSame]
        exact span
      · rw [firstSame]
        exact firstKnown
      · rw [secondSame]
        exact secondKnown
      · rw [firstSame, secondSame]
        exact children

/-- Trees that read the same do so in any graph with these trees. -/
theorem Matches.of_trees
    {before after : TFSpec}
    {first second : Nat}
    (matches_ : Matches before first second)
    (trees : after.trees = before.trees) :
    Matches after first second := by
  have same : ∀ tree, after.tree tree = before.tree tree := by
    intro tree
    unfold TFSpec.tree
    rw [trees]
  cases matches_ with
  | same same =>
      exact .same same
  | known span firstKnown secondKnown children =>
      refine .known ?_ ?_ ?_ ?_
      · rw [same, same]
        exact span
      · rw [same]
        exact firstKnown
      · rw [same]
        exact secondKnown
      · rw [same, same]
        exact children

namespace Enlarges

variable {first second third before after : TFSpec}

/-- A graph has its own links. -/
theorem refl (graph : TFSpec) : Enlarges graph graph where
  nodes := rfl
  state := fun _ => rfl
  byte := fun _ => rfl
  frontier := rfl
  prefixLeft := rfl
  owner := rfl
  heads := rfl
  limited := id
  length := Nat.le_refl _
  trees := fun _ _ => .same rfl
  kept := fun _ link isLink => ⟨link, isLink, rfl, .refl _⟩
  gained := fun node link isLink =>
    ⟨node, ⟨rfl, rfl⟩, link, isLink, rfl, .refl _⟩

/-- Likeness of nodes does not change. -/
theorem alike
    (enlarges : Enlarges before after)
    {node other : Nat} :
    Alike after node other ↔ Alike before node other := by
  constructor
  · rintro ⟨state, byte⟩
    rw [enlarges.state, enlarges.state] at state
    rw [enlarges.byte, enlarges.byte] at byte
    exact ⟨state, byte⟩
  · rintro ⟨state, byte⟩
    refine ⟨?_, ?_⟩
    · rw [enlarges.state, enlarges.state]
      exact state
    · rw [enlarges.byte, enlarges.byte]
      exact byte

/-- One enlargement after another. -/
theorem trans
    (later : Enlarges second third)
    (earlier : Enlarges first second)
    (firstLinked : first.Linked)
    (secondLinked : second.Linked) :
    Enlarges first third where
  nodes := later.nodes.trans earlier.nodes
  state := fun node => (later.state node).trans (earlier.state node)
  byte := fun node => (later.byte node).trans (earlier.byte node)
  frontier := later.frontier.trans earlier.frontier
  prefixLeft := later.prefixLeft.trans earlier.prefixLeft
  owner := later.owner.trans earlier.owner
  heads := later.heads.trans earlier.heads
  limited := later.limited ∘ earlier.limited
  length := Nat.le_trans earlier.length later.length
  trees := by
    intro tree within
    exact (later.trees tree
      (Nat.lt_of_lt_of_le within earlier.length)).trans
      (earlier.trees tree within)
  kept := by
    intro node link isLink
    obtain ⟨link', isLink', same, matches_⟩ := earlier.kept node link isLink
    obtain ⟨link'', isLink'', same', matches'⟩ :=
      later.kept node link' isLink'
    refine ⟨link'', isLink'', same'.trans same, ?_⟩
    have within := (firstLinked.link isLink).2
    have within' := (secondLinked.link isLink').2
    exact (matches_.later (Nat.lt_of_lt_of_le within earlier.length) within'
      later.trees).trans matches'
  gained := by
    intro node link'' isLink''
    obtain ⟨source', alike', link', isLink', same', matches'⟩ :=
      later.gained node link'' isLink''
    obtain ⟨source, alike, link, isLink, same, matches_⟩ :=
      earlier.gained source' link' isLink'
    have alikeFirst := earlier.alike.mp alike'
    refine ⟨source, ⟨alikeFirst.state.trans alike.state,
      alikeFirst.byte.trans alike.byte⟩, link, isLink, same.trans same', ?_⟩
    have within := (firstLinked.link isLink).2
    have within' := (secondLinked.link isLink').2
    exact (matches_.later (Nat.lt_of_lt_of_le within earlier.length) within'
      later.trees).trans matches'

/-- Recovering shapes changes no link. -/
theorem of_recovers
    (recovers : Recovers before after) :
    Enlarges before after := by
  have node : ∀ index, after.node index = before.node index := by
    intro index
    unfold TFSpec.node
    rw [recovers.nodes]
  refine ⟨?_, ?_, ?_, recovers.frontier, recovers.prefixLeft,
    recovers.owner, recovers.heads, ?_, recovers.length, recovers.trees,
    ?_, ?_⟩
  · rw [recovers.nodes]
  · intro index
    rw [node]
  · intro index
    rw [node]
  · rw [recovers.limited]
    exact id
  · intro index link isLink
    rw [node]
    exact ⟨link, isLink, rfl, .refl _⟩
  · intro index link isLink
    rw [node] at isLink
    exact ⟨index, ⟨rfl, rfl⟩, link, isLink, rfl, .refl _⟩

/-- Counts of the later graph are counts of the earlier one. -/
theorem counted
    (enlarges : Enlarges before after)
    {counts : Nat → Nat}
    (counted : after.Counted counts) :
    before.Counted counts := by
  intro tree within known
  have same := (enlarges.trees tree within).of_known known
  rw [← same]
  refine counted tree (Nat.lt_of_lt_of_le within enlarges.length) ?_
  rw [same]
  exact known

/-- Trees of the earlier graph read the same in the later one. -/
theorem labelOf_eq
    (enlarges : Enlarges before after)
    {tree : Nat}
    (within : tree < before.trees.length)
    (count : Nat) :
    labelOf (after.tree tree) count = labelOf (before.tree tree) count :=
  (enlarges.trees tree within).labelOf_eq count

/-- No tree spans less for it. -/
theorem spanning
    (enlarges : Enlarges before after)
    (spanning : before.Spanning) :
    after.Spanning := by
  intro node link' isLink'
  obtain ⟨source, alike, link, isLink, same, _⟩ :=
    enlarges.gained node link' isLink'
  rw [enlarges.byte, enlarges.byte, alike.byte, ← same]
  exact spanning source link isLink

/-- The cells that are not unrolled stay as they are. -/
theorem stackBelow_eq
    (enlarges : Enlarges before after)
    (counts : Nat → Nat) :
    after.stackBelow counts = before.stackBelow counts := by
  unfold stackBelow
  rw [enlarges.prefixLeft, enlarges.owner]

/-- A step down a link that reads the same. -/
theorem stepDown_eq
    (enlarges : Enlarges before after)
    {counts : Counts}
    (counted : after.Counted counts.trees)
    {node source : Nat}
    {link link' : TFSpecLink}
    (state : (before.node node).state = (before.node source).state)
    (matches_ : Matches after link.tree link'.tree)
    (within : link.tree < before.trees.length)
    (within' : link'.tree < after.trees.length) :
    after.stepDown counts node link' =
      before.stepDown counts source link := by
  unfold stepDown
  rw [enlarges.state, state,
    ← matches_.labels counted
      (Nat.lt_of_lt_of_le within enlarges.length) within',
    enlarges.labelOf_eq within]

/-- No stack is lost. -/
theorem leads
    (enlarges : Enlarges before after)
    (linked : before.Linked)
    (linked' : after.Linked)
    {counts : Counts}
    (counted : after.Counted counts.trees)
    {node : Nat}
    {stack : List Step}
    (leads : Leads before counts node stack) :
    Leads after counts node stack := by
  induction leads with
  | bottom =>
      rw [← enlarges.stackBelow_eq, ← enlarges.frontier]
      exact .bottom
  | @down node link rest isLink later inductionHypothesis =>
      obtain ⟨link', isLink', same, matches_⟩ :=
        enlarges.kept node link isLink
      rw [← enlarges.stepDown_eq counted rfl matches_
        (linked.link isLink).2 (linked'.link isLink').2]
      rw [← same] at inductionHypothesis
      exact .down isLink' inductionHypothesis

/-- Every stack gained comes from exchanging parts of others. -/
theorem exchanged
    (enlarges : Enlarges before after)
    (linked : before.Linked)
    (linked' : after.Linked)
    {counts : Counts}
    (counted : after.Counted counts.trees)
    {node : Nat}
    {stack : List Step}
    (leads : Leads after counts node stack) :
    Exchanged before counts node stack := by
  induction leads with
  | bottom =>
      rw [enlarges.stackBelow_eq, enlarges.frontier]
      exact .bottom
  | @down node link' rest isLink' later inductionHypothesis =>
      obtain ⟨source, alike, link, isLink, same, matches_⟩ :=
        enlarges.gained node link' isLink'
      rw [enlarges.stepDown_eq counted alike.state matches_
        (linked.link isLink).2 (linked'.link isLink').2]
      rw [← same] at inductionHypothesis
      exact .exchange alike (.down isLink inductionHypothesis)

end Enlarges

/-! ## Comparing links -/

section Comparing

variable {lang : TFLanguage}
variable {fuel : Nat}
variable {before after : TFSpecState}

/-- Recoveries one after another. -/
theorem Recovers.trans
    {first second third : TFSpec}
    (later : Recovers second third)
    (earlier : Recovers first second) :
    Recovers first third where
  nodes := later.nodes.trans earlier.nodes
  heads := later.heads.trans earlier.heads
  frontier := later.frontier.trans earlier.frontier
  prefixLeft := later.prefixLeft.trans earlier.prefixLeft
  owner := later.owner.trans earlier.owner
  limited := later.limited.trans earlier.limited
  length := Nat.le_trans earlier.length later.length
  trees := fun tree within =>
    (later.trees tree (Nat.lt_of_lt_of_le within earlier.length)).trans
      (earlier.trees tree within)

end Comparing

/-! ## Adding links -/

/-- A link some node of the target's state and byte has, or one like it. -/
structure Offered
    (graph : TFSpec)
    (target : Nat)
    (link : TFSpecLink) : Prop where
  node : link.node < graph.nodes.length
  tree : link.tree < graph.trees.length
  source :
    ∃ source, Alike graph target source ∧
      ∃ known ∈ (graph.node source).links,
        known.node = link.node ∧ Matches graph known.tree link.tree

/-- Every stack over a link can be read from the target afterwards. -/
def Covered
    (before after : TFSpec)
    (target : Nat)
    (link : TFSpecLink) : Prop :=
  ∀ counts : Counts, after.Counted counts.trees →
    ∀ rest, Leads before counts link.node rest →
      Leads after counts target (before.stepDown counts target link :: rest)

/-- What is offered is offered later. -/
theorem Offered.later
    {before after : TFSpec}
    {target : Nat}
    {link : TFSpecLink}
    (offered : Offered before target link)
    (enlarges : Enlarges before after)
    (linked : before.Linked) :
    Offered after target link := by
  obtain ⟨source, alike, known, isLink, same, matches_⟩ := offered.source
  obtain ⟨known', isLink', same', matches'⟩ :=
    enlarges.kept source known isLink
  refine ⟨?_, Nat.lt_of_lt_of_le offered.tree enlarges.length, source,
    enlarges.alike.mpr alike, known', isLink', same'.trans same, ?_⟩
  · rw [enlarges.nodes]
    exact offered.node
  · exact matches'.symm.trans
      (matches_.later (linked.link isLink).2 offered.tree enlarges.trees)

/-- A graph that is ready stays so. -/
theorem Ready.later
    {before after : TFSpec}
    (ready : before.Ready)
    (enlarges : Enlarges before after)
    (linked : after.Linked)
    (isSealed : after.Sealed) :
    after.Ready := by
  refine ⟨linked, isSealed, ⟨?_, ?_⟩, enlarges.spanning ready.spanning⟩
  · rw [enlarges.frontier, enlarges.nodes]
    exact ready.rooted.frontier
  · rw [enlarges.frontier, enlarges.nodes]
    intro node within apart
    have links := ready.rooted.linked node within apart
    obtain ⟨link, isLink⟩ := List.exists_mem_of_ne_nil _ links
    obtain ⟨link', isLink', _⟩ := enlarges.kept node link isLink
    exact List.ne_nil_of_mem isLink'

section Adding

variable {lang : TFLanguage}
variable {fuel : Nat}
variable {target : Nat}
variable {link : TFSpecLink}

/-- Changes of one node one after another. -/
theorem modifyNode_modifyNode
    (self : TFSpec)
    (index : Nat)
    (first second : TFSpecNode → TFSpecNode) :
    (self.modifyNode index first).modifyNode index second =
      self.modifyNode index (second ∘ first) := by
  unfold modifyNode
  simp only [List.modify_modify_eq]

/-- What is covered stays so. -/
theorem Covered.later
    {before middle after : TFSpec}
    (covered : Covered before middle target link)
    (enlarges : Enlarges middle after)
    (linked : middle.Linked)
    (linked' : after.Linked) :
    Covered before after target link := by
  intro counts counted rest leads
  exact enlarges.leads linked linked' counted
    (covered counts (enlarges.counted counted) rest leads)

/-- What is covered later was covered before. -/
theorem Covered.earlier
    {before middle after : TFSpec}
    (covered : Covered middle after target link)
    (enlarges : Enlarges before middle)
    (further : Enlarges middle after)
    (linked : before.Linked)
    (linked' : middle.Linked)
    (within : link.tree < before.trees.length) :
    Covered before after target link := by
  intro counts counted rest leads
  have middleCounted := further.counted counted
  have step :
      middle.stepDown counts target link =
        before.stepDown counts target link := by
    unfold stepDown
    rw [enlarges.state, enlarges.labelOf_eq within]
  rw [← step]
  exact covered counts counted rest
    (enlarges.leads linked linked' middleCounted leads)

/-- Recovering shapes leaves a graph ready. -/
theorem Ready.recovers
    {before after : TFSpec}
    (ready : before.Ready)
    (recovers : Recovers before after)
    (isSealed : after.Sealed) :
    after.Ready := by
  refine ready.later (.of_recovers recovers) ⟨?_, ?_⟩ isSealed
  · rw [recovers.nodes]
    intro node member link isLink
    obtain ⟨nodeWithin, treeWithin⟩ :=
      ready.linked.links node member link isLink
    exact ⟨nodeWithin, Nat.lt_of_lt_of_le treeWithin recovers.length⟩
  · rw [recovers.nodes, recovers.heads]
    exact ready.linked.heads

end Adding

/-! ## Merging heads -/

/-- The state a program leaves; one that stops leaves its own. -/
def leave {α : Type} (program : SpecM α) (state : TFSpecState) :
    TFSpecState :=
  match program state with
  | .ok (_, after) => after
  | .error _ => state

/-- What a program answers, if it does. -/
def answer? {α : Type} (program : SpecM α) (state : TFSpecState) :
    Option α :=
  match program state with
  | .ok (value, _) => some value
  | .error _ => none

/-- A program that answers leaves a state. -/
theorem ran_of_answer?
    {α : Type}
    {program : SpecM α}
    {state : TFSpecState}
    {value : α}
    (answers : answer? program state = some value) :
    program state = .ok (value, leave program state) := by
  unfold answer? at answers
  unfold leave
  cases ran : program state with
  | error stopped =>
      rw [ran] at answers
      cases answers
  | ok result =>
      rw [ran] at answers
      cases answers
      rfl

/-- What a split's program leaves is reached. -/
theorem Reached.leave
    {lang : TFLanguage}
    {fuel : Nat}
    {α : Type}
    {program : SpecM α}
    {before : TFSpecState}
    (reached : Reached lang fuel before)
    (turn : Turn (splitEnv lang fuel) program) :
    Reached lang fuel (TFSpec.leave program before) := by
  unfold TFSpec.leave
  cases ran : program before with
  | error stopped =>
      exact reached
  | ok result =>
      obtain ⟨value, after⟩ := result
      exact .turn reached turn ran

/-- A split over a stack of one cell, as it begins. -/
def loneCell : TFSpecState where
  spec :=
    TFSpec.zero.begin
      ⟨[⟨⟨2, false, 0, 1, .origin, ⟨0, 1⟩, none⟩, 3⟩], 1⟩
      ⟨1, 1, 2, ⟨0, 1⟩, ⟨0, 2⟩⟩ 3 false
  lexer := .init [97, 97] 2
  heap := .reliable

/-- Two heads over one inherited cell, which shifted different tokens. -/
def twoHeads : TFSpecState :=
  leave (shift 1 ⟨2, 1, 2, ⟨0, 1⟩, ⟨0, 2⟩⟩ 4 false)
    (leave (shift 0 ⟨1, 1, 2, ⟨0, 1⟩, ⟨0, 2⟩⟩ 4 false)
      (leave (pop 3 0 (some 0))
        (leave (newHead 0)
          (leave (addNode (forkNode loneCell.spec.owner))
            (leave (reserve .nodes 1) loneCell)))))

/-- Only the nodes of a graph have links that could span nothing. -/
theorem spanning_of_nodes
    {graph : TFSpec}
    (each :
      ∀ node < graph.nodes.length, ∀ link ∈ (graph.node node).links,
        (graph.node link.node).byte < (graph.node node).byte) :
    graph.Spanning := by
  intro node link isLink
  by_cases within : node < graph.nodes.length
  · exact each node within link isLink
  · rw [links_of_not_lt within] at isLink
    cases isLink

/-- A split reaches them. -/
theorem twoHeads_reached : Reached fieldedGrammar 5 twoHeads := by
  have begun :
      Reached fieldedGrammar 5
        (TFSpec.leave (newHead 0)
          (TFSpec.leave (addNode (forkNode loneCell.spec.owner))
            (TFSpec.leave (reserve .nodes 1) loneCell))) :=
    .begun (show reserve .nodes 1 loneCell = .ok ((), _) from rfl) rfl rfl
  have popped := begun.leave (.pop 3 0 (some 0))
  have first := popped.leave (.shift 0 ⟨1, 1, 2, ⟨0, 1⟩, ⟨0, 2⟩⟩ 4 false)
  exact first.leave (.shift 1 ⟨2, 1, 2, ⟨0, 1⟩, ⟨0, 2⟩⟩ 4 false)

end TFSpec

end TreeFeller
