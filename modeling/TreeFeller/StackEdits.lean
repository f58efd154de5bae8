import TreeFeller.StackLinks

namespace TreeFeller

open StatefulProgram

/-!
# Edits of a graph of LR stacks

What each single edit of a split's programs leaves: the graph is still one of
LR stacks, and what was there before is there as it was.  A push is over a node
that is not for the end token; unrolling turns the cell below the frontier into
a link as the driver built it.
-/

namespace TFSpec

open Program

/-- A graph of LR stacks that came from another graph. -/
structure Stays
    (lang : TFLanguage)
    (ends roots : Nat → Prop)
    (base graph : TFSpec) : Prop where
  stacked : Stacked lang ends roots graph
  evolves : Evolves base graph

/-- A link that a node of the graph may be given. -/
structure Offers
    (lang : TFLanguage)
    (ends : Nat → Prop)
    (graph : TFSpec)
    (target : Nat)
    (link : TFSpecLink) : Prop where
  targetWithin : target < graph.nodes.length
  ordinary : ¬ ends target
  nodeWithin : link.node < graph.nodes.length
  treeWithin : link.tree < graph.trees.length
  below : ¬ ends link.node
  fits : Fits lang graph target link

section Edits

variable {lang : TFLanguage}
variable {ends roots : Nat → Prop}
variable {base before after : TFSpec}

/-- The graph itself. -/
theorem Stays.start
    (stacked : Stacked lang ends roots before) :
    Stays lang ends roots before before :=
  ⟨stacked, .refl _⟩

/-- One stretch after another. -/
theorem Stays.trans
    (later : Stays lang ends roots before after)
    (earlier : Evolves base before) :
    Stays lang ends roots base after :=
  ⟨later.stacked, later.evolves.trans earlier⟩

/-- What may be given may still be given later. -/
theorem Offers.evolves
    {target : Nat}
    {link : TFSpecLink}
    (offers : Offers lang ends before target link)
    (evolves : Evolves before after) :
    Offers lang ends after target link where
  targetWithin := Nat.lt_of_lt_of_le offers.targetWithin evolves.nodes
  ordinary := offers.ordinary
  nodeWithin := Nat.lt_of_lt_of_le offers.nodeWithin evolves.nodes
  treeWithin := Nat.lt_of_lt_of_le offers.treeWithin evolves.trees
  below := offers.below
  fits := offers.fits.evolves evolves offers.targetWithin
    offers.nodeWithin offers.treeWithin

/-- A node's own links may be given to it. -/
theorem Stacked.offers
    (stacked : Stacked lang ends roots before)
    {node : Nat}
    {link : TFSpecLink}
    (ordinary : ¬ ends node)
    (isLink : link ∈ (before.node node).links) :
    Offers lang ends before node link where
  targetWithin := Stacked.within_of_link isLink
  ordinary := ordinary
  nodeWithin := (stacked.linked.link isLink).1
  treeWithin := (stacked.linked.link isLink).2
  below := stacked.apart node link isLink
  fits := stacked.fits node ordinary link isLink

/-- And so they may to a node of the same state and byte. -/
theorem Offers.alike
    {source target : Nat}
    {link : TFSpecLink}
    (offers : Offers lang ends before source link)
    (within : target < before.nodes.length)
    (ordinary : ¬ ends target)
    (state : (before.node target).state = (before.node source).state)
    (byte : (before.node target).byte = (before.node source).byte) :
    Offers lang ends before target link where
  targetWithin := within
  ordinary := ordinary
  nodeWithin := offers.nodeWithin
  treeWithin := offers.treeWithin
  below := offers.below
  fits := by
    refine ⟨?_, ?_, offers.fits.padding, ?_, ?_⟩
    · rw [state]
      exact offers.fits.state
    · rw [byte]
      exact offers.fits.byte
    · rw [byte]
      exact offers.fits.spans
    · rw [byte]
      exact offers.fits.grown

/-- An edit that leaves nodes and trees alone. -/
theorem Stacked.aside
    (stacked : Stacked lang ends roots before)
    (same : SameGraph before after)
    (heads :
      ∀ head ∈ after.heads,
        head.node < before.nodes.length ∧
          (head.halted = false → ends head.node → Rebuilding roots)) :
    Stays lang ends roots before after := by
  have evolves := Evolves.of_same same.nodes same.trees same.owner
  have node : ∀ index, after.node index = before.node index := by
    intro index
    unfold TFSpec.node
    rw [same.nodes]
  refine ⟨stacked.later evolves (robust_sealed.aside same stacked.isSealed)
    (stacked.unrolling.evolves evolves same.owner same.frontier
      same.prefixLeft same.prefixTree) ?_ ?_ ?_ ?_ ?_ ?_, evolves⟩
  · intro index link isLink
    rw [node] at isLink
    exact Or.inl isLink
  · intro index
    rw [node]
    exact stacked.room index
  · intro index _ _ links
    rw [node]
    exact links
  · intro index within elsewhere _
    rw [node]
    rw [same.nodes] at within
    rw [same.frontier] at elsewhere
    exact stacked.rooted index within elsewhere
  · intro tree new reduced
    have within := reduced.within
    rw [same.trees] at within
    exact absurd within (Nat.not_lt.mpr new)
  · intro head member
    rw [same.nodes]
    exact heads head member

/-- An edit that leaves the heads alone as well. -/
theorem Stacked.beside
    (stacked : Stacked lang ends roots before)
    (same : SameGraph before after)
    (heads : after.heads = before.heads) :
    Stays lang ends roots before after := by
  refine stacked.aside same ?_
  rw [heads]
  exact stacked.ownHeads

/-- Another tree. -/
theorem evolves_tree
    (self : TFSpec)
    (tree : TFSpecTree) :
    Evolves self { self with trees := self.trees ++ [tree] } := by
  refine ⟨Nat.le_refl _, ?_, fun _ _ => rfl, fun _ _ => rfl, ?_, rfl⟩
  · simp only [List.length_append, List.length_singleton]
    omega
  · intro index within
    have appended :
        ({ self with trees := self.trees ++ [tree] } : TFSpec).tree index =
          if index = self.trees.length then tree else self.tree index :=
      tree_append rfl index
    rw [appended, if_neg (by omega)]
    exact .refl _

/-- Adding a tree, which spans its children if it is a reduction's. -/
theorem Stacked.addTree
    (stacked : Stacked lang ends roots before)
    {tree : TFSpecTree}
    (known : tree.isOpaque = false)
    (tiled :
      tree.leaf = false → tree.inherited = false →
        tree.structuralCount ≠ 0 → ¬ roots before.trees.length →
          Tiled before tree) :
    Stays lang ends roots before
      { before with trees := before.trees ++ [tree] } := by
  have evolves := evolves_tree before tree
  refine ⟨stacked.later evolves (robust_sealed.tree known stacked.isSealed)
    (stacked.unrolling.evolves evolves rfl rfl rfl rfl)
    (fun _ _ isLink => Or.inl isLink) stacked.room (fun _ _ _ links => links)
    (fun index within elsewhere _ => stacked.rooted index within elsewhere)
    ?_ stacked.ownHeads,
    evolves⟩
  intro index new reduced
  have within := reduced.within
  simp only [List.length_append, List.length_singleton] at within
  have last : index = before.trees.length := by omega
  subst last
  have isTree :
      ({ before with trees := before.trees ++ [tree] } : TFSpec).tree
          before.trees.length =
        tree := by
    rw [tree_append rfl, if_pos rfl]
  have inner := reduced.inner
  have own := reduced.own
  have counts := reduced.counts
  rw [isTree] at inner own counts ⊢
  exact (tiled inner own counts reduced.ordinary).evolves evolves
    (.refl _) own

/-- The nodes of a graph to which one is added. -/
theorem node_append
    (self : TFSpec)
    (added : TFSpecNode)
    (index : Nat) :
    ({ self with nodes := self.nodes ++ [added] } : TFSpec).node index =
      if index = self.nodes.length then added else self.node index := by
  unfold TFSpec.node
  dsimp only
  by_cases last : index = self.nodes.length
  · rw [if_pos last, last, List.getD_append_right _ _ _ _ (Nat.le_refl _)]
    simp
  · rw [if_neg last]
    by_cases within : index < self.nodes.length
    · rw [List.getD_append _ _ _ _ within]
    · rw [List.getD_eq_default, List.getD_eq_default]
      · omega
      · simp
        omega

/-- Another node. -/
theorem evolves_node
    (self : TFSpec)
    (node : TFSpecNode) :
    Evolves self { self with nodes := self.nodes ++ [node] } := by
  refine ⟨?_, Nat.le_refl _, ?_, ?_, fun _ _ => .refl _, rfl⟩
  · simp only [List.length_append, List.length_singleton]
    omega
  · intro index within
    rw [node_append, if_neg (by omega)]
  · intro index within
    rw [node_append, if_neg (by omega)]

/-- What pushing a tree on a node needs of both. -/
structure Pushes
    (ends : Nat → Prop)
    (graph : TFSpec)
    (previous tree : Nat) : Prop where
  nodeWithin : previous < graph.nodes.length
  treeWithin : tree < graph.trees.length
  below : ¬ ends previous

/-- Pushing a tree that begins where the node ends, into the state over it. -/
theorem Stacked.pushNode
    (stacked : Stacked lang ends roots before)
    {previous tree : Nat}
    {state : TSStateId}
    (pushes : Pushes ends before previous tree)
    (isState : state = before.stateOver lang ⟨previous, tree⟩)
    (padding :
      (before.tree tree).paddingStart = (before.node previous).byte)
    (spans :
      (before.node previous).byte < (before.tree tree).token.endByte)
    (grown :
      Replayable before (before.node previous).byte [tree]
        (before.tree tree).token.endByte) :
    Stays lang ends roots before
      { before with
        nodes := before.nodes ++
          [before.pushedNode previous tree state] } := by
  have evolves :=
    evolves_node before (before.pushedNode previous tree state)
  have within := pushes.nodeWithin
  refine ⟨stacked.later evolves
    (robust_sealed.node (by simp [pushedNode]) stacked.isSealed)
    (stacked.unrolling.evolves evolves rfl rfl rfl rfl) ?_ ?_ ?_ ?_ ?_ ?_,
    evolves⟩
  · intro index link isLink
    rw [node_append] at isLink
    split at isLink
    · rename_i last
      rw [List.mem_singleton.mp isLink]
      refine Or.inr ⟨?_, pushes.treeWithin, pushes.below, ?_, ?_⟩
      · simp only [List.length_append, List.length_singleton]
        exact Nat.lt_succ_of_lt within
      · intro isEnd
        have old := (stacked.ended index isEnd).2.1
        omega
      · have top :
            ({ before with
                nodes := before.nodes ++
                  [before.pushedNode previous tree state] } :
              TFSpec).node index =
              before.pushedNode previous tree state := by
          rw [node_append, if_pos last]
        have bottom :
            ({ before with
                nodes := before.nodes ++
                  [before.pushedNode previous tree state] } :
              TFSpec).node previous =
              before.node previous := by
          rw [node_append, if_neg (by omega)]
        refine ⟨?_, ?_, ?_, ?_, ?_⟩
        · rw [top]
          unfold stateOver at isState ⊢
          rw [bottom]
          exact isState
        · rw [top]
          rfl
        · rw [bottom]
          exact padding
        · rw [bottom, top]
          exact spans
        · rw [bottom, top]
          exact grown.evolves evolves
    · exact Or.inl isLink
  · intro index
    rw [node_append]
    split
    · exact ⟨Nat.le_refl _, (by decide : 1 ≤ tfSpecLinks)⟩
    · exact stacked.room index
  · intro index indexWithin _ links
    rw [node_append, if_neg (by omega)]
    exact links
  · intro index indexWithin elsewhere _
    rw [node_append]
    split
    · exact List.cons_ne_nil _ _
    · simp only [List.length_append, List.length_singleton] at indexWithin
      exact stacked.rooted index (by omega) elsewhere
  · intro index new reduced
    exact absurd reduced.within (Nat.not_lt.mpr new)
  · intro head member
    obtain ⟨headWithin, ordinary⟩ := stacked.ownHeads head member
    refine ⟨?_, ordinary⟩
    simp only [List.length_append, List.length_singleton]
    omega

/-- Pushing the end token: the new node joins those that are apart. -/
theorem Stacked.pushEnd
    (stacked : Stacked lang ends roots before)
    {previous tree : Nat}
    {state : TSStateId}
    (pushes : Pushes ends before previous tree)
    (isExtra : (before.tree tree).extra = true) :
    Stays lang (fun node => ends node ∨ node = before.nodes.length) roots
      before
      { before with
        nodes := before.nodes ++
          [before.pushedNode previous tree state] } := by
  have evolves :=
    evolves_node before (before.pushedNode previous tree state)
  have within := pushes.nodeWithin
  have low :
      ∀ {node}, node < before.nodes.length → ¬ ends node →
        ¬ (ends node ∨ node = before.nodes.length) := by
    intro node nodeWithin ordinary isEnd
    rcases isEnd with isEnd | isLast
    · exact ordinary isEnd
    · omega
  refine ⟨⟨?_, robust_sealed.node (by simp [pushedNode]) stacked.isSealed,
    ?_, ?_, ?_, ?_, ?_, ?_, ?_, ?_, ?_⟩, evolves⟩
  · refine ⟨?_, ?_⟩
    · intro node member link isLink
      simp only [List.length_append, List.length_singleton]
      rcases List.mem_append.mp member with old | new
      · obtain ⟨nodeWithin, treeWithin⟩ :=
          stacked.linked.links node old link isLink
        exact ⟨by omega, treeWithin⟩
      · rw [List.mem_singleton.mp new] at isLink
        rw [List.mem_singleton.mp isLink]
        exact ⟨Nat.lt_succ_of_lt within, pushes.treeWithin⟩
    · intro head member
      have headWithin := stacked.linked.heads head member
      simp only [List.length_append, List.length_singleton]
      omega
  · intro node link isLink
    rw [node_append] at isLink
    split at isLink
    · rw [List.mem_singleton.mp isLink]
      exact low within pushes.below
    · exact low (stacked.linked.link isLink).1
        (stacked.apart node link isLink)
  · intro node ordinary link isLink
    have notLast : node ≠ before.nodes.length :=
      fun isLast => ordinary (Or.inr isLast)
    rw [node_append, if_neg notLast] at isLink
    obtain ⟨nodeWithin, treeWithin⟩ := stacked.linked.link isLink
    exact (stacked.fits node (fun isEnd => ordinary (Or.inl isEnd)) link
      isLink).evolves evolves (Stacked.within_of_link isLink) nodeWithin
      treeWithin
  · intro node
    rw [node_append]
    split
    · exact ⟨Nat.le_refl _, (by decide : 1 ≤ tfSpecLinks)⟩
    · exact stacked.room node
  · intro index reduced
    have reducedBefore := reduced.earlier evolves reduced.within
    exact (stacked.tiled index reducedBefore).evolves evolves
      (.refl _) reducedBefore.own
  · intro node isEnd
    simp only [List.length_append, List.length_singleton]
    rcases isEnd with isEnd | rfl
    · obtain ⟨positive, nodeWithin, links⟩ := stacked.ended node isEnd
      refine ⟨positive, by omega, ?_⟩
      rw [node_append, if_neg (by omega)]
      exact links
    · refine ⟨by omega, by omega, ?_⟩
      rw [node_append, if_pos rfl]
      exact List.cons_ne_nil _ _
  · intro node isEnd link isLink
    rw [node_append] at isLink
    split at isLink
    · rw [List.mem_singleton.mp isLink]
      exact isExtra
    · rename_i other
      exact stacked.closed node (isEnd.resolve_right other) link isLink
  · intro node nodeWithin elsewhere
    rw [node_append]
    split
    · exact List.cons_ne_nil _ _
    · simp only [List.length_append, List.length_singleton] at nodeWithin
      exact stacked.rooted node (by omega) elsewhere
  · intro head member going isEnd
    rcases isEnd with isEnd | isLast
    · exact stacked.heads head member going isEnd
    · have within := stacked.linked.heads head member
      omega
  · have unrolling := stacked.unrolling
    have later : Unrolling lang ends
        { before with
          nodes := before.nodes ++
            [before.pushedNode previous tree state] } :=
      unrolling.evolves evolves rfl rfl rfl rfl
    exact ⟨later.stack, later.frontier,
      low unrolling.frontier unrolling.ordinary, later.left, later.state,
      later.byte, later.slots⟩

/-- Changing the links of a node, and neither its state nor its byte. -/
theorem evolves_modifyNode
    (self : TFSpec)
    (target : Nat)
    {change : TFSpecNode → TFSpecNode}
    (state : ∀ node, (change node).state = node.state)
    (byte : ∀ node, (change node).byte = node.byte) :
    Evolves self (self.modifyNode target change) := by
  refine ⟨?_, Nat.le_refl _, ?_, ?_, fun _ _ => .refl _, rfl⟩
  · simp [modifyNode]
  · intro index _
    rw [node_modifyNode]
    split
    · exact state _
    · rfl
  · intro index _
    rw [node_modifyNode]
    split
    · exact byte _
    · rfl

/-- Changing the links of a node to others that fit. -/
theorem Stacked.modifyNode
    (stacked : Stacked lang ends roots before)
    {target : Nat}
    {change : TFSpecNode → TFSpecNode}
    (state : ∀ node, (change node).state = node.state)
    (byte : ∀ node, (change node).byte = node.byte)
    (some_ : ∀ node, node.links ≠ [] → (change node).links ≠ [])
    (links :
      target < before.nodes.length →
        ∀ link ∈ (change (before.node target)).links,
          link ∈ (before.node target).links ∨
            Offers lang ends before target link)
    (room :
      target < before.nodes.length →
        (change (before.node target)).links.length ≤
            (change (before.node target)).linkCapacity ∧
          (change (before.node target)).linkCapacity ≤ tfSpecLinks) :
    Stays lang ends roots before (before.modifyNode target change) := by
  have evolves := evolves_modifyNode before target state byte
  refine ⟨stacked.later evolves
    (robust_sealed.relink some_ stacked.isSealed)
    (stacked.unrolling.evolves evolves rfl rfl rfl rfl) ?_ ?_ ?_ ?_ ?_ ?_,
    evolves⟩
  · intro index link isLink
    rw [node_modifyNode] at isLink
    split at isLink
    · rename_i here
      obtain ⟨rfl, within⟩ := here
      rcases links within link isLink with old | offers
      · exact Or.inl old
      · have later := offers.evolves evolves
        exact Or.inr ⟨later.nodeWithin, later.treeWithin, later.below,
          later.ordinary, later.fits⟩
    · exact Or.inl isLink
  · intro index
    rw [node_modifyNode]
    split
    · rename_i here
      obtain ⟨rfl, within⟩ := here
      exact room within
    · exact stacked.room index
  · intro index _ _ linked
    rw [node_modifyNode]
    split
    · exact some_ _ linked
    · exact linked
  · intro index within elsewhere _
    simp only [TFSpec.modifyNode, List.length_modify] at within
    have linked := stacked.rooted index within elsewhere
    rw [node_modifyNode]
    split
    · exact some_ _ linked
    · exact linked
  · intro tree new reduced
    exact absurd reduced.within (Nat.not_lt.mpr new)
  · intro head member
    simp only [TFSpec.modifyNode, List.length_modify]
    exact stacked.ownHeads head member

/-- Changing the precedence of a tree. -/
theorem Stacked.reweigh
    (stacked : Stacked lang ends roots before)
    (index : Nat)
    (change : TFSpecTree → Int) :
    Stays lang ends roots before
      (before.modifyTree index (fun tree =>
        { tree with precedence := change tree })) := by
  have length :
      (before.modifyTree index (fun tree =>
        { tree with precedence := change tree })).trees.length =
        before.trees.length := by
    simp [modifyTree]
  have evolves :
      Evolves before
        (before.modifyTree index (fun tree =>
          { tree with precedence := change tree })) := by
    refine ⟨Nat.le_refl _, Nat.le_of_eq length.symm, fun _ _ => rfl,
      fun _ _ => rfl, ?_, rfl⟩
    intro tree _
    rw [tree_modifyTree]
    split
    · exact ⟨rfl, rfl, rfl, rfl, rfl, rfl, fun _ => rfl⟩
    · exact .refl _
  refine ⟨stacked.later evolves (robust_sealed.reweigh stacked.isSealed)
    (stacked.unrolling.evolves evolves rfl rfl rfl rfl)
    (fun _ _ isLink => Or.inl isLink) stacked.room (fun _ _ _ links => links)
    (fun index within elsewhere _ => stacked.rooted index within elsewhere)
    ?_ stacked.ownHeads,
    evolves⟩
  intro tree new reduced
  have within := reduced.within
  rw [length] at within
  exact absurd within (Nat.not_lt.mpr new)

end Edits

end TFSpec

end TreeFeller
