import TreeFeller.Driver
import Mathlib.Data.List.GetD

namespace TreeFeller

open StatefulProgram

/-!
# The graph while the inherited stack is unrolled

A node's links may be read once the node is settled: it is in the graph, and it
is not the frontier under which stack cells are still to come.  Unrolling
settles the frontier and adds the node of the cell below it, whose links come
later.  Nothing that is settled changes by it, so a walk that unrolls on its
way sees one graph.
-/

namespace TFSpec

/-- A graph whose links lead to its own nodes, over its own trees. -/
structure Linked (spec : TFSpec) : Prop where
  links :
    ∀ node ∈ spec.nodes, ∀ link ∈ node.links,
      link.node < spec.nodes.length ∧ link.tree < spec.trees.length
  heads : ∀ head ∈ spec.heads, head.node < spec.nodes.length

/-- A node whose links unrolling leaves alone. -/
structure Settled (spec : TFSpec) (node : Nat) : Prop where
  inRange : node < spec.nodes.length
  unrolled : node = spec.frontier → spec.prefixLeft = 0

/-- A later graph that agrees with an earlier one on what was settled. -/
structure Grows (before after : TFSpec) : Prop where
  nodes : before.nodes.length ≤ after.nodes.length
  settled :
    ∀ node, before.Settled node →
      after.Settled node ∧
        (after.node node).links = (before.node node).links
  extras :
    ∀ tree < before.trees.length,
      tree < after.trees.length ∧
        (after.tree tree).extra = (before.tree tree).extra

namespace Grows

variable {first second third : TFSpec}

/-- A graph agrees with itself. -/
theorem refl (self : TFSpec) : Grows self self where
  nodes := Nat.le_refl _
  settled := fun _ settled => ⟨settled, rfl⟩
  extras := fun _ inRange => ⟨inRange, rfl⟩

end Grows

/-- A node of the graph is one of its nodes. -/
theorem node_mem
    {self : TFSpec}
    {node : Nat}
    (inRange : node < self.nodes.length) :
    self.node node ∈ self.nodes := by
  unfold TFSpec.node
  rw [List.getD_eq_getElem _ _ inRange]
  exact List.getElem_mem inRange

/-- A node outside the graph has no links. -/
theorem links_of_not_lt
    {self : TFSpec}
    {node : Nat}
    (outside : ¬ node < self.nodes.length) :
    (self.node node).links = [] := by
  unfold TFSpec.node
  rw [List.getD_eq_default _ _ (Nat.le_of_not_lt outside)]
  rfl

/-- The links of a linked graph lead into it. -/
theorem Linked.link
    {self : TFSpec}
    (linked : self.Linked)
    {node : Nat}
    {link : TFSpecLink}
    (member : link ∈ (self.node node).links) :
    link.node < self.nodes.length ∧ link.tree < self.trees.length := by
  by_cases inRange : node < self.nodes.length
  · exact linked.links _ (node_mem inRange) link member
  · rw [links_of_not_lt inRange] at member
    cases member

/-- What unrolling one cell makes of a graph. -/
structure Unrolls (before after : TFSpec) : Prop where
  nodes :
    ∃ bottom : TFSpecNode,
      bottom.links = [] ∧
        after.nodes =
          (before.nodes ++ [bottom]).modify before.frontier
            (fun node =>
              { node with
                links := [⟨before.nodes.length, before.trees.length⟩]
                linkCapacity := 1 })
  trees :
    after.trees.length = before.trees.length + 1 ∧
      ∀ tree < before.trees.length,
        (after.tree tree).extra = (before.tree tree).extra
  frontier : after.frontier = before.nodes.length
  prefixLeft : after.prefixLeft = before.prefixLeft - 1
  heads : after.heads = before.heads
  slices : after.slices = before.slices

/-- Resolving a shape changes no tree but for its children. -/
theorem extra_resolve
    (self : TFSpec)
    (k tree : Nat) :
    ((self.resolve k).tree tree).extra = (self.tree tree).extra := by
  unfold resolve modifyTree TFSpec.tree
  simp only [List.getD_eq_getElem?_getD, List.getElem?_modify]
  split
  · cases self.trees[tree]? <;> rfl
  · cases self.trees[tree]? <;> rfl

/-- Adding a tree. -/
theorem newTree_ran
    {tree : TFSpecTree}
    {before after : TFSpecState}
    {id : Nat}
    (ran : newTree tree before = .ok (id, after)) :
    ∃ capacity heap,
      id = before.spec.trees.length ∧
        after =
          { before with
            spec := { before.spec with
              trees := before.spec.trees ++ [tree]
              capacity := capacity }
            heap := heap } := by
  unfold newTree at ran
  obtain ⟨count, middle, asked, ran⟩ := Program.bind_eq_ok.mp ran
  cases asked
  split at ran
  · cases ran
  · obtain ⟨_, reserved, room, ran⟩ := Program.bind_eq_ok.mp ran
    obtain ⟨capacity, heap, rfl⟩ := reserve_eq_ok room
    obtain ⟨_, updated, added, ran⟩ := Program.bind_eq_ok.mp ran
    cases added
    cases ran
    exact ⟨capacity, heap, rfl, rfl⟩

/-- Adding a head. -/
theorem newHead_eq_ok
    {node : Nat}
    {before after : TFSpecState}
    {version : Nat}
    (ran : newHead node before = .ok (version, after)) :
    ∃ capacity heap,
      version = before.spec.heads.length ∧
        after =
          { before with
            spec := { before.spec with
              heads := before.spec.heads ++ [⟨node, false, false⟩]
              capacity := capacity }
            heap := heap } := by
  unfold newHead at ran
  obtain ⟨count, middle, asked, ran⟩ := Program.bind_eq_ok.mp ran
  cases asked
  obtain ⟨_, reserved, room, ran⟩ := Program.bind_eq_ok.mp ran
  obtain ⟨capacity, heap, rfl⟩ := reserve_eq_ok room
  obtain ⟨_, updated, added, ran⟩ := Program.bind_eq_ok.mp ran
  cases added
  cases ran
  exact ⟨capacity, heap, rfl, rfl⟩

/-- Taking link slots. -/
theorem newLinks_eq_ok
    {count : Nat}
    {before after : TFSpecState}
    (ran : newLinks count before = .ok ((), after)) :
    ∃ capacity heap,
      after =
        { before with
          spec := { before.spec with
            linkCount := before.spec.linkCount + count
            capacity := capacity }
          heap := heap } := by
  unfold newLinks at ran
  obtain ⟨used, middle, asked, ran⟩ := Program.bind_eq_ok.mp ran
  cases asked
  obtain ⟨_, reserved, room, ran⟩ := Program.bind_eq_ok.mp ran
  obtain ⟨capacity, heap, rfl⟩ := reserve_eq_ok room
  cases ran
  exact ⟨capacity, heap, rfl⟩

/-- A shape that is resolved on the way changes nothing else. -/
theorem Unrolls.resolve
    {before after : TFSpec}
    (unrolls : Unrolls before after)
    (k : Nat) :
    Unrolls before (after.resolve k) where
  nodes := unrolls.nodes
  trees := by
    refine ⟨?_, ?_⟩
    · rw [← unrolls.trees.1]
      simp [TFSpec.resolve, modifyTree]
    · intro tree inRange
      rw [extra_resolve]
      exact unrolls.trees.2 tree inRange
  frontier := unrolls.frontier
  prefixLeft := unrolls.prefixLeft
  heads := unrolls.heads
  slices := unrolls.slices

/-- The graph once one more cell is unrolled. -/
def unrolled (self : TFSpec) : TFSpec :=
  let index := self.prefixLeft - 1
  let cells := self.owner.cells
  let below := cells.take index
  let tree := self.trees.length
  let bottom := self.nodes.length
  let node : TFSpecNode := {
    state := stateAt cells index
    byte := topByte below
    point := topPoint below
    precedence := 0
    links := []
    linkCapacity := 0
  }
  let spec := { self with
    trees :=
      self.trees ++
        [inheritedTree (cells.getD index default).node (topByte below)]
    prefixTree := self.prefixTree ++ [tree]
    linkCount := self.linkCount + 1
    nodes :=
      (self.nodes ++ [node]).modify self.frontier (fun node =>
        { node with links := [⟨bottom, tree⟩], linkCapacity := 1 })
    frontier := bottom
    prefixLeft := index }
  if self.materialized && self.captured then
    spec.resolve self.prefixTree.length
  else
    spec

/-- Unrolling one cell changes nothing but the graph and what is reserved. -/
theorem extend_eq_ok
    {before after : TFSpecState}
    (ran : extend before = .ok ((), after)) :
    ∃ capacity heap,
      after =
        { before with
          spec := before.spec.unrolled.withCapacity capacity
          heap := heap } := by
  unfold extend at ran
  obtain ⟨index, _, asked, ran⟩ := Program.bind_eq_ok.mp ran
  cases asked
  obtain ⟨cells, _, asked, ran⟩ := Program.bind_eq_ok.mp ran
  cases asked
  dsimp only at ran
  obtain ⟨tree, _, made, ran⟩ := Program.bind_eq_ok.mp ran
  obtain ⟨capacity, heap, rfl, rfl⟩ := newTree_ran made
  obtain ⟨taken, _, asked, ran⟩ := Program.bind_eq_ok.mp ran
  cases asked
  obtain ⟨_, _, room, ran⟩ := Program.bind_eq_ok.mp ran
  obtain ⟨capacity, heap, rfl⟩ := reserve_eq_ok room
  obtain ⟨taken, _, asked, ran⟩ := Program.bind_eq_ok.mp ran
  cases asked
  obtain ⟨_, _, room, ran⟩ := Program.bind_eq_ok.mp ran
  obtain ⟨capacity, heap, rfl⟩ := reserve_eq_ok room
  obtain ⟨_, _, noted, ran⟩ := Program.bind_eq_ok.mp ran
  cases noted
  obtain ⟨_, _, linked, ran⟩ := Program.bind_eq_ok.mp ran
  obtain ⟨capacity, heap, rfl⟩ := newLinks_eq_ok linked
  obtain ⟨bottom, _, added, ran⟩ := Program.bind_eq_ok.mp ran
  cases added
  obtain ⟨_, _, joined, ran⟩ := Program.bind_eq_ok.mp ran
  cases joined
  obtain ⟨known, _, asked, ran⟩ := Program.bind_eq_ok.mp ran
  cases asked
  refine ⟨capacity, heap, ?_⟩
  unfold unrolled
  have length :
      (before.spec.prefixTree ++ [before.spec.trees.length]).length - 1 =
        before.spec.prefixTree.length := by
    simp
  split at ran
  · rename_i known
    rw [if_pos (show
      (before.spec.materialized && before.spec.captured) = true from known)]
    obtain ⟨_, same⟩ := Prod.mk.inj (Except.ok.inj ran)
    rw [← same]
    change
      (⟨TFSpec.resolve _
          ((before.spec.prefixTree ++
            [before.spec.trees.length]).length - 1), _, _⟩ :
        TFSpecState) = _
    rw [length]
    rfl
  · rename_i unknown
    rw [if_neg (show
      ¬ (before.spec.materialized && before.spec.captured) = true from
        unknown)]
    cases ran
    rfl

/-- What unrolling makes of a graph. -/
theorem unrolls_unrolled (self : TFSpec) :
    Unrolls self self.unrolled := by
  have trees :
      ∀ tree < self.trees.length,
        ∀ added : TFSpecTree,
          ((self.trees ++ [added]).getD tree default).extra =
            (self.tree tree).extra := by
    intro tree inRange added
    rw [List.getD_append _ _ _ _ inRange]
    rfl
  unfold unrolled
  dsimp only
  split
  · refine Unrolls.resolve ?_ _
    exact ⟨⟨_, rfl, rfl⟩, ⟨List.length_append, fun tree inRange =>
      trees tree inRange _⟩, rfl, rfl, rfl, rfl⟩
  · exact ⟨⟨_, rfl, rfl⟩, ⟨List.length_append, fun tree inRange =>
      trees tree inRange _⟩, rfl, rfl, rfl, rfl⟩

/-- Unrolling one cell. -/
theorem extend_unrolls
    {before after : TFSpecState}
    (ran : extend before = .ok ((), after)) :
    Unrolls before.spec after.spec := by
  obtain ⟨capacity, heap, rfl⟩ := extend_eq_ok ran
  have unrolls := unrolls_unrolled before.spec
  exact ⟨unrolls.nodes, unrolls.trees, unrolls.frontier,
    unrolls.prefixLeft, unrolls.heads, unrolls.slices⟩

namespace Unrolls

variable {before after : TFSpec}

/-- One more node. -/
theorem length (unrolls : Unrolls before after) :
    after.nodes.length = before.nodes.length + 1 := by
  obtain ⟨bottom, _, nodes⟩ := unrolls.nodes
  rw [nodes]
  simp

/-- Only the frontier's links change. -/
theorem links
    (unrolls : Unrolls before after)
    {node : Nat}
    (inRange : node < before.nodes.length) :
    (after.node node).links =
      if before.frontier = node then
        [⟨before.nodes.length, before.trees.length⟩]
      else
        (before.node node).links := by
  obtain ⟨bottom, _, nodes⟩ := unrolls.nodes
  unfold TFSpec.node
  rw [nodes, List.getD_eq_getElem?_getD, List.getD_eq_getElem?_getD,
    List.getElem?_modify, List.getElem?_append_left inRange,
    List.getElem?_eq_getElem inRange]
  split <;> rfl

/-- What was settled stays as it is. -/
theorem grows
    (unrolls : Unrolls before after)
    (left : before.prefixLeft ≠ 0) :
    Grows before after where
  nodes := by
    rw [unrolls.length]
    exact Nat.le_succ _
  settled := by
    intro node settled
    have inRange := settled.inRange
    have apart : before.frontier ≠ node :=
      fun same => left (settled.unrolled same.symm)
    refine ⟨⟨?_, ?_⟩, ?_⟩
    · rw [unrolls.length]
      omega
    · intro same
      rw [unrolls.frontier] at same
      omega
    · rw [unrolls.links inRange, if_neg apart]
  extras := by
    intro tree inRange
    refine ⟨?_, unrolls.trees.2 tree inRange⟩
    rw [unrolls.trees.1]
    omega

/-- The graph stays linked. -/
theorem linked
    (unrolls : Unrolls before after)
    (linked : before.Linked) :
    after.Linked where
  links := by
    obtain ⟨bottom, noLinks, nodes⟩ := unrolls.nodes
    rw [unrolls.length, unrolls.trees.1]
    intro node member link isLink
    obtain ⟨index, inRange, rfl⟩ := List.mem_iff_getElem.mp member
    have entry :
        after.nodes[index]? =
          (before.nodes ++ [bottom])[index]?.map
            (fun node =>
              if before.frontier = index then
                { node with
                  links := [⟨before.nodes.length, before.trees.length⟩]
                  linkCapacity := 1 }
              else
                node) := by
      rw [nodes, List.getElem?_modify]
      split <;> simp
    rw [List.getElem?_eq_getElem inRange] at entry
    obtain ⟨old, isOld, same⟩ := Option.map_eq_some_iff.mp entry.symm
    rw [← same] at isLink
    split at isLink
    · rw [List.mem_singleton.mp isLink]
      exact ⟨Nat.lt_succ_self _, Nat.lt_succ_self _⟩
    · rcases List.mem_append.mp (List.mem_of_getElem? isOld) with
        within | bottomNode
      · obtain ⟨nodeRange, treeRange⟩ :=
          linked.links old within link isLink
        exact ⟨Nat.lt_succ_of_lt nodeRange, Nat.lt_succ_of_lt treeRange⟩
      · rw [List.mem_singleton.mp bottomNode, noLinks] at isLink
        cases isLink
  heads := by
    rw [unrolls.heads, unrolls.length]
    intro head member
    exact Nat.lt_succ_of_lt (linked.heads head member)

/-- The frontier is settled by it. -/
theorem settles
    (unrolls : Unrolls before after)
    (inRange : before.frontier < before.nodes.length) :
    after.Settled before.frontier where
  inRange := by
    rw [unrolls.length]
    omega
  unrolled := by
    intro same
    rw [unrolls.frontier] at same
    omega

end Unrolls

/-- What reading a node on a walk may change: more of the stack is unrolled. -/
structure WalkReads (before after : TFSpec) : Prop where
  grows : Grows before after
  linked : before.Linked → after.Linked
  heads : after.heads = before.heads
  slices : after.slices = before.slices

/-- Nothing at all. -/
theorem WalkReads.refl (self : TFSpec) : WalkReads self self :=
  ⟨.refl _, id, rfl, rfl⟩

/-- Unrolling below a node of the graph settles it. -/
theorem unroll_reads
    {node : Nat}
    {before after : TFSpecState}
    (ran : unroll node before = .ok ((), after))
    (inRange : node < before.spec.nodes.length) :
    WalkReads before.spec after.spec ∧ after.spec.Settled node := by
  unfold unroll at ran
  obtain ⟨atFrontier, _, asked, ran⟩ := Program.bind_eq_ok.mp ran
  cases asked
  split at ran
  · rename_i atFrontier
    simp only [Bool.and_eq_true, decide_eq_true_eq] at atFrontier
    obtain ⟨same, left⟩ := atFrontier
    have unrolls := extend_unrolls ran
    subst same
    exact ⟨⟨unrolls.grows left, unrolls.linked, unrolls.heads,
      unrolls.slices⟩, unrolls.settles inRange⟩
  · rename_i elsewhere
    cases ran
    refine ⟨.refl _, inRange, ?_⟩
    intro same
    by_contra left
    exact elsewhere (by simp [same, left])

end TFSpec

end TreeFeller
