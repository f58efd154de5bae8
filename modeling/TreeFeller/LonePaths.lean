import TreeFeller.GraftedRuns
import TreeFeller.StackRounds

namespace TreeFeller

open StatefulProgram

/-!
# The one path that a split is left with

When a single path leads down from the only head, popping it meets no fork: its
trees are those of the path, from the bottom of the graph up, and the graph
stays as it is.
-/

namespace TFSpec

open Program

/--
A chain of nodes with one link each: the trees of the links and the nodes above
the bottom, from the bottom up.
-/
inductive Chain (graph : TFSpec) : Nat → List Nat → List Nat → Prop where
  | bottom
      {node : Nat}
      (links : (graph.node node).links = []) :
      Chain graph node [] []
  | link
      {node : Nat}
      {link : TFSpecLink}
      {trees nodes : List Nat}
      (links : (graph.node node).links = [link])
      (below : Chain graph link.node trees nodes) :
      Chain graph node (trees ++ [link.tree]) (nodes ++ [node])

/-- A chain of the same nodes. -/
theorem Chain.same
    {before after : TFSpec}
    {node : Nat}
    {trees nodes : List Nat}
    (chain : Chain before node trees nodes)
    (same : after.nodes = before.nodes) :
    Chain after node trees nodes := by
  have sameNode : ∀ index, after.node index = before.node index := by
    intro index
    unfold TFSpec.node
    rw [same]
  induction chain with
  | bottom links =>
      refine .bottom ?_
      rw [sameNode]
      exact links
  | link links _ inductionHypothesis =>
      refine .link ?_ inductionHypothesis
      rw [sameNode]
      exact links

/-- Where a single path leads down, there is a chain. -/
theorem unique_chain
    {fuel node : Nat}
    {before after : TFSpecState}
    (ran : unique fuel node before = .ok (true, after)) :
    ∃ trees nodes, Chain before.spec node trees nodes := by
  unfold unique at ran
  induction fuel generalizing node with
  | zero =>
      cases ran
  | succ fuel inductionHypothesis =>
      obtain ⟨outcome, middle, turned, ran⟩ := Program.bind_eq_ok.mp ran
      obtain ⟨links, _, asked, turned⟩ := Program.bind_eq_ok.mp turned
      simp only [asks, Program.gets_apply, Except.ok.injEq,
        Prod.mk.injEq] at asked
      obtain ⟨isLinks, rfl⟩ := asked
      split at turned
      · exact ⟨[], [], .bottom isLinks⟩
      · rename_i link
        cases turned
        obtain ⟨trees, nodes, below⟩ := inductionHypothesis ran
        exact ⟨_, _, .link isLinks below⟩
      · cases turned
        cases ran

/-- The walk down a chain records its trees, and changes nothing. -/
theorem chainTurns_chain
    {fuel node count : Nat}
    {path trees nodes : List Nat}
    {answer : Bool}
    {before after : TFSpecState}
    (chain : Chain before.spec node trees nodes)
    (ran :
      Program.iterate .stuck (chainTurn none) fuel ⟨node, count, path⟩
          before =
        .ok (answer, after)) :
    answer = true ∧ SameGraph before.spec after.spec ∧
      after.spec.slices.map TFSpecSlice.children = [trees ++ path] := by
  induction chain generalizing fuel count path with
  | @bottom node links =>
      cases fuel with
      | zero =>
          cases ran
      | succ fuel =>
          obtain ⟨outcome, middle, turned, ran⟩ :=
            Program.bind_eq_ok.mp ran
          have over_ :
              before.spec.popEnds none node count = true := by
            unfold popEnds
            rw [links]
            rfl
          obtain ⟨rfl, capacity, heap, rfl⟩ := chainTurn_ends over_ turned
          cases ran
          exact ⟨rfl, ⟨rfl, rfl, rfl, rfl, rfl, rfl, rfl, rfl, rfl⟩, rfl⟩
  | @link node link trees nodes links below inductionHypothesis =>
      cases fuel with
      | zero =>
          cases ran
      | succ fuel =>
          obtain ⟨outcome, middle, turned, ran⟩ :=
            Program.bind_eq_ok.mp ran
          have goes :
              before.spec.popEnds none node count = false := by
            unfold popEnds
            rw [links]
            rfl
          rw [chainTurn_goes goes] at turned
          obtain ⟨_, read, settled, turned⟩ :=
            Program.bind_eq_ok.mp turned
          cases settled
          unfold chainOn at turned
          obtain ⟨found, _, asked, turned⟩ := Program.bind_eq_ok.mp turned
          simp only [asks, Program.gets_apply, Except.ok.injEq,
            Prod.mk.injEq] at asked
          obtain ⟨isFound, rfl⟩ := asked
          rw [links] at isFound
          subst isFound
          cases turned
          have onward := inductionHypothesis ran
          rw [List.append_assoc]
          exact onward

/-- A pop down a chain takes it as its one path. -/
theorem pop_chain
    {fuel version : Nat}
    {trees nodes : List Nat}
    {before after : TFSpecState}
    (chain :
      Chain before.spec (before.spec.head version).node trees nodes)
    (ran : pop fuel version none before = .ok ((), after)) :
    SameGraph before.spec after.spec ∧
      after.spec.slices.map TFSpecSlice.children = [trees] := by
  unfold pop at ran
  obtain ⟨_, cleared, clears, ran⟩ := Program.bind_eq_ok.mp ran
  cases clears
  obtain ⟨answer, chained, walks, ran⟩ := Program.bind_eq_ok.mp ran
  rw [popChain_eq] at walks
  obtain ⟨head, _, asked, walks⟩ := Program.bind_eq_ok.mp walks
  simp only [asks, Program.gets_apply, Except.ok.injEq,
    Prod.mk.injEq] at asked
  obtain ⟨rfl, rfl⟩ := asked
  have sameChain :
      Chain
        { before.spec with slices := [], edgeCount := 0 }
        (before.spec.head version).node trees nodes :=
    chain.same rfl
  obtain ⟨rfl, same, slices⟩ := chainTurns_chain sameChain walks
  cases ran
  rw [List.append_nil] at slices
  exact ⟨⟨same.trees, same.nodes, same.frontier, same.prefixLeft,
    same.prefixTree, same.captureId, same.materialized, same.captured,
    same.owner⟩, slices⟩

section Stacks

variable {lang : TFLanguage}
variable {ends roots : Nat → Prop}
variable {graph : TFSpec}
variable {node : Nat}
variable {trees nodes : List Nat}

/-- Down a chain, the trees are gone over from the frontier to the top. -/
theorem Stacked.chain_row
    (stacked : Stacked lang ends roots graph)
    (chain : Chain graph node trees nodes)
    (within : node < graph.nodes.length)
    (plain : ¬ ends node) :
    Replayable graph (graph.node graph.frontier).byte trees
      (graph.node node).byte := by
  induction chain with
  | @bottom node links =>
      have isFrontier : node = graph.frontier := by
        by_contra elsewhere
        exact stacked.rooted node within elsewhere links
      rw [isFrontier]
      exact .nil _
  | @link node link trees nodes links below inductionHypothesis =>
      have isLink : link ∈ (graph.node node).links := by
        rw [links]
        exact List.mem_singleton_self _
      have row :=
        inductionHypothesis (stacked.linked.link isLink).1
          (stacked.apart node link isLink)
      exact row.append (stacked.fits node plain link isLink).grown

/-- Each tree of a chain is on a link of the graph. -/
theorem Chain.linked
    (chain : Chain graph node trees nodes)
    {tree : Nat}
    (member : tree ∈ trees) :
    ∃ index, ∃ link ∈ (graph.node index).links, link.tree = tree := by
  induction chain with
  | bottom => cases member
  | @link node link trees nodes links below inductionHypothesis =>
      rcases List.mem_append.mp member with lower | top
      · exact inductionHypothesis lower
      · refine ⟨node, link, ?_, (List.mem_singleton.mp top).symm⟩
        rw [links]
        exact List.mem_singleton_self _

end Stacks

/-! ## The path of a split -/

/-- A split that is left with one path, down from its only head. -/
structure Lone
    (env : TFSpecEnv)
    (fork : TFSpecState)
    (forest : List Nat)
    (top : Nat)
    (after : TFSpecState) : Prop where
  stands :
    ∃ ends roots before head nodes,
      Explored env fork none ends roots before ∧
        before.spec.heads = [head] ∧ head.halted = false ∧
        head.node = top ∧ Chain before.spec top forest nodes ∧
        SameGraph before.spec after.spec

section Rounds

variable {env : TFSpecEnv}
variable {fork : TFSpecState}
variable {depth : Nat}
variable (tables : SpanningTables env.lang)
variable (isReplay : env.materialize = materialize env.lang depth)
variable (forks : Forks env.lang fork)

include tables isReplay forks

/-- The path that rounds come to is the only one. -/
theorem rounds_lone :
    Ensures (Idle env fork) (rounds env)
      (fun selection after =>
        ∀ forest top, selection = .path forest top →
          Lone env fork forest top after) := by
  let Waits : Nat → TFSpecState → Prop := fun _ => Idle env fork
  change Ensures (Waits 0) (rounds env) _
  unfold rounds
  refine Ensures.iterate ?_ env.fuel 0
  intro lastPosition start outcome final idle ran
  obtain ⟨position, advanced, advances, ran⟩ := Program.bind_eq_ok.mp ran
  have advancedIdle :=
    advanceHeads_covers tables isReplay forks _ _ _ _ idle advances
  obtain ⟨_, before, condenses, ran⟩ := Program.bind_eq_ok.mp ran
  obtain ⟨⟨ends, roots, explored⟩, going⟩ :=
    condense_covers isReplay _ _ _ advancedIdle condenses
  obtain ⟨found, _, asked, ran⟩ := Program.bind_eq_ok.mp ran
  simp only [asks, Program.gets_apply, Except.ok.injEq,
    Prod.mk.injEq] at asked
  obtain ⟨isFound, rfl⟩ := asked
  split at ran
  · cases ran
    intro _ _ isPath
    cases isPath
  · cases ran
    intro _ _ isPath
    cases isPath
  · rename_i head
    obtain ⟨single, same, looks, ran⟩ := Program.bind_eq_ok.mp ran
    have unchanged : same = before := unique_same _ _ _ _ _ looks
    rw [unchanged] at ran
    split at ran
    · rename_i isSingle
      rw [isSingle] at looks
      obtain ⟨trees, nodes, chain⟩ := unique_chain looks
      have alone : before.spec.heads = [head] :=
        congrArg Prod.snd isFound
      have isHead : (before.spec.head 0).node = head.node := by
        unfold TFSpec.head
        rw [alone]
        rfl
      obtain ⟨_, popped, pops, ran⟩ := Program.bind_eq_ok.mp ran
      have chainHere :
          Chain before.spec (before.spec.head 0).node trees nodes := by
        rw [isHead]
        exact chain
      obtain ⟨sameGraph, onlySlice⟩ := pop_chain chainHere pops
      obtain ⟨slices, _, asked, ran⟩ := Program.bind_eq_ok.mp ran
      simp only [asks, Program.gets_apply, Except.ok.injEq,
        Prod.mk.injEq] at asked
      obtain ⟨isSlices, rfl⟩ := asked
      split at ran
      · rename_i slice rest
        cases ran
        rintro forest top ⟨⟩
        rw [isSlices, List.map_cons, List.cons.injEq] at onlySlice
        rw [onlySlice.1]
        refine ⟨ends, roots, before, head, nodes, explored, alone, ?_, rfl,
          chain, sameGraph⟩
        refine going head ?_
        rw [alone]
        exact List.mem_singleton_self _
      · cases ran
    · cases ran
      exact ⟨ends, roots, explored⟩
  · cases ran
    exact ⟨ends, roots, explored⟩

/-- The path that a split comes to is the only one left. -/
theorem explore_lone
    {forest : List Nat}
    {top : Nat}
    {after : TFSpecState}
    (ran : explore env fork = .ok (.path forest top, after)) :
    Lone env fork forest top after := by
  unfold explore at ran
  obtain ⟨_, reserved, room, ran⟩ := Program.bind_eq_ok.mp ran
  obtain ⟨owner, _, asked, ran⟩ := Program.bind_eq_ok.mp ran
  simp only [asks, Program.gets_apply, Except.ok.injEq,
    Prod.mk.injEq] at asked
  obtain ⟨rfl, rfl⟩ := asked
  obtain ⟨first, placed, node, ran⟩ := Program.bind_eq_ok.mp ran
  obtain ⟨version, headed, head, ran⟩ := Program.bind_eq_ok.mp ran
  exact rounds_lone tables isReplay forks _ _ _
    ⟨_, _, .begun room node head⟩ ran forest top rfl

end Rounds

end TFSpec

end TreeFeller
