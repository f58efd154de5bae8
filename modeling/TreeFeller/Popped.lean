import TreeFeller.Merging

namespace TreeFeller

open StatefulProgram

/-!
# What a pop produces

A pop of a graph that a split reaches enumerates the paths from its head: one
slice for each, under one new head for each end, in the order of the heads.
-/

namespace TFSpec

open Program BreadthFirst

/-- The graph a pop walks: no slices yet, and no edges taken. -/
def cleared (self : TFSpecState) : TFSpecState :=
  { self with spec := { self.spec with slices := [], edgeCount := 0 } }

/-- What a pop leaves if it had room for all that it came to. -/
structure Popped
    (goal : Option Nat)
    (version : Nat)
    (before after : TFSpec) : Prop where
  /--
  The slices are the paths of the graph before, each once, and their trees are
  in source order.
  -/
  paths :
    ∃ paths : List (List Hop),
      paths.Nodup ∧
        (∀ path,
          path ∈ paths ↔
            before.IsPath goal (before.head version).node path) ∧
        List.Perm after.slicePaths
          (paths.map (entryOf (before.head version).node))
  /-- The graph is the same, with more of the stack unrolled. -/
  unrolled :
    ∃ cells ≤ before.prefixLeft,
      after.ground = TFSpec.unrolled^[cells] before.ground
  /-- The heads there were stay as they were. -/
  kept : after.heads.take before.heads.length = before.heads
  /-- The slices have new heads. -/
  fresh :
    ∀ slice ∈ after.slices,
      before.heads.length ≤ slice.version ∧
        slice.version < after.heads.length
  /-- Slices share a head exactly if they end at the same node. -/
  shared :
    ∀ first ∈ after.slices, ∀ second ∈ after.slices,
      (after.head first.version).node = (after.head second.version).node ↔
        first.version = second.version
  /-- Versions never decrease along the list. -/
  ordered : (after.slices.map TFSpecSlice.version).Pairwise (· ≤ ·)
  /-- Slices that share a head stand together. -/
  together :
    ∀ front first middle second back,
      after.slices = front ++ first :: (middle ++ second :: back) →
      first.version = second.version →
        ∀ between ∈ middle, between.version = first.version

/-- The heads of a pop's slices are told apart by their nodes. -/
theorem Sliced.shared
    {base : List TFSpecHead}
    {ends : List Nat}
    {spec : TFSpec}
    (sliced : Sliced base ends spec)
    {first second : TFSpecSlice}
    (isFirst : first ∈ spec.slices)
    (isSecond : second ∈ spec.slices) :
    (spec.head first.version).node = (spec.head second.version).node ↔
      first.version = second.version := by
  refine ⟨fun same => ?_, fun same => by rw [same]⟩
  have place :
      ∀ slice ∈ spec.slices, ∃ index, ∃ inRange : index < ends.length,
        slice.version = base.length + index ∧
          (spec.head slice.version).node = ends[index] := by
    intro slice member
    obtain ⟨above, below⟩ :=
      (sliced.versions slice.version).mp (List.mem_map_of_mem member)
    refine ⟨slice.version - base.length, by omega, by omega, ?_⟩
    unfold TFSpec.head
    rw [sliced.heads, List.getD_append_right _ _ _ _ above,
      List.getD_eq_getElem _ _ (by rw [List.length_map]; omega),
      List.getElem_map]
  obtain ⟨i, iRange, isVersion, isNode⟩ := place first isFirst
  obtain ⟨j, jRange, isVersion', isNode'⟩ := place second isSecond
  rw [isNode, isNode'] at same
  have indices := (sliced.distinct.getElem_inj_iff).mp same
  omega

/-- Equal versions stand together where versions never decrease. -/
theorem together_of_ordered
    {slices front middle back : List TFSpecSlice}
    {first second between : TFSpecSlice}
    (ordered : (slices.map TFSpecSlice.version).Pairwise (· ≤ ·))
    (split : slices = front ++ first :: (middle ++ second :: back))
    (same : first.version = second.version)
    (member : between ∈ middle) :
    between.version = first.version := by
  rw [split, List.map_append, List.pairwise_append] at ordered
  have behind := ordered.2.1
  rw [List.map_cons, List.pairwise_cons] at behind
  have atLeast :=
    behind.1 between.version
      (List.mem_map_of_mem (List.mem_append_left _ member))
  have rest := behind.2
  rw [List.map_append, List.pairwise_append] at rest
  have atMost :=
    rest.2.2 between.version (List.mem_map_of_mem member) second.version
      (by simp)
  omega

/-- What the slices and heads of a walk that is over amount to. -/
theorem popped_of_sliced
    {goal : Option Nat}
    {version n : Nat}
    {before after : TFSpec}
    {ends : List Nat}
    (unwound : Unwound goal before after)
    (sliced : Sliced before.heads ends after)
    (isOver : layers (before.steps goal (before.head version).node) n = [])
    (recorded :
      List.Perm after.slicePaths
        ((found (before.steps goal (before.head version).node)
            (before.arrived goal (before.head version).node) n).map
          (entryOf (before.head version).node))) :
    Popped goal version before after where
  paths := by
    refine ⟨_, nodup_found (nodup_steps before goal _), ?_, recorded⟩
    intro path
    rw [mem_found isOver, isPath_iff]
  unrolled := unwound.cells
  kept := by
    rw [sliced.heads]
    exact List.take_left
  fresh := by
    intro slice member
    obtain ⟨above, below⟩ :=
      (sliced.versions slice.version).mp (List.mem_map_of_mem member)
    refine ⟨above, ?_⟩
    rw [sliced.heads, List.length_append, List.length_map]
    exact below
  shared := fun _ isFirst _ isSecond => sliced.shared isFirst isSecond
  ordered := sliced.sorted
  together := fun _ _ _ _ _ split same _ member =>
    together_of_ordered sliced.sorted split same member

/-- A pop that has room for all its iterators enumerates the paths. -/
theorem pop_spec
    {fuel version : Nat}
    {goal : Option Nat}
    {before after : TFSpecState}
    (ran : pop fuel version goal before = .ok ((), after))
    (room :
      Within (before.spec.steps goal (before.spec.head version).node)
        tfSpecIterators)
    (linked : before.spec.Linked)
    (within :
      (before.spec.head version).node < before.spec.nodes.length) :
    Popped goal version before.spec after.spec := by
  have linkedStart : (cleared before).spec.Linked :=
    ⟨linked.links, linked.heads⟩
  unfold pop at ran
  obtain ⟨_, begun, clears, ran⟩ := Program.bind_eq_ok.mp ran
  have isBegun : begun = cleared before := by
    cases clears
    rfl
  subst isBegun
  obtain ⟨answer, chainedState, chained, ran⟩ := Program.bind_eq_ok.mp ran
  rw [popChain_eq] at chained
  obtain ⟨head, _, asked, chained⟩ := Program.bind_eq_ok.mp chained
  simp only [asks, Program.gets_apply, Except.ok.injEq,
    Prod.mk.injEq] at asked
  obtain ⟨rfl, rfl⟩ := asked
  have spec := chainTurns_spec chained linkedStart within
  have clear : Unwound goal before.spec (cleared before).spec :=
    .of_ground rfl
  have begins : endOf (before.spec.head version).node [] < _ := within
  have isStart :
      layers (before.spec.steps goal (before.spec.head version).node) 0 =
        [[]] :=
    rfl
  obtain ⟨unwound, recorded⟩ :=
    chainTurns_paths chained clear linkedStart begins isStart rfl
  cases answer with
  | true =>
      cases ran
      obtain ⟨ends, sliced⟩ := spec.ended rfl
      obtain ⟨n, isOver, paths⟩ := recorded rfl
      exact popped_of_sliced unwound sliced isOver (List.Perm.of_eq paths)
  | false =>
      obtain ⟨sameHeads, noSlices⟩ := spec.forked rfl
      rw [if_neg Bool.false_ne_true, popPaths_eq] at ran
      obtain ⟨head, _, asked, ran⟩ := Program.bind_eq_ok.mp ran
      simp only [asks, Program.gets_apply, Except.ok.injEq,
        Prod.mk.injEq] at asked
      obtain ⟨rfl, rfl⟩ := asked
      have sameHead :
          chainedState.spec.head version = before.spec.head version := by
        unfold TFSpec.head
        rw [sameHeads]
        rfl
      rw [sameHead] at ran
      have empty : chainedState.spec.slicePaths = [] := by
        unfold slicePaths
        rw [noSlices]
        rfl
      have sliced : Sliced before.spec.heads [] chainedState.spec := by
        have empty : Sliced chainedState.spec.heads [] chainedState.spec :=
          Sliced.empty noSlices
        rw [sameHeads] at empty
        exact empty
      obtain ⟨walked, n, isOver, paths⟩ :=
        popTurns_spec (n := 0) ran ⟨unwound, spec.linked, [], sliced⟩ room
          (by
            intro path member
            rw [List.mem_singleton.mp member]
            exact Nat.lt_of_lt_of_le within spec.nodes)
          (List.Perm.of_eq empty)
      obtain ⟨ends, slicedAfter⟩ := walked.sliced
      exact popped_of_sliced walked.unwound slicedAfter isOver paths

/-- Where no fork is met, the fast path and the walk leave the same graph. -/
theorem popChain_popPaths
    {fuel fuel' version : Nat}
    {goal : Option Nat}
    {answer : Bool}
    {before first second : TFSpecState}
    (fast :
      popChain fuel version goal (cleared before) = .ok (answer, first))
    (slow :
      popPaths fuel' version goal (cleared before) = .ok ((), second))
    (linked : before.spec.Linked)
    (within :
      (before.spec.head version).node < before.spec.nodes.length)
    (unforked :
      Unforked (before.spec.steps goal (before.spec.head version).node)) :
    first.spec.bare = second.spec.bare := by
  have linkedStart : (cleared before).spec.Linked :=
    ⟨linked.links, linked.heads⟩
  have clear : Unwound goal before.spec (cleared before).spec :=
    .of_ground rfl
  rw [popChain_eq] at fast
  obtain ⟨head, _, asked, fast⟩ := Program.bind_eq_ok.mp fast
  cases asked
  rw [popPaths_eq] at slow
  obtain ⟨head, _, asked, slow⟩ := Program.bind_eq_ok.mp slow
  cases asked
  have begins : endOf (before.spec.head version).node [] < _ := within
  exact chainTurns_popTurns fast slow rfl rfl clear linkedStart begins .nil
    unforked

/--
Popping a graph that a split reaches ends where the graph has no cycle, and
produces exactly the paths as long as the search for them never holds as many
iterators as there are slots.  Where the search comes to no fork, the fast path
and the breadth-first walk give the same slices, trees, nodes and heads.
-/
theorem pop_enumerates
    {lang : TFLanguage}
    {budget version : Nat}
    {goal : Option Nat}
    {before : TFSpecState}
    (reached : Reached lang budget before)
    (acyclic : before.spec.Acyclic)
    (known : version < before.spec.heads.length) :
    (∃ height, ∀ fuel, height < fuel →
      pop fuel version goal before ≠ .error .stuck) ∧
    (∀ fuel after, pop fuel version goal before = .ok ((), after) →
      Within (before.spec.steps goal (before.spec.head version).node)
          tfSpecIterators →
        Popped goal version before.spec after.spec) ∧
    (∀ fuel fuel' answer first second,
      popChain fuel version goal (cleared before) = .ok (answer, first) →
      popPaths fuel' version goal (cleared before) = .ok ((), second) →
      Unforked (before.spec.steps goal (before.spec.head version).node) →
        first.spec.slices = second.spec.slices ∧
          first.spec.trees = second.spec.trees ∧
          first.spec.nodes = second.spec.nodes ∧
          first.spec.heads = second.spec.heads) := by
  have linked := reached.roomy.linked
  have within := linked.head known
  refine ⟨pop_ends linked acyclic known, ?_, ?_⟩
  · intro fuel after ran room
    exact pop_spec ran room linked within
  · intro fuel fuel' answer first second fast slow unforked
    have alike := popChain_popPaths fast slow linked within unforked
    refine ⟨?_, trees_of_bare alike, nodes_of_bare alike,
      heads_of_bare alike⟩
    show first.spec.bare.slices = second.spec.bare.slices
    rw [alike]

/-- Links that span some of the source do not come back to a node. -/
theorem Spanning.acyclic
    {spec : TFSpec}
    (spanning : spec.Spanning) :
    spec.Acyclic :=
  ⟨fun node => (spec.node node).byte,
    fun node link member => spanning node link member⟩

/--
One head over three ways down: a token over the fork, two in a row, and another
one over the fork.
-/
def threeWays : TFSpecState :=
  let fork :=
    leave (newHead 0)
      (leave (addNode (forkNode loneCell.spec.owner))
        (leave (reserve .nodes 1) loneCell))
  let popped := leave (pop 3 0 (some 0)) (leave (pop 3 0 (some 0)) fork)
  let long := leave (shift 0 ⟨1, 1, 3, ⟨0, 1⟩, ⟨0, 3⟩⟩ 4 false) popped
  let short := leave (shift 1 ⟨2, 1, 2, ⟨0, 1⟩, ⟨0, 2⟩⟩ 4 false) long
  let second := leave (shift 1 ⟨2, 2, 3, ⟨0, 2⟩, ⟨0, 3⟩⟩ 4 false) short
  let third := leave (shift 2 ⟨3, 1, 3, ⟨0, 1⟩, ⟨0, 3⟩⟩ 4 false) second
  let merged := leave (merge (materialize fieldedGrammar 5) 3 0 1) third
  leave (merge (materialize fieldedGrammar 5) 3 0 1) merged

/-- A split reaches it. -/
theorem threeWays_reached : Reached fieldedGrammar 5 threeWays := by
  have begun :
      Reached fieldedGrammar 5
        (TFSpec.leave (newHead 0)
          (TFSpec.leave (addNode (forkNode loneCell.spec.owner))
            (TFSpec.leave (reserve .nodes 1) loneCell))) :=
    .begun (show reserve .nodes 1 loneCell = .ok ((), _) from rfl) rfl rfl
  have popped := (begun.leave (.pop 3 0 (some 0))).leave (.pop 3 0 (some 0))
  have long := popped.leave (.shift 0 ⟨1, 1, 3, ⟨0, 1⟩, ⟨0, 3⟩⟩ 4 false)
  have short := long.leave (.shift 1 ⟨2, 1, 2, ⟨0, 1⟩, ⟨0, 2⟩⟩ 4 false)
  have second := short.leave (.shift 1 ⟨2, 2, 3, ⟨0, 2⟩, ⟨0, 3⟩⟩ 4 false)
  have third := second.leave (.shift 2 ⟨3, 1, 3, ⟨0, 1⟩, ⟨0, 3⟩⟩ 4 false)
  exact (third.leave (.merge 3 0 1)).leave (.merge 3 0 1)

/--
A pop that forks yields three slices under two heads, the last of them put
between the others, and unrolls the cell below.  One that meets no fork is the
same on the fast path.
-/
theorem pop_enumerates_threeWays :
    (∃ after : TFSpecState,
      pop 4 0 (some 2) threeWays = .ok ((), after) ∧
        Popped (some 2) 0 threeWays.spec after.spec ∧
        after.spec.slicePaths = [(5, [4, 0]), (5, [4, 3]), (0, [1, 2])] ∧
        after.spec.slices.map TFSpecSlice.version = [1, 1, 2]) ∧
    ∃ first second : TFSpecState,
      popChain 4 0 (some 2) (cleared twoHeads) = .ok (true, first) ∧
        popPaths 4 0 (some 2) (cleared twoHeads) = .ok ((), second) ∧
        first.spec.slices = second.spec.slices ∧
        first.spec.trees = second.spec.trees ∧
        first.spec.slicePaths = [(3, [2, 0])] := by
  constructor
  · let program := pop 4 0 (some 2)
    have ran : program threeWays = .ok ((), leave program threeWays) :=
      ran_of_answer? (by decide +kernel)
    have spanning : threeWays.spec.Spanning :=
      spanning_of_nodes (by decide +kernel)
    have room :
        Within
          (threeWays.spec.steps (some 2) (threeWays.spec.head 0).node)
          tfSpecIterators :=
      within_of_layers (n := 3) (by decide +kernel) (by decide)
        (by decide +kernel)
    exact ⟨leave program threeWays, ran,
      (pop_enumerates threeWays_reached spanning.acyclic
        (by decide +kernel)).2.1 4 _ ran room,
      by decide +kernel, by decide +kernel⟩
  · let fast := popChain 4 0 (some 2)
    let slow := popPaths 4 0 (some 2)
    let start := cleared twoHeads
    have ranFast : fast start = .ok (true, leave fast start) :=
      ran_of_answer? (by decide +kernel)
    have ranSlow : slow start = .ok ((), leave slow start) :=
      ran_of_answer? (by decide +kernel)
    have spanning : twoHeads.spec.Spanning :=
      spanning_of_nodes (by decide +kernel)
    let steps := twoHeads.spec.steps (some 2) (twoHeads.spec.head 0).node
    have isOver : layers steps 3 = [] := by decide +kernel
    have few :
        ∀ m < 3, ∀ path ∈ layers steps m, (steps path).length ≤ 1 := by
      decide +kernel
    have unforked : Unforked steps := fun _ => forall_follows isOver few
    obtain ⟨slices, trees, _⟩ :=
      (pop_enumerates twoHeads_reached spanning.acyclic
        (by decide +kernel)).2.2 4 4 true _ _ ranFast ranSlow unforked
    exact ⟨leave fast start, leave slow start, ranFast, ranSlow, slices,
      trees, by decide +kernel⟩

end TFSpec

end TreeFeller
