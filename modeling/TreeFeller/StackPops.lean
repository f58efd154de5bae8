import TreeFeller.StackMerges
import TreeFeller.Popped

namespace TreeFeller

open StatefulProgram

/-!
# Popping a graph of LR stacks

A path popped from a node lies between the byte of the node it ends at and the
byte of the node it came from.  It ends as soon as it has as many trees that are
not extras as it should, so its deepest tree is not an extra.  The limits on
iterators change nothing of that.
-/

namespace TFSpec

open Program

/-- An iterator on its way down from a node. -/
structure Strolls
    (ends : Nat → Prop)
    (graph : TFSpec)
    (origin : Nat)
    (goal : Option Nat)
    (iterator : TFSpecIterator) : Prop where
  nodeWithin : iterator.node < graph.nodes.length
  treesWithin : ∀ tree ∈ iterator.path, tree < graph.trees.length
  place :
    iterator.node = origin ∧ iterator.path = [] ∨
      ¬ ends iterator.node ∧ iterator.path ≠ []
  grown :
    ¬ ends origin →
      Replayable graph (graph.node iterator.node).byte iterator.path
        (graph.node origin).byte
  /-- Above a node that is set apart stands an extra alone. -/
  front :
    ends origin → iterator.path ≠ [] →
      ∃ last,
        Replayable graph (graph.node iterator.node).byte
          iterator.path.dropLast last
  closed :
    ends origin → ∀ tree, iterator.path.getLast? = some tree →
      (graph.tree tree).extra = true
  counted : iterator.count = graph.structuralOf iterator.path
  bounded : ∀ count, goal = some count → iterator.count ≤ count
  deepest :
    ∀ tree, iterator.path.head? = some tree →
      goal = some iterator.count → (graph.tree tree).extra = false

/-- A path that ends where its goal is met, or where the stack does. -/
structure Landed
    (ends : Nat → Prop)
    (graph : TFSpec)
    (origin : Nat)
    (goal : Option Nat)
    (node : Nat)
    (path : List Nat) : Prop where
  strolls :
    Strolls ends graph origin goal ⟨node, graph.structuralOf path, path⟩
  met : ∀ count, goal = some count → graph.structuralOf path = count
  ordinary : ¬ ends node

section Walks

variable {lang : TFLanguage}
variable {ends roots : Nat → Prop}
variable {base before after : TFSpec}
variable {origin : Nat}
variable {goal : Option Nat}

/-- An iterator goes on standing where it does. -/
theorem Strolls.evolves
    {iterator : TFSpecIterator}
    (strolls : Strolls ends before origin goal iterator)
    (evolves : Evolves before after)
    (originWithin : origin < before.nodes.length) :
    Strolls ends after origin goal iterator where
  nodeWithin := Nat.lt_of_lt_of_le strolls.nodeWithin evolves.nodes
  treesWithin := fun tree member =>
    Nat.lt_of_lt_of_le (strolls.treesWithin tree member) evolves.trees
  place := strolls.place
  grown := by
    intro ordinary
    rw [evolves.byte _ strolls.nodeWithin, evolves.byte _ originWithin]
    exact (strolls.grown ordinary).evolves evolves
  front := by
    intro isEnd some_
    obtain ⟨last, grown⟩ := strolls.front isEnd some_
    refine ⟨last, ?_⟩
    rw [evolves.byte _ strolls.nodeWithin]
    exact grown.evolves evolves
  closed := by
    intro isEnd tree isLast
    have member := strolls.treesWithin tree (List.mem_of_mem_getLast? isLast)
    rw [(evolves.tree tree member).extra]
    exact strolls.closed isEnd tree isLast
  counted := by
    rw [structuralOf_evolves evolves strolls.treesWithin]
    exact strolls.counted
  bounded := strolls.bounded
  deepest := by
    intro tree isFirst met
    have member := strolls.treesWithin tree (List.mem_of_mem_head? isFirst)
    rw [(evolves.tree tree member).extra]
    exact strolls.deepest tree isFirst met

/-- A path goes on lying where it does. -/
theorem Landed.evolves
    {node : Nat}
    {path : List Nat}
    (landed : Landed ends before origin goal node path)
    (evolves : Evolves before after)
    (originWithin : origin < before.nodes.length) :
    Landed ends after origin goal node path := by
  have same := structuralOf_evolves evolves landed.strolls.treesWithin
  dsimp only at same
  refine ⟨?_, ?_, landed.ordinary⟩
  · rw [same]
    exact landed.strolls.evolves evolves originWithin
  · rw [same]
    exact landed.met

/-- An iterator past a link of its node. -/
theorem Strolls.step
    {iterator : TFSpecIterator}
    {link : TFSpecLink}
    (stacked : Stacked lang ends roots before)
    (strolls : Strolls ends before origin goal iterator)
    (goes :
      before.popEnds goal iterator.node iterator.count = false)
    (isLink : link ∈ (before.node iterator.node).links) :
    Strolls ends before origin goal
      (before.stepIterator iterator link) := by
  obtain ⟨nodeWithin, treeWithin⟩ := stacked.linked.link isLink
  have ordinary := stacked.apart iterator.node link isLink
  have counted :
      (before.stepIterator iterator link).count =
        before.structuralOf (link.tree :: iterator.path) := by
    unfold stepIterator structuralOf
    dsimp only
    rw [strolls.counted, List.countP_cons]
    unfold structuralOf
    cases (before.tree link.tree).extra with
    | false =>
        rfl
    | true =>
        rfl
  refine ⟨nodeWithin, ?_, Or.inr ⟨ordinary, List.cons_ne_nil _ _⟩, ?_, ?_,
    ?_, counted, ?_, ?_⟩
  · intro tree member
    rcases List.mem_cons.mp member with rfl | old
    · exact treeWithin
    · exact strolls.treesWithin tree old
  · intro plain
    have here : ¬ ends iterator.node := by
      rcases strolls.place with ⟨same, _⟩ | ⟨other, _⟩
      · rw [same]
        exact plain
      · exact other
    have fits := stacked.fits iterator.node here link isLink
    exact fits.grown.append (strolls.grown plain)
  · intro isEnd _
    change
      ∃ last, Replayable before (before.node link.node).byte
        (link.tree :: iterator.path).dropLast last
    cases isPath : iterator.path with
    | nil =>
        exact ⟨_, .nil _⟩
    | cons first rest =>
        have some_ : iterator.path ≠ [] := by
          rw [isPath]
          exact List.cons_ne_nil _ _
        have here : ¬ ends iterator.node := by
          rcases strolls.place with ⟨_, none_⟩ | ⟨other, _⟩
          · exact absurd none_ some_
          · exact other
        obtain ⟨last, front⟩ := strolls.front isEnd some_
        have fits := stacked.fits iterator.node here link isLink
        rw [isPath] at front
        refine ⟨last, ?_⟩
        rw [List.dropLast_cons_cons]
        exact fits.grown.append front
  · intro isEnd tree isLast
    change (link.tree :: iterator.path).getLast? = some tree at isLast
    cases isPath : iterator.path with
    | nil =>
        have atOrigin : iterator.node = origin := by
          rcases strolls.place with ⟨same, _⟩ | ⟨_, some_⟩
          · exact same
          · exact absurd isPath some_
        rw [isPath] at isLast
        cases isLast
        rw [atOrigin] at isLink
        exact stacked.closed origin isEnd link isLink
    | cons first rest =>
        rw [isPath, List.getLast?_cons_cons, ← isPath] at isLast
        exact strolls.closed isEnd tree isLast
  · intro count isGoal
    have below := strolls.bounded count isGoal
    subst isGoal
    simp only [popEnds, decide_eq_false_iff_not] at goes
    unfold stepIterator
    dsimp only
    split
    · omega
    · omega
  · intro tree isFirst met
    cases isFirst
    have below := strolls.bounded _ met
    rw [met] at goes
    simp only [popEnds, decide_eq_false_iff_not] at goes
    -- An extra counts for nothing, so the goal was not met by it.
    cases extra : (before.tree link.tree).extra with
    | false =>
        rfl
    | true =>
        have same :
            (before.stepIterator iterator link).count =
              iterator.count := by
          unfold stepIterator
          dsimp only
          rw [extra]
          rfl
        rw [same] at goes
        exact absurd rfl goes

/-- A pop under way: its slices lie as they should, and its iterators too. -/
structure Strolling
    (lang : TFLanguage)
    (ends roots : Nat → Prop)
    (base : TFSpec)
    (origin : Nat)
    (goal : Option Nat)
    (heads : List TFSpecHead)
    (iterators : List TFSpecIterator)
    (graph : TFSpec) : Prop where
  stays : Stays lang ends roots base graph
  originWithin : origin < base.nodes.length
  sliced : ∃ nodes, Sliced heads nodes graph
  landed :
    ∀ entry ∈ graph.slicePaths,
      Landed ends graph origin goal entry.1 entry.2
  strolls :
    ∀ iterator ∈ iterators, Strolls ends graph origin goal iterator
  whole :
    goal = none →
      graph.frontier = base.frontier ∧
        ∀ entry ∈ graph.slicePaths, entry.1 = base.frontier

namespace Strolling

variable {heads : List TFSpecHead}
variable {iterators others : List TFSpecIterator}

/-- Iterators may be left out. -/
theorem only
    (strolling :
      Strolling lang ends roots base origin goal heads iterators before)
    (fewer : others ⊆ iterators) :
    Strolling lang ends roots base origin goal heads others before :=
  ⟨strolling.stays, strolling.originWithin, strolling.sliced,
    strolling.landed,
    fun iterator member => strolling.strolls iterator (fewer member),
    strolling.whole⟩

/-- A graph that evolved with the same heads and slices serves as well. -/
theorem grow
    (strolling :
      Strolling lang ends roots base origin goal heads iterators before)
    (stays : Stays lang ends roots before after)
    (sameHeads : after.heads = before.heads)
    (sameSlices : after.slices = before.slices)
    (sameFrontier : goal = none → after.frontier = before.frontier) :
    Strolling lang ends roots base origin goal heads iterators after := by
  have within :=
    Nat.lt_of_lt_of_le strolling.originWithin strolling.stays.evolves.nodes
  obtain ⟨nodes, sliced⟩ := strolling.sliced
  have paths : after.slicePaths = before.slicePaths := by
    unfold slicePaths TFSpec.head
    rw [sameHeads, sameSlices]
  refine ⟨stays.trans strolling.stays.evolves, strolling.originWithin,
    ⟨nodes, sameHeads.trans sliced.heads, sliced.distinct, ?_, ?_⟩, ?_, ?_,
    ?_⟩
  · rw [sameSlices]
    exact sliced.sorted
  · rw [sameSlices]
    exact sliced.versions
  · rw [paths]
    intro entry member
    exact (strolling.landed entry member).evolves stays.evolves within
  · intro iterator member
    exact (strolling.strolls iterator member).evolves stays.evolves within
  · intro isWhole
    obtain ⟨frontier, bottoms⟩ := strolling.whole isWhole
    rw [paths]
    exact ⟨(sameFrontier isWhole).trans frontier, bottoms⟩

/-- A walk may go on over a link of the graph. -/
theorem step
    (strolling :
      Strolling lang ends roots base origin goal heads iterators before)
    {current : TFSpecIterator}
    {link : TFSpecLink}
    (known : current ∈ iterators)
    (goes : before.popEnds goal current.node current.count = false)
    (isLink : link ∈ (before.node current.node).links) :
    Strolling lang ends roots base origin goal heads
      (before.stepIterator current link :: iterators) before := by
  refine ⟨strolling.stays, strolling.originWithin, strolling.sliced,
    strolling.landed, ?_, strolling.whole⟩
  intro iterator member
  rcases List.mem_cons.mp member with rfl | old
  · exact (strolling.strolls current known).step strolling.stays.stacked
      goes isLink
  · exact strolling.strolls iterator old

end Strolling

/-- Where a path ends, a head may stand. -/
theorem Strolls.ordinary
    {iterator : TFSpecIterator}
    (strolls : Strolls ends before origin goal iterator)
    (stacked : Stacked lang ends roots before)
    (start : ¬ ends origin ∨ goal = none)
    (over_ : before.popEnds goal iterator.node iterator.count = true) :
    ¬ ends iterator.node := by
  rcases strolls.place with ⟨same, _⟩ | ⟨ordinary, _⟩
  · rcases start with ordinary | whole
    · rw [same]
      exact ordinary
    · intro isEnd
      rw [whole] at over_
      simp only [popEnds, List.isEmpty_iff] at over_
      exact (stacked.ended _ isEnd).2.2 over_
  · exact ordinary

/-- Where a whole stack ends, nothing is below. -/
theorem Strolls.bottom
    {iterator : TFSpecIterator}
    (strolls : Strolls ends before origin goal iterator)
    (stacked : Stacked lang ends roots before)
    (whole : goal = none)
    (over_ : before.popEnds goal iterator.node iterator.count = true) :
    iterator.node = before.frontier := by
  by_contra elsewhere
  have links := stacked.rooted _ strolls.nodeWithin elsewhere
  rw [whole] at over_
  simp only [popEnds, List.isEmpty_iff] at over_
  exact links over_

/-- The path of an iterator at its end. -/
theorem Strolls.landed
    {iterator : TFSpecIterator}
    (strolls : Strolls ends before origin goal iterator)
    (stacked : Stacked lang ends roots before)
    (start : ¬ ends origin ∨ goal = none)
    (over_ : before.popEnds goal iterator.node iterator.count = true) :
    Landed ends before origin goal iterator.node iterator.path := by
  refine ⟨?_, ?_, strolls.ordinary stacked start over_⟩
  · rw [← strolls.counted]
    exact strolls
  · intro count isGoal
    subst isGoal
    simp only [popEnds, decide_eq_true_eq] at over_
    rw [← strolls.counted]
    exact over_

/-! ### The programs of a walk -/

section Programs

variable {heads : List TFSpecHead}
variable {iterators : List TFSpecIterator}

/-- Settling a node unrolls at most. -/
theorem strolling_settleFor
    {current : TFSpecIterator}
    {before after : TFSpecState}
    (strolling :
      Strolling lang ends roots base origin goal heads iterators
        before.spec)
    (ran : settleFor goal current before = .ok ((), after)) :
    Strolling lang ends roots base origin goal heads iterators
      after.spec := by
  have sameSlices := settleFor_slices ran
  have all :
      Stays lang ends roots before.spec after.spec ∧
        after.spec.heads = before.spec.heads ∧
          (goal = none → after.spec.frontier = before.spec.frontier) := by
    unfold settleFor at ran
    split at ran
    · rename_i some_
      refine ⟨unroll_stays strolling.stays.stacked ran, ?_, ?_⟩
      swap
      · rintro rfl
        cases some_
      unfold unroll at ran
      obtain ⟨_, _, asked, ran⟩ := Program.bind_eq_ok.mp ran
      cases asked
      split at ran
      · exact (extend_unrolls ran).heads
      · cases ran
        rfl
    · cases ran
      exact ⟨.start strolling.stays.stacked, rfl, fun _ => rfl⟩
  exact strolling.grow all.1 all.2.1 sameSlices all.2.2

/-- Reserving a slice. -/
theorem stays_reserveSlice
    (length slices : Nat) :
    Maintains
      (fun state : TFSpecState => Stays lang ends roots base state.spec)
      (reserveSlice length slices) := by
  unfold reserveSlice
  refine Maintains.bind stays_asks (fun count => ?_)
  refine Maintains.bind (stays_reserve _ _) (fun _ => ?_)
  refine Maintains.bind (stays_reserve _ _) (fun _ => ?_)
  exact stays_update
    (fun _ => ⟨rfl, rfl, rfl, rfl, rfl, rfl, rfl, rfl, rfl⟩)
    (fun _ => rfl)

/-- Reserving a slice leaves the frontier. -/
theorem frontier_reserveSlice
    (length slices : Nat) :
    Keeps (fun state : TFSpecState => state.spec.frontier)
      (reserveSlice length slices) := by
  have reserves :
      ∀ arena needed,
        Keeps (fun state : TFSpecState => state.spec.frontier)
          (reserve arena needed) := by
    intro arena needed before value after ran
    obtain ⟨capacity, heap, rfl⟩ := reserve_eq_ok ran
    rfl
  unfold reserveSlice
  refine Keeps.bind Keeps.gets (fun count => ?_)
  refine Keeps.bind (reserves _ _) (fun _ => ?_)
  exact Keeps.bind (reserves _ _) (fun _ => Keeps.modify (fun _ => rfl))

/-- A new head where a head may stand. -/
theorem newHead_stays
    {node version : Nat}
    {before after : TFSpecState}
    (stacked : Stacked lang ends roots before.spec)
    (within : node < before.spec.nodes.length)
    (ordinary : ¬ ends node)
    (ran : newHead node before = .ok (version, after)) :
    Stays lang ends roots before.spec after.spec := by
  obtain ⟨capacity, heap, rfl, rfl⟩ := newHead_eq_ok ran
  refine Stacked.aside stacked ?_ ?_
  · exact ⟨rfl, rfl, rfl, rfl, rfl, rfl, rfl, rfl, rfl⟩
  · intro head member
    rcases List.mem_append.mp member with old | new
    · exact stacked.ownHeads head old
    · rw [List.mem_singleton.mp new]
      exact ⟨within, fun _ isEnd => absurd isEnd ordinary⟩

/-- Recording a path that is over. -/
theorem strolling_addSlice
    {current : TFSpecIterator}
    {before after : TFSpecState}
    (strolling :
      Strolling lang ends roots base origin goal heads iterators
        before.spec)
    (start : ¬ ends origin ∨ goal = none)
    (known : current ∈ iterators)
    (over_ :
      before.spec.popEnds goal current.node current.count = true)
    (ran : addSlice current before = .ok ((), after)) :
    Strolling lang ends roots base origin goal heads iterators
      after.spec := by
  have stacked := strolling.stays.stacked
  have strolls := strolling.strolls current known
  have within :=
    Nat.lt_of_lt_of_le strolling.originWithin strolling.stays.evolves.nodes
  obtain ⟨nodes, sliced⟩ := strolling.sliced
  obtain ⟨slicedAfter, paths⟩ := addSlice_spec ran sliced
  have both :
      Stays lang ends roots before.spec after.spec ∧
        after.spec.frontier = before.spec.frontier := by
    unfold addSlice at ran
    obtain ⟨count, _, asked, ran⟩ := Program.bind_eq_ok.mp ran
    cases asked
    obtain ⟨_, roomy, room, ran⟩ := Program.bind_eq_ok.mp ran
    have reserved := stays_reserveSlice _ _ _ _ _ (.start stacked) room
    have sameRoomy := frontier_reserveSlice _ _ _ _ _ room
    obtain ⟨found, _, asked, ran⟩ := Program.bind_eq_ok.mp ran
    simp only [asks, Program.gets_apply, Except.ok.injEq,
      Prod.mk.injEq] at asked
    obtain ⟨_, rfl⟩ := asked
    cases found with
    | some place =>
        cases ran
        refine ⟨Stays.trans (reserved.stacked.beside ?_ rfl)
          reserved.evolves, sameRoomy⟩
        exact ⟨rfl, rfl, rfl, rfl, rfl, rfl, rfl, rfl, rfl⟩
    | none =>
        obtain ⟨version, headed, made, ran⟩ := Program.bind_eq_ok.mp ran
        have headedStays :=
          newHead_stays reserved.stacked
            (Nat.lt_of_lt_of_le strolls.nodeWithin reserved.evolves.nodes)
            (strolls.ordinary stacked start over_) made
        obtain ⟨capacity, heap, rfl, rfl⟩ := newHead_eq_ok made
        cases ran
        refine ⟨Stays.trans (headedStays.stacked.beside ?_ rfl)
          (headedStays.evolves.trans reserved.evolves), sameRoomy⟩
        exact ⟨rfl, rfl, rfl, rfl, rfl, rfl, rfl, rfl, rfl⟩
  obtain ⟨stays, sameFrontier⟩ := both
  refine ⟨stays.trans strolling.stays.evolves, strolling.originWithin,
    slicedAfter, ?_, ?_, ?_⟩
  · intro entry member
    rcases List.mem_cons.mp (paths.subset member) with rfl | old
    · exact (strolls.landed stacked start over_).evolves stays.evolves within
    · exact (strolling.landed entry old).evolves stays.evolves within
  · intro iterator member
    exact (strolling.strolls iterator member).evolves stays.evolves within
  · intro whole
    obtain ⟨frontier, bottoms⟩ := strolling.whole whole
    refine ⟨sameFrontier.trans frontier, ?_⟩
    intro entry member
    rcases List.mem_cons.mp (paths.subset member) with rfl | old
    · exact (strolls.bottom stacked whole over_).trans frontier
    · exact bottoms entry old

/-- Following a link. -/
theorem strolling_followLink
    {current moved : TFSpecIterator}
    {link : TFSpecLink}
    {before after : TFSpecState}
    (strolling :
      Strolling lang ends roots base origin goal heads iterators
        before.spec)
    (known : current ∈ iterators)
    (goes :
      before.spec.popEnds goal current.node current.count = false)
    (isLink : link ∈ (before.spec.node current.node).links)
    (ran : followLink current link before = .ok (moved, after)) :
    Strolling lang ends roots base origin goal heads (moved :: iterators)
        after.spec ∧
      after.spec.nodes = before.spec.nodes := by
  obtain ⟨rfl, same⟩ := followLink_eq_ok ran
  have onward := strolling.step known goes isLink
  refine ⟨onward.grow ?_ same.heads same.slices (fun _ => same.frontier),
    same.nodes⟩
  have follows :
      Maintains
        (fun state : TFSpecState =>
          Stays lang ends roots before.spec state.spec)
        (followLink current link) := by
    unfold followLink
    refine Maintains.bind stays_asks (fun count => ?_)
    refine Maintains.bind (stays_reserve _ _) (fun _ => ?_)
    refine Maintains.bind (stays_update ?_ (fun _ => rfl))
      (fun _ => stays_asks)
    exact fun _ => ⟨rfl, rfl, rfl, rfl, rfl, rfl, rfl, rfl, rfl⟩
  exact follows _ _ _ (.start strolling.stays.stacked) ran

/-- Whether a pop is over at a node depends on the nodes only. -/
theorem popEnds_of_nodes
    {first second : TFSpec}
    (same : second.nodes = first.nodes)
    (goal : Option Nat)
    (node count : Nat) :
    second.popEnds goal node count = first.popEnds goal node count := by
  unfold popEnds TFSpec.node
  rw [same]

/-- Forking over links, within the limit or not. -/
theorem strolling_forkIterators
    {current : TFSpecIterator}
    {count : Nat}
    {links : List TFSpecLink}
    {appended forked : List TFSpecIterator}
    {before after : TFSpecState}
    (strolling :
      Strolling lang ends roots base origin goal heads
        (iterators ++ appended) before.spec)
    (known : current ∈ iterators)
    (goes :
      before.spec.popEnds goal current.node current.count = false)
    (isLinks :
      ∀ link ∈ links, link ∈ (before.spec.node current.node).links)
    (ran :
      forkIterators current count links appended before =
        .ok (forked, after)) :
    Strolling lang ends roots base origin goal heads (iterators ++ forked)
        after.spec ∧
      after.spec.nodes = before.spec.nodes := by
  induction links generalizing appended before with
  | nil =>
      cases ran
      exact ⟨strolling, rfl⟩
  | cons link rest inductionHypothesis =>
      have further :
          ∀ other ∈ rest,
            other ∈ (before.spec.node current.node).links :=
        fun other member => isLinks other (List.mem_cons_of_mem _ member)
      unfold forkIterators at ran
      split at ran
      · obtain ⟨_, limited, flagged, ran⟩ := Program.bind_eq_ok.mp ran
        cases flagged
        have aside :
            Stays lang ends roots before.spec before.spec.limit :=
          strolling.stays.stacked.beside
            ⟨rfl, rfl, rfl, rfl, rfl, rfl, rfl, rfl, rfl⟩ rfl
        have flaggedStrolling :
            Strolling lang ends roots base origin goal heads
              (iterators ++ appended)
              ({ before with spec := before.spec.limit } :
                TFSpecState).spec :=
          strolling.grow aside rfl rfl (fun _ => rfl)
        have onward := inductionHypothesis flaggedStrolling
        exact onward goes further ran
      · obtain ⟨moved, forkedState, followed, ran⟩ :=
          Program.bind_eq_ok.mp ran
        obtain ⟨moves, sameNodes⟩ :=
          strolling_followLink strolling (List.mem_append_left _ known)
            goes (isLinks link (List.mem_cons_self ..)) followed
        have sameNode :
            ∀ node, forkedState.spec.node node = before.spec.node node := by
          intro node
          unfold TFSpec.node
          rw [sameNodes]
        obtain ⟨restStrolling, sameRest⟩ :=
          inductionHypothesis
            (moves.only (by
              intro iterator member
              simp only [List.mem_append, List.mem_cons] at member ⊢
              tauto))
            ((popEnds_of_nodes sameNodes _ _ _).trans goes)
            (by
              intro other member
              rw [sameNode]
              exact further other member)
            ran
        exact ⟨restStrolling, sameRest.trans sameNodes⟩

/-- A round of the walk. -/
theorem strolling_popRound
    {todo done appended next : List TFSpecIterator}
    {before after : TFSpecState}
    (strolling :
      Strolling lang ends roots base origin goal heads
        (todo ++ (done ++ appended)) before.spec)
    (start : ¬ ends origin ∨ goal = none)
    (ran : popRound goal todo done appended before = .ok (next, after)) :
    Strolling lang ends roots base origin goal heads next after.spec := by
  induction todo generalizing done appended before with
  | nil =>
      cases ran
      exact strolling
  | cons current todo inductionHypothesis =>
      rw [popRound_cons] at ran
      obtain ⟨_, read, settled, ran⟩ := Program.bind_eq_ok.mp ran
      have reads := strolling_settleFor strolling settled
      unfold walkFrom at ran
      obtain ⟨links, _, asked, ran⟩ := Program.bind_eq_ok.mp ran
      simp only [asks, Program.gets_apply, Except.ok.injEq,
        Prod.mk.injEq] at asked
      obtain ⟨isLinks, rfl⟩ := asked
      obtain ⟨over_, _, asked, ran⟩ := Program.bind_eq_ok.mp ran
      simp only [asks, Program.gets_apply, Except.ok.injEq,
        Prod.mk.injEq] at asked
      obtain ⟨isOver, rfl⟩ := asked
      split at ran
      · rename_i ends_
        obtain ⟨_, recorded, added, ran⟩ := Program.bind_eq_ok.mp ran
        have adds :=
          strolling_addSlice reads start (List.mem_cons_self ..)
            (isOver.trans ends_) added
        exact inductionHypothesis
          (adds.only (List.subset_cons_self _ _)) ran
      · rename_i goes
        have goesOn :
            read.spec.popEnds goal current.node current.count = false := by
          rw [isOver]
          simpa using goes
        cases links with
        | nil =>
            exact inductionHypothesis
              (reads.only (List.subset_cons_self _ _)) ran
        | cons first further =>
            have all :
                ∀ link ∈ first :: further,
                  link ∈ (read.spec.node current.node).links := by
              intro link member
              rw [isLinks]
              exact member
            have here :
                Strolling lang ends roots base origin goal heads
                  ((current :: (todo ++ done)) ++ appended) read.spec := by
              refine reads.only ?_
              intro iterator member
              simp only [List.mem_append, List.mem_cons] at member ⊢
              tauto
            obtain ⟨forked, forkedState, forks, ran⟩ :=
              Program.bind_eq_ok.mp ran
            obtain ⟨moved, movedState, moves, ran⟩ :=
              Program.bind_eq_ok.mp ran
            obtain ⟨forkedStrolling, sameForked⟩ :=
              strolling_forkIterators here (List.mem_cons_self ..) goesOn
                (fun link member =>
                  all link (List.mem_cons_of_mem _ member))
                forks
            have stillFirst :
                first ∈ (forkedState.spec.node current.node).links := by
              unfold TFSpec.node
              rw [sameForked]
              exact all first (List.mem_cons_self ..)
            obtain ⟨movedStrolling, _⟩ :=
              strolling_followLink forkedStrolling
                (List.mem_append_left _ (List.mem_cons_self ..))
                ((popEnds_of_nodes sameForked _ _ _).trans goesOn)
                stillFirst moves
            refine inductionHypothesis (movedStrolling.only ?_) ran
            intro iterator member
            simp only [List.mem_append, List.mem_cons, List.not_mem_nil,
              or_false] at member ⊢
            tauto

/-- The breadth-first walk. -/
theorem strolling_popTurns
    {fuel : Nat}
    {before after : TFSpecState}
    (strolling :
      Strolling lang ends roots base origin goal heads iterators
        before.spec)
    (start : ¬ ends origin ∨ goal = none)
    (ran :
      Program.iterate .stuck (popTurn goal) fuel iterators before =
        .ok ((), after)) :
    Strolling lang ends roots base origin goal heads [] after.spec := by
  induction fuel generalizing iterators before with
  | zero =>
      cases ran
  | succ fuel inductionHypothesis =>
      obtain ⟨outcome, _, turned, ran⟩ := Program.bind_eq_ok.mp ran
      cases iterators with
      | nil =>
          cases turned
          cases ran
          exact strolling
      | cons first rest =>
          obtain ⟨next, _, rounded, ended⟩ := Program.bind_eq_ok.mp turned
          cases ended
          refine inductionHypothesis
            (strolling_popRound ?_ start rounded) ran
          simpa using strolling

/-- The walk down a chain, which records its path or nothing. -/
theorem strolling_chainTurns
    {fuel : Nat}
    {current : TFSpecIterator}
    {answer : Bool}
    {before after : TFSpecState}
    (strolling :
      Strolling lang ends roots base origin goal heads [current]
        before.spec)
    (start : ¬ ends origin ∨ goal = none)
    (none_ : before.spec.slices = [])
    (same : before.spec.heads = heads)
    (ran :
      Program.iterate .stuck (chainTurn goal) fuel current before =
        .ok (answer, after)) :
    Strolling lang ends roots base origin goal heads [] after.spec := by
  induction fuel generalizing current before with
  | zero =>
      cases ran
  | succ fuel inductionHypothesis =>
      obtain ⟨outcome, turnedState, turned, ran⟩ :=
        Program.bind_eq_ok.mp ran
      have stacked := strolling.stays.stacked
      cases goes : before.spec.popEnds goal current.node current.count with
      | true =>
          have strolls :=
            strolling.strolls current (List.mem_singleton_self _)
          obtain ⟨rfl, capacity, heap, rfl⟩ := chainTurn_ends goes turned
          cases ran
          have within :=
            Nat.lt_of_lt_of_le strolling.originWithin
              strolling.stays.evolves.nodes
          have stays :
              Stays lang ends roots before.spec
                { before.spec with
                  childCount :=
                    before.spec.childCount + current.path.length
                  heads :=
                    before.spec.heads ++ [⟨current.node, false, false⟩]
                  slices := [⟨before.spec.heads.length, current.path⟩]
                  capacity := capacity } := by
            refine stacked.aside ?_ ?_
            · exact ⟨rfl, rfl, rfl, rfl, rfl, rfl, rfl, rfl, rfl⟩
            · intro head member
              rcases List.mem_append.mp member with old | new
              · exact stacked.ownHeads head old
              · rw [List.mem_singleton.mp new]
                exact ⟨strolls.nodeWithin, fun _ isEnd =>
                  absurd isEnd (strolls.ordinary stacked start goes)⟩
          have place :
              ((before.spec.heads ++
                  [(⟨current.node, false, false⟩ : TFSpecHead)]).getD
                before.spec.heads.length default).node =
                current.node := by
            rw [List.getD_append_right _ _ _ _ (Nat.le_refl _)]
            simp
          refine ⟨stays.trans strolling.stays.evolves,
            strolling.originWithin, ⟨[current.node], ?_, ?_, ?_, ?_⟩, ?_,
            nofun, ?_⟩
          · rw [← same]
            rfl
          · exact List.nodup_singleton _
          · exact List.pairwise_singleton _ _
          · intro version
            simp only [List.map_cons, List.map_nil, List.mem_singleton,
              same, List.length_singleton]
            omega
          · intro entry member
            unfold slicePaths TFSpec.head at member
            simp only [List.map_cons, List.map_nil,
              List.mem_singleton] at member
            rw [place] at member
            rw [member]
            exact (strolls.landed stacked start goes).evolves
              stays.evolves within
          · intro whole
            obtain ⟨frontier, _⟩ := strolling.whole whole
            refine ⟨frontier, ?_⟩
            intro entry member
            unfold slicePaths TFSpec.head at member
            simp only [List.map_cons, List.map_nil,
              List.mem_singleton] at member
            rw [place] at member
            rw [member]
            exact (strolls.bottom stacked whole goes).trans frontier
      | false =>
          rw [chainTurn_goes goes] at turned
          obtain ⟨_, read, settled, turned⟩ := Program.bind_eq_ok.mp turned
          have reads := strolling_settleFor strolling settled
          have goesOn := settleFor_goes goes settled
          have noSlices := (settleFor_slices settled).trans none_
          have sameHeads : read.spec.heads = heads := by
            obtain ⟨nodes, sliced⟩ := reads.sliced
            have none_ : nodes = [] := by
              by_contra some_
              have positive := List.length_pos_of_ne_nil some_
              have member :=
                (sliced.versions heads.length).mpr ⟨Nat.le_refl _, by omega⟩
              rw [noSlices] at member
              cases member
            rw [sliced.heads, none_]
            simp
          cases outcome with
          | inl onward =>
              obtain ⟨rfl, link, links, rfl⟩ := chainOn_goes turned
              have isLink :
                  link ∈ (turnedState.spec.node current.node).links := by
                rw [links]
                exact List.mem_singleton_self _
              have stepped :=
                reads.step (List.mem_singleton_self _) goesOn isLink
              refine inductionHypothesis (stepped.only ?_) noSlices
                sameHeads ran
              exact List.cons_subset_cons _ (List.nil_subset _)
          | inr answer =>
              have unchanged : turnedState = read := by
                unfold chainOn at turned
                obtain ⟨links, _, asked, turned⟩ :=
                  Program.bind_eq_ok.mp turned
                simp only [asks, Program.gets_apply, Except.ok.injEq,
                  Prod.mk.injEq] at asked
                obtain ⟨_, rfl⟩ := asked
                split at turned
                · cases turned
                · cases turned
                  rfl
              cases ran
              rw [unchanged]
              exact reads.only (List.nil_subset _)

end Programs

end Walks

/-- A pop leaves slices that lie as they should, under new heads. -/
theorem strolling_pop
    {lang : TFLanguage}
    {ends roots : Nat → Prop}
    {fuel version : Nat}
    {goal : Option Nat}
    {before after : TFSpecState}
    (stacked : Stacked lang ends roots before.spec)
    (start : ¬ ends (before.spec.head version).node ∨ goal = none)
    (ran : pop fuel version goal before = .ok ((), after)) :
    Strolling lang ends roots before.spec (before.spec.head version).node
      goal before.spec.heads [] after.spec := by
  have linkedStart : (cleared before).spec.Linked :=
    ⟨stacked.linked.links, stacked.linked.heads⟩
  have within := stacked.headWithin version
  unfold pop at ran
  obtain ⟨_, first, clears, ran⟩ := Program.bind_eq_ok.mp ran
  have isFirst : first = cleared before := by
    cases clears
    rfl
  subst isFirst
  have clear :
      Stays lang ends roots before.spec (cleared before).spec :=
    stacked.beside ⟨rfl, rfl, rfl, rfl, rfl, rfl, rfl, rfl, rfl⟩ rfl
  have lone :
      ∀ {graph : TFSpec},
        Strolling lang ends roots before.spec
            (before.spec.head version).node goal before.spec.heads []
            graph →
          Strolling lang ends roots before.spec
            (before.spec.head version).node goal before.spec.heads
            [⟨(before.spec.head version).node, 0, []⟩] graph := by
    intro graph strolling
    refine ⟨strolling.stays, strolling.originWithin, strolling.sliced,
      strolling.landed, ?_, strolling.whole⟩
    intro iterator member
    rw [List.mem_singleton.mp member]
    refine ⟨?_, nofun, Or.inl ⟨rfl, rfl⟩, ?_, ?_, fun _ => nofun, rfl, ?_,
      nofun⟩
    · exact Nat.lt_of_lt_of_le strolling.originWithin
        strolling.stays.evolves.nodes
    · exact fun _ => .nil _
    · exact fun _ some_ => absurd rfl some_
    · exact fun _ _ => Nat.zero_le _
  have begun :
      Strolling lang ends roots before.spec (before.spec.head version).node
        goal before.spec.heads [] (cleared before).spec := by
    have empty : Sliced (cleared before).spec.heads [] (cleared before).spec :=
      Sliced.empty rfl
    exact ⟨clear, within, ⟨[], empty⟩, nofun, nofun,
      fun _ => ⟨rfl, nofun⟩⟩
  obtain ⟨answer, chainedState, chained, ran⟩ := Program.bind_eq_ok.mp ran
  rw [popChain_eq] at chained
  obtain ⟨head, _, asked, chained⟩ := Program.bind_eq_ok.mp chained
  simp only [asks, Program.gets_apply, Except.ok.injEq,
    Prod.mk.injEq] at asked
  obtain ⟨rfl, rfl⟩ := asked
  have chains :=
    strolling_chainTurns (lone begun) start rfl rfl chained
  cases answer with
  | true =>
      cases ran
      exact chains
  | false =>
      have spec := chainTurns_spec chained linkedStart within
      have sameHead :
          chainedState.spec.head version = before.spec.head version := by
        unfold TFSpec.head
        rw [(spec.forked rfl).1]
        rfl
      rw [if_neg Bool.false_ne_true, popPaths_eq] at ran
      obtain ⟨head, _, asked, ran⟩ := Program.bind_eq_ok.mp ran
      simp only [asks, Program.gets_apply, Except.ok.injEq,
        Prod.mk.injEq] at asked
      obtain ⟨rfl, rfl⟩ := asked
      rw [sameHead] at ran
      exact strolling_popTurns (lone chains) start ran

end TFSpec

end TreeFeller
