import TreeFeller.PopPaths

namespace TreeFeller

open StatefulProgram

/-!
# Popping enumerates the paths

A pop walks down from a head's node, breadth first, and records a slice for
every path it completes.  It unrolls the inherited stack on its way, which
changes none of the steps down.  So its iterators are those of a breadth-first
search for the paths of the graph it started on, as long as it has room for
all of them.
-/

namespace TFSpec

open BreadthFirst

/-- The recorded slices: the node each ends at, and its trees. -/
def slicePaths (self : TFSpec) : List (Nat × List Nat) :=
  self.slices.map
    (fun slice => ((self.head slice.version).node, slice.children))

/--
The slices of a pop stand in order of their heads, which are new, one for each
node that a path ends at.
-/
structure Sliced
    (base : List TFSpecHead)
    (ends : List Nat)
    (spec : TFSpec) : Prop where
  heads :
    spec.heads = base ++ ends.map (fun node => ⟨node, false, false⟩)
  distinct : ends.Nodup
  sorted : (spec.slices.map TFSpecSlice.version).Pairwise (· ≤ ·)
  versions :
    ∀ version,
      version ∈ spec.slices.map TFSpecSlice.version ↔
        base.length ≤ version ∧ version < base.length + ends.length

/-- Two graphs that differ in their accounts only. -/
structure Same (before after : TFSpec) : Prop where
  nodes : after.nodes = before.nodes
  trees : after.trees = before.trees
  frontier : after.frontier = before.frontier
  prefixLeft : after.prefixLeft = before.prefixLeft
  heads : after.heads = before.heads
  slices : after.slices = before.slices

namespace Same

variable {first second third : TFSpec}

/-- A graph is the same as itself. -/
theorem refl (self : TFSpec) : Same self self :=
  ⟨rfl, rfl, rfl, rfl, rfl, rfl⟩

/-- Being the same is passed on. -/
theorem trans
    (later : Same second third)
    (earlier : Same first second) :
    Same first third where
  nodes := later.nodes.trans earlier.nodes
  trees := later.trees.trans earlier.trees
  frontier := later.frontier.trans earlier.frontier
  prefixLeft := later.prefixLeft.trans earlier.prefixLeft
  heads := later.heads.trans earlier.heads
  slices := later.slices.trans earlier.slices

/-- The same graph is linked as before. -/
theorem linked
    (same : Same first second)
    (linked : first.Linked) :
    second.Linked := by
  constructor
  · rw [same.nodes, same.trees]
    exact linked.links
  · rw [same.heads, same.nodes]
    exact linked.heads

/-- The same slices end at the same nodes. -/
theorem slicePaths (same : Same first second) :
    second.slicePaths = first.slicePaths := by
  unfold TFSpec.slicePaths TFSpec.head
  rw [same.slices, same.heads]

/-- The same slices are in order as before. -/
theorem sliced
    {base : List TFSpecHead}
    {ends : List Nat}
    (same : Same first second)
    (sliced : Sliced base ends first) :
    Sliced base ends second := by
  constructor
  · rw [same.heads]
    exact sliced.heads
  · exact sliced.distinct
  · rw [same.slices]
    exact sliced.sorted
  · rw [same.slices]
    exact sliced.versions

end Same

/-- Making room leaves the graph the same. -/
theorem reserveSlice_same
    {length slices : Nat}
    {before after : TFSpecState}
    (ran : reserveSlice length slices before = .ok ((), after)) :
    Same before.spec after.spec := by
  unfold reserveSlice at ran
  obtain ⟨used, _, asked, ran⟩ := Program.bind_eq_ok.mp ran
  cases asked
  obtain ⟨_, _, room, ran⟩ := Program.bind_eq_ok.mp ran
  obtain ⟨capacity, heap, rfl⟩ := reserve_eq_ok room
  obtain ⟨_, _, room, ran⟩ := Program.bind_eq_ok.mp ran
  obtain ⟨capacity, heap, rfl⟩ := reserve_eq_ok room
  cases ran
  exact ⟨rfl, rfl, rfl, rfl, rfl, rfl⟩

section Slices

variable {base : List TFSpecHead}
variable {ends : List Nat}
variable {spec : TFSpec}

/-- The node of a new head. -/
theorem Sliced.node
    (sliced : Sliced base ends spec)
    {place : Nat}
    (inRange : place < ends.length) :
    (spec.head (base.length + place)).node = ends[place] := by
  unfold TFSpec.head
  rw [sliced.heads, List.getD_append_right _ _ _ _ (Nat.le_add_right _ _),
    Nat.add_sub_cancel_left,
    List.getD_eq_getElem _ _ (by simpa using inRange)]
  simp

/-- The slot found for a path is the one behind a slice of its node. -/
theorem sliceSlot_eq_some
    {node slot version : Nat}
    (found : spec.sliceSlot node = some (slot, version)) :
    ∃ front last back,
      spec.slices = front ++ last :: back ∧
        slot = front.length + 1 ∧
        version = last.version ∧
        (spec.head last.version).node = node := by
  unfold sliceSlot at found
  split at found
  · rename_i fromTop isFound
    obtain ⟨inRange, matches_, _⟩ :=
      List.findIdx?_eq_some_iff_getElem.mp isFound
    rw [List.length_reverse] at inRange
    have place : spec.slices.length - 1 - fromTop < spec.slices.length := by
      omega
    rw [List.getElem_reverse] at matches_
    simp only [Option.some.injEq, Prod.mk.injEq] at found
    obtain ⟨rfl, isVersion⟩ := found
    have before :
        spec.slices.length - fromTop - 1 =
          spec.slices.length - 1 - fromTop := by
      omega
    rw [before, List.getD_eq_getElem _ _ place] at isVersion
    refine
      ⟨spec.slices.take (spec.slices.length - 1 - fromTop),
        spec.slices[spec.slices.length - 1 - fromTop],
        spec.slices.drop (spec.slices.length - 1 - fromTop + 1), ?_, ?_,
        isVersion.symm, by simpa using matches_⟩
    · rw [List.getElem_cons_drop, List.take_append_drop]
    · rw [List.length_take]
      omega
  · cases found

/-- A path without a slot ends where no slice does. -/
theorem sliceSlot_eq_none
    {node : Nat}
    (notFound : spec.sliceSlot node = none) :
    ∀ slice ∈ spec.slices, (spec.head slice.version).node ≠ node := by
  unfold sliceSlot at notFound
  split at notFound
  · cases notFound
  · rename_i isNone
    intro slice member same
    have fails :=
      List.findIdx?_eq_none_iff.mp isNone slice
        (List.mem_reverse.mpr member)
    simp [same] at fails

/-- Inserting behind an element of a list. -/
theorem insertIdx_behind {α : Type}
    (front back : List α)
    (last item : α) :
    (front ++ last :: back).insertIdx (front.length + 1) item =
      front ++ last :: item :: back := by
  induction front with
  | nil =>
      simp
  | cons first rest inductionHypothesis =>
      simpa using inductionHypothesis

/-- A path recorded behind a slice that ends at the same node. -/
theorem Sliced.insert
    (sliced : Sliced base ends spec)
    {front back : List TFSpecSlice}
    {last : TFSpecSlice}
    (slices : spec.slices = front ++ last :: back)
    (path : List Nat) :
    Sliced base ends
      { spec with slices := front ++ last :: ⟨last.version, path⟩ :: back } := by
  have sorted := sliced.sorted
  have versions := sliced.versions
  simp only [slices, List.map_append, List.map_cons] at sorted versions
  refine ⟨sliced.heads, sliced.distinct, ?_, ?_⟩
  · simp only [List.map_append, List.map_cons]
    obtain ⟨inFront, behind, across⟩ := List.pairwise_append.mp sorted
    obtain ⟨above, inBack⟩ := List.pairwise_cons.mp behind
    refine List.pairwise_append.mpr ⟨inFront, ?_, ?_⟩
    · refine List.pairwise_cons.mpr ⟨?_, behind⟩
      intro version member
      rcases List.mem_cons.mp member with same | later
      · exact Nat.le_of_eq same.symm
      · exact above version later
    · intro low isLow high isHigh
      rcases List.mem_cons.mp isHigh with same | later
      · exact across low isLow high (by simp [same])
      · exact across low isLow high later
  · intro version
    rw [← versions version]
    simp only [List.map_append, List.map_cons, List.mem_append,
      List.mem_cons]
    constructor
    · rintro (low | same | same | high)
      · exact Or.inl low
      · exact Or.inr (Or.inl same)
      · exact Or.inr (Or.inl same)
      · exact Or.inr (Or.inr high)
    · rintro (low | same | high)
      · exact Or.inl low
      · exact Or.inr (Or.inl same)
      · exact Or.inr (Or.inr (Or.inr high))

/-- A path recorded with a head of its own, where no slice ends. -/
theorem Sliced.append
    (sliced : Sliced base ends spec)
    {node : Nat}
    (apart :
      ∀ slice ∈ spec.slices, (spec.head slice.version).node ≠ node)
    (path : List Nat) :
    Sliced base (ends ++ [node])
      { spec with
        heads := spec.heads ++ [⟨node, false, false⟩]
        slices := spec.slices ++ [⟨spec.heads.length, path⟩] } := by
  have length : spec.heads.length = base.length + ends.length := by
    rw [sliced.heads]
    simp
  refine ⟨?_, ?_, ?_, ?_⟩
  · simp [sliced.heads]
  · refine List.nodup_append.mpr
      ⟨sliced.distinct, List.nodup_singleton _, ?_⟩
    intro other within last isLast same
    rw [List.mem_singleton.mp isLast] at same
    obtain ⟨place, inRange, isOther⟩ := List.mem_iff_getElem.mp within
    have used :
        base.length + place ∈ spec.slices.map TFSpecSlice.version :=
      (sliced.versions _).mpr (by omega)
    obtain ⟨slice, member, version⟩ := List.mem_map.mp used
    refine apart slice member ?_
    rw [version, sliced.node inRange, isOther, same]
  · rw [List.map_append]
    refine List.pairwise_append.mpr
      ⟨sliced.sorted, List.pairwise_singleton _ _, ?_⟩
    intro low isLow high isHigh
    have below := ((sliced.versions low).mp isLow).2
    rw [List.map_singleton, List.mem_singleton] at isHigh
    simp only at isHigh
    omega
  · intro version
    rw [List.map_append, List.mem_append, sliced.versions,
      List.map_singleton, List.mem_singleton, List.length_append,
      List.length_singleton]
    simp only
    omega

end Slices

/-- Slices before any path. -/
theorem Sliced.empty
    {spec : TFSpec}
    (slices : spec.slices = []) :
    Sliced spec.heads [] spec where
  heads := by simp
  distinct := List.nodup_nil
  sorted := by simp [slices]
  versions := by
    intro version
    rw [slices]
    simp

/-- A graph with the same nodes, trees and frontier. -/
structure SameNodes (before after : TFSpec) : Prop where
  nodes : after.nodes = before.nodes
  trees : after.trees = before.trees
  frontier : after.frontier = before.frontier
  prefixLeft : after.prefixLeft = before.prefixLeft

/-- Recording a finished path leaves the nodes alone. -/
theorem addSlice_sameNodes
    {current : TFSpecIterator}
    {before after : TFSpecState}
    (ran : addSlice current before = .ok ((), after)) :
    SameNodes before.spec after.spec ∧
      (current.node < before.spec.nodes.length →
        before.spec.Linked → after.spec.Linked) := by
  unfold addSlice at ran
  obtain ⟨count, _, asked, ran⟩ := Program.bind_eq_ok.mp ran
  cases asked
  obtain ⟨_, roomy, room, ran⟩ := Program.bind_eq_ok.mp ran
  have same := reserveSlice_same room
  obtain ⟨found, _, asked, ran⟩ := Program.bind_eq_ok.mp ran
  simp only [asks, Program.gets_apply, Except.ok.injEq,
    Prod.mk.injEq] at asked
  obtain ⟨_, rfl⟩ := asked
  cases found with
  | some place =>
      cases ran
      refine ⟨⟨same.nodes, same.trees, same.frontier, same.prefixLeft⟩,
        fun _ linked => ?_⟩
      exact ⟨(same.linked linked).links, (same.linked linked).heads⟩
  | none =>
      obtain ⟨version, _, made, ran⟩ := Program.bind_eq_ok.mp ran
      obtain ⟨capacity, heap, rfl, rfl⟩ := newHead_eq_ok made
      cases ran
      refine ⟨⟨same.nodes, same.trees, same.frontier, same.prefixLeft⟩,
        fun inRange linked => ?_⟩
      refine ⟨(same.linked linked).links, ?_⟩
      intro head member
      rcases List.mem_append.mp member with old | new
      · exact (same.linked linked).heads head old
      · rw [List.mem_singleton.mp new]
        simpa only [same.nodes] using inRange

/-- What recording a finished path does. -/
theorem addSlice_spec
    {current : TFSpecIterator}
    {before after : TFSpecState}
    (ran : addSlice current before = .ok ((), after))
    {base : List TFSpecHead}
    {ends : List Nat}
    (sliced : Sliced base ends before.spec) :
    (∃ ends', Sliced base ends' after.spec) ∧
      List.Perm after.spec.slicePaths
        ((current.node, current.path) :: before.spec.slicePaths) := by
  unfold addSlice at ran
  obtain ⟨count, _, asked, ran⟩ := Program.bind_eq_ok.mp ran
  cases asked
  obtain ⟨_, roomy, room, ran⟩ := Program.bind_eq_ok.mp ran
  have same := reserveSlice_same room
  obtain ⟨found, _, asked, ran⟩ := Program.bind_eq_ok.mp ran
  simp only [asks, Program.gets_apply, Except.ok.injEq,
    Prod.mk.injEq] at asked
  obtain ⟨found, rfl⟩ := asked
  have slicedRoomy := same.sliced sliced
  rw [← same.slicePaths]
  cases slot : roomy.spec.sliceSlot current.node with
  | some place =>
      obtain ⟨slot, version⟩ := place
      rw [slot] at found
      subst found
      obtain ⟨front, last, back, slices, rfl, rfl, endsThere⟩ :=
        sliceSlot_eq_some slot
      cases ran
      simp only [slices, insertIdx_behind]
      refine ⟨⟨ends, slicedRoomy.insert slices current.path⟩, ?_⟩
      · have moved :
            List.Perm
              ((front ++ [last]) ++ ⟨last.version, current.path⟩ :: back)
              (⟨last.version, current.path⟩ ::
                ((front ++ [last]) ++ back)) :=
          List.perm_middle
        have paths :=
          moved.map
            (fun slice : TFSpecSlice =>
              ((roomy.spec.head slice.version).node, slice.children))
        rw [List.map_cons, endsThere] at paths
        have old :
            roomy.spec.slicePaths =
              ((front ++ [last]) ++ back).map
                (fun slice =>
                  ((roomy.spec.head slice.version).node,
                    slice.children)) := by
          simp [slicePaths, slices]
        rw [old]
        refine List.Perm.trans (List.Perm.of_eq ?_) paths
        simp only [slicePaths, List.append_assoc, List.singleton_append]
        rfl
  | none =>
      rw [slot] at found
      subst found
      obtain ⟨version, _, made, ran⟩ := Program.bind_eq_ok.mp ran
      obtain ⟨capacity, heap, rfl, rfl⟩ := newHead_eq_ok made
      cases ran
      have appended :=
        slicedRoomy.append (sliceSlot_eq_none slot) current.path
      refine ⟨⟨ends ++ [current.node], ?_⟩, ?_⟩
      · constructor
        · exact appended.heads
        · exact appended.distinct
        · exact appended.sorted
        · exact appended.versions
      · have old :
            ∀ slice ∈ roomy.spec.slices,
              (roomy.spec.heads ++
                    [(⟨current.node, false, false⟩ : TFSpecHead)]).getD
                  slice.version default =
                roomy.spec.head slice.version := by
          intro slice member
          have below :=
            ((slicedRoomy.versions slice.version).mp
              (List.mem_map_of_mem member)).2
          have length :
              roomy.spec.heads.length = base.length + ends.length := by
            rw [slicedRoomy.heads]
            simp
          rw [List.getD_append _ _ _ _ (by omega)]
          rfl
        simp only [slicePaths, TFSpec.head, List.map_append,
          List.map_singleton]
        rw [List.map_congr_left
          (fun slice member => by rw [old slice member])]
        simp only [List.getD_append_right, Nat.le_refl, Nat.sub_self,
          List.getD_cons_zero]
        exact List.perm_append_singleton _ _

section Walk

variable {goal : Option Nat}

/-- Following a link leads the iterator past it. -/
theorem followLink_eq_ok
    {current moved : TFSpecIterator}
    {link : TFSpecLink}
    {before after : TFSpecState}
    (ran : followLink current link before = .ok (moved, after)) :
    moved = before.spec.stepIterator current link ∧
      Same before.spec after.spec := by
  unfold followLink at ran
  obtain ⟨used, _, asked, ran⟩ := Program.bind_eq_ok.mp ran
  cases asked
  obtain ⟨_, _, room, ran⟩ := Program.bind_eq_ok.mp ran
  obtain ⟨capacity, heap, rfl⟩ := reserve_eq_ok room
  obtain ⟨_, _, counted, ran⟩ := Program.bind_eq_ok.mp ran
  cases counted
  cases ran
  exact ⟨rfl, rfl, rfl, rfl, rfl, rfl, rfl⟩

/-- The same trees lead iterators to the same places. -/
theorem Same.stepIterator
    {before after : TFSpec}
    (same : Same before after)
    (current : TFSpecIterator)
    (link : TFSpecLink) :
    after.stepIterator current link = before.stepIterator current link := by
  unfold TFSpec.stepIterator TFSpec.tree
  rw [same.trees]

/-- Where there is room for all, an iterator forks over every further link. -/
theorem forkIterators_eq_ok
    {current : TFSpecIterator}
    {others : Nat}
    {links : List TFSpecLink}
    {appended appended' : List TFSpecIterator}
    {before after : TFSpecState}
    (ran :
      forkIterators current others links appended before =
        .ok (appended', after))
    (room : others + appended.length + links.length ≤ tfSpecIterators) :
    appended' =
        appended ++ links.map (before.spec.stepIterator current) ∧
      Same before.spec after.spec := by
  induction links generalizing appended before with
  | nil =>
      cases ran
      exact ⟨by simp, .refl _⟩
  | cons link rest inductionHypothesis =>
      rw [List.length_cons] at room
      unfold forkIterators at ran
      split at ran
      · omega
      · obtain ⟨forked, _, followed, ran⟩ := Program.bind_eq_ok.mp ran
        obtain ⟨rfl, same⟩ := followLink_eq_ok followed
        obtain ⟨rfl, sameLater⟩ :=
          inductionHypothesis ran
            (by rw [List.length_append, List.length_singleton]; omega)
        refine ⟨?_, sameLater.trans same⟩
        rw [List.append_assoc, List.singleton_append, List.map_cons]
        congr 2
        exact List.map_congr_left
          (fun other _ => same.stepIterator current other)

/-- Unroll below a node whose links a walk is about to read. -/
def settleFor (goal : Option Nat) (current : TFSpecIterator) : SpecM Unit :=
  if goal.isSome && goal != some current.count then
    unroll current.node
  else
    pure ()

/-- The rest of a round once an iterator's node is settled. -/
def walkFrom
    (goal : Option Nat)
    (current : TFSpecIterator)
    (todo done appended : List TFSpecIterator) :
    SpecM (List TFSpecIterator) := do
  let links ← asks (fun s => (s.node current.node).links)
  if ← asks (fun s => s.popEnds goal current.node current.count) then
    addSlice current
    popRound goal todo done appended
  else
    match links with
    | [] => popRound goal todo done appended
    | first :: further => do
        let appended ←
          forkIterators current (done.length + 1 + todo.length) further
            appended
        let moved ← followLink current first
        popRound goal todo (done ++ [moved]) appended

/-- A round settles the first node, then walks from it. -/
theorem popRound_cons
    (goal : Option Nat)
    (current : TFSpecIterator)
    (todo done appended : List TFSpecIterator) :
    popRound goal (current :: todo) done appended =
      settleFor goal current >>= fun _ =>
        walkFrom goal current todo done appended := by
  unfold settleFor walkFrom
  rw [popRound]
  split
  · rfl
  · rfl

/-- Settling a node unrolls at most a cell. -/
theorem settleFor_reads
    {current : TFSpecIterator}
    {before after : TFSpecState}
    (ran : settleFor goal current before = .ok ((), after))
    (inRange : current.node < before.spec.nodes.length) :
    WalkReads before.spec after.spec := by
  unfold settleFor at ran
  split at ran
  · exact (unroll_reads ran inRange).1
  · cases ran
    exact .refl _

/-! ### A round of the search -/

/-- The iterator that has come down a path. -/
def iteratorOf (start : Nat) (path : List Hop) : TFSpecIterator where
  node := endOf start path
  count := structuralCount path
  path := treesOf path

/-- An iterator is at its end where its path is. -/
theorem popEnds_iteratorOf
    (self : TFSpec)
    (start : Nat)
    (path : List Hop) :
    self.popEnds goal (iteratorOf start path).node
        (iteratorOf start path).count =
      self.arrived goal start path := by
  cases goal with
  | none =>
      show (self.node (endOf start path)).links.isEmpty =
        (self.linkHops (endOf start path)).isEmpty
      unfold linkHops
      cases (self.node (endOf start path)).links <;> simp
  | some goal =>
      exact (beq_eq_decide _ _).symm

/-- Moving over the links of a node adds a step to the path. -/
theorem map_stepIterator
    (self : TFSpec)
    (start : Nat)
    (path : List Hop) :
    (self.node (endOf start path)).links.map
        (self.stepIterator (iteratorOf start path)) =
      ((self.linkHops (endOf start path)).map
        (fun hop => path ++ [hop])).map (iteratorOf start) := by
  unfold linkHops
  refine List.ext_getElem (by simp) ?_
  intro place _ _
  simp [stepIterator, iteratorOf]

/-- Settling a node unrolls a cell, or does nothing. -/
theorem settleFor_unwound
    {current : TFSpecIterator}
    {before after : TFSpecState}
    (ran : settleFor goal current before = .ok ((), after))
    (linked : before.spec.Linked)
    (within : current.node < before.spec.nodes.length) :
    Unwound goal before.spec after.spec := by
  unfold settleFor unroll at ran
  split at ran
  · rename_i reads
    obtain ⟨atFrontier, _, asked, ran⟩ := Program.bind_eq_ok.mp ran
    simp only [asks, Program.gets_apply, Except.ok.injEq,
      Prod.mk.injEq] at asked
    obtain ⟨isThere, rfl⟩ := asked
    rw [← isThere] at ran
    split at ran
    · rename_i there
      simp only [Bool.and_eq_true, decide_eq_true_eq] at there reads
      rw [there.1] at within
      obtain ⟨capacity, heap, rfl⟩ := extend_eq_ok ran
      exact .of_unrolled linked within there.2 reads.1 rfl
    · cases ran
      exact .of_ground rfl
  · cases ran
    exact .of_ground rfl

/-- A node that is settled has all its steps down as links. -/
theorem hops_settled
    {current : TFSpecIterator}
    {before after : TFSpecState}
    (ran : settleFor goal current before = .ok ((), after))
    (within : current.node < before.spec.nodes.length)
    (goes :
      after.spec.popEnds goal current.node current.count = false) :
    after.spec.hops goal current.node =
      after.spec.linkHops current.node := by
  cases goal with
  | none =>
      rfl
  | some goal =>
      have apart : (some goal != some current.count) = true := by
        simp only [popEnds, decide_eq_false_iff_not] at goes
        simpa using Ne.symm goes
      unfold settleFor at ran
      rw [apart] at ran
      obtain ⟨_, settled⟩ := unroll_reads ran within
      have none_ : after.spec.cellsBelow current.node = 0 := by
        unfold cellsBelow
        split
        · rename_i atFrontier
          exact settled.unrolled atFrontier
        · rw [if_pos settled.inRange]
      rw [hops_some, none_]

/-- A walk under way, over a graph that is the first one but unrolled. -/
structure Walked
    (goal : Option Nat)
    (heads : List TFSpecHead)
    (base after : TFSpec) : Prop where
  unwound : Unwound goal base after
  linked : after.Linked
  sliced : ∃ ends, Sliced heads ends after

section Search

variable {base : TFSpec}
variable {heads : List TFSpecHead}
variable {start : Nat}

/-- Accounts aside, the walk is where it was. -/
theorem Walked.same
    {before after : TFSpec}
    (walked : Walked goal heads base before)
    (ground : after.ground = before.ground)
    (same : Same before after) :
    Walked goal heads base after where
  unwound := (Unwound.of_ground ground).trans walked.unwound
  linked := same.linked walked.linked
  sliced := by
    obtain ⟨ends, sliced⟩ := walked.sliced
    exact ⟨ends, same.sliced sliced⟩

/-- Settling a node keeps the walk, its heads and its slices. -/
theorem Walked.settleFor
    {current : TFSpecIterator}
    {before after : TFSpecState}
    (walked : Walked goal heads base before.spec)
    (ran : TFSpec.settleFor goal current before = .ok ((), after))
    (within : current.node < before.spec.nodes.length) :
    Walked goal heads base after.spec ∧
      before.spec.nodes.length ≤ after.spec.nodes.length ∧
      after.spec.slicePaths = before.spec.slicePaths := by
  have reads := settleFor_reads ran within
  obtain ⟨ends, sliced⟩ := walked.sliced
  refine ⟨⟨?_, reads.linked walked.linked, ends, ?_⟩, reads.grows.nodes, ?_⟩
  · exact (settleFor_unwound ran walked.linked within).trans walked.unwound
  · constructor
    · rw [reads.heads]
      exact sliced.heads
    · exact sliced.distinct
    · rw [reads.slices]
      exact sliced.sorted
    · rw [reads.slices]
      exact sliced.versions
  · unfold slicePaths TFSpec.head
    rw [reads.heads, reads.slices]

/-- The steps that may follow a path are the links of its settled end. -/
theorem steps_settled
    {path : List Hop}
    {before after : TFSpecState}
    (settled :
      settleFor goal (iteratorOf start path) before = .ok ((), after))
    (unwound : Unwound goal base before.spec)
    (linked : before.spec.Linked)
    (within : endOf start path < before.spec.nodes.length)
    (goes : base.arrived goal start path = false) :
    Unwound goal base after.spec ∧
      base.steps goal start path =
        after.spec.linkHops (endOf start path) := by
  have unwoundAfter :=
    (settleFor_unwound settled linked within).trans unwound
  refine ⟨unwoundAfter, ?_⟩
  have goesAfter : after.spec.arrived goal start path = false := by
    rw [unwoundAfter.arrived, goes]
  rw [steps, if_neg (by simp [goes]), ← unwoundAfter.hops]
  rw [← popEnds_iteratorOf] at goesAfter
  exact hops_settled settled within goesAfter

/-- The iterators over the links of a path's end are at its continuations. -/
theorem onward_iterators
    {spec : TFSpec}
    {path : List Hop}
    (hops : base.steps goal start path = spec.linkHops (endOf start path)) :
    (onward (base.steps goal start) path).map (iteratorOf start) =
      (spec.node (endOf start path)).links.map
        (spec.stepIterator (iteratorOf start path)) := by
  rw [onward, hops, map_stepIterator]

/-- What the turn of one path in a round comes to. -/
structure Turned
    (goal : Option Nat)
    (heads : List TFSpecHead)
    (base : TFSpec)
    (start : Nat)
    (path : List Hop)
    (before after : TFSpec) : Prop where
  walked : Walked goal heads base after
  nodes : before.nodes.length ≤ after.nodes.length
  /-- Its continuations stand at nodes of the graph. -/
  leads :
    ∀ next ∈ onward (base.steps goal start) path,
      endOf start next < after.nodes.length
  /-- It has been recorded if it is complete. -/
  records :
    List.Perm after.slicePaths
      (([path].filter (base.arrived goal start)).map (entryOf start) ++
        before.slicePaths)

/-- A path at its end is recorded, and has no continuations. -/
theorem turned_of_arrives
    {path : List Hop}
    {before after : TFSpecState}
    (walked : Walked goal heads base before.spec)
    (within : endOf start path < before.spec.nodes.length)
    (arrives : base.arrived goal start path = true)
    (added : addSlice (iteratorOf start path) before = .ok ((), after)) :
    onward (base.steps goal start) path = [] ∧
      Turned goal heads base start path before.spec after.spec := by
  have stops : onward (base.steps goal start) path = [] := by
    rw [onward, steps, if_pos arrives]
    rfl
  obtain ⟨ends, sliced⟩ := walked.sliced
  obtain ⟨slicedAfter, records⟩ := addSlice_spec added sliced
  obtain ⟨same, keepsLinked⟩ := addSlice_sameNodes added
  have ground : after.spec.ground = before.spec.ground :=
    ground_addSlice _ _ _ _ added
  refine ⟨stops, ?_, ?_, ?_, ?_⟩
  · exact ⟨(Unwound.of_ground ground).trans walked.unwound,
      keepsLinked within walked.linked, slicedAfter⟩
  · rw [same.nodes]
  · rw [stops]
    exact List.forall_mem_nil _
  · rw [List.filter_cons_of_pos arrives]
    exact records

/-- A path that goes on is at links of the graph, and is not recorded. -/
theorem turned_of_goes
    {path : List Hop}
    {before after : TFSpecState}
    (walked : Walked goal heads base before.spec)
    (goes : base.arrived goal start path = false)
    (hops :
      base.steps goal start path =
        before.spec.linkHops (endOf start path))
    (ground : after.spec.ground = before.spec.ground)
    (same : Same before.spec after.spec) :
    Turned goal heads base start path before.spec after.spec where
  walked := walked.same ground same
  nodes := by rw [same.nodes]
  leads := by
    intro next member
    obtain ⟨hop, may, rfl⟩ := mem_onward.mp member
    rw [hops] at may
    obtain ⟨place, inRange, rfl⟩ := List.mem_mapIdx.mp may
    rw [endOf_concat, same.nodes]
    exact (walked.linked.link (List.getElem_mem inRange)).1
  records := by
    rw [List.filter_cons_of_neg (by simp [goes]), same.slicePaths]
    exact List.Perm.refl _

/--
One turn of a round: a path at its end is recorded, and any other makes room
for its first continuation and has the further ones added behind.
-/
theorem popRound_step
    {path : List Hop}
    {todo done appended next : List TFSpecIterator}
    {before after : TFSpecState}
    (ran :
      popRound goal (iteratorOf start path :: todo) done appended before =
        .ok (next, after))
    (walked : Walked goal heads base before.spec)
    (within : endOf start path < before.spec.nodes.length)
    (room :
      done.length + appended.length +
          ((onward (base.steps goal start) path).length + todo.length) <
        tfSpecIterators) :
    ∃ turned : TFSpecState,
      Turned goal heads base start path before.spec turned.spec ∧
        popRound goal todo
            (done ++
              ((onward (base.steps goal start) path).take 1).map
                (iteratorOf start))
            (appended ++
              (onward (base.steps goal start) path).tail.map
                (iteratorOf start))
            turned =
          .ok (next, after) := by
  rw [popRound_cons] at ran
  obtain ⟨_, read, settled, ran⟩ := Program.bind_eq_ok.mp ran
  obtain ⟨walkedRead, grows, pathsRead⟩ := walked.settleFor settled within
  have later :
      ∀ {turned : TFSpec},
        Turned goal heads base start path read.spec turned →
          Turned goal heads base start path before.spec turned := by
    intro turned turns
    refine ⟨turns.walked, Nat.le_trans grows turns.nodes, turns.leads, ?_⟩
    rw [← pathsRead]
    exact turns.records
  unfold walkFrom at ran
  obtain ⟨links, _, asked, ran⟩ := Program.bind_eq_ok.mp ran
  simp only [asks, Program.gets_apply, Except.ok.injEq,
    Prod.mk.injEq] at asked
  obtain ⟨isLinks, rfl⟩ := asked
  obtain ⟨ends_, _, asked, ran⟩ := Program.bind_eq_ok.mp ran
  simp only [asks, Program.gets_apply, Except.ok.injEq,
    Prod.mk.injEq] at asked
  obtain ⟨isEnd, rfl⟩ := asked
  have arrives : base.arrived goal start path = ends_ := by
    rw [← walkedRead.unwound.arrived, ← popEnds_iteratorOf, isEnd]
  cases ends_ with
  | true =>
      rw [if_pos rfl] at ran
      obtain ⟨_, recorded, added, ran⟩ := Program.bind_eq_ok.mp ran
      obtain ⟨stops, turns⟩ :=
        turned_of_arrives walkedRead (Nat.lt_of_lt_of_le within grows)
          arrives added
      refine ⟨recorded, later turns, ?_⟩
      rw [stops]
      simpa using ran
  | false =>
      rw [if_neg Bool.false_ne_true] at ran
      obtain ⟨_, hops⟩ :=
        steps_settled settled walked.unwound walked.linked within arrives
      have onwards :
          (onward (base.steps goal start) path).map (iteratorOf start) =
            links.map (read.spec.stepIterator (iteratorOf start path)) := by
        rw [onward_iterators hops, ← isLinks]
        rfl
      rw [List.map_take, List.map_tail, onwards]
      have lengths := congrArg List.length onwards
      rw [List.length_map, List.length_map] at lengths
      cases links with
      | nil =>
          refine
            ⟨read, later (turned_of_goes walkedRead arrives hops rfl
              (.refl _)), ?_⟩
          simpa using ran
      | cons first further =>
          rw [List.length_cons] at lengths
          obtain ⟨forked, forkedState, forks, ran⟩ :=
            Program.bind_eq_ok.mp ran
          obtain ⟨moved, movedState, moves, ran⟩ :=
            Program.bind_eq_ok.mp ran
          obtain ⟨rfl, sameForked⟩ :=
            forkIterators_eq_ok forks (by omega)
          obtain ⟨rfl, sameMoved⟩ := followLink_eq_ok moves
          rw [sameForked.stepIterator] at ran
          have ground : movedState.spec.ground = read.spec.ground :=
            (ground_followLink _ _ _ _ _ moves).trans
              (ground_forkIterators _ _ _ _ _ _ _ forks)
          exact
            ⟨movedState, later (turned_of_goes walkedRead arrives hops ground
              (sameMoved.trans sameForked)), ran⟩

/--
A round is a round of the search for paths.  Those that are complete have been
recorded, and the others go on, as long as there is room for all of them.
-/
theorem popRound_spec
    {todo done appended : List (List Hop)}
    {next : List TFSpecIterator}
    {before after : TFSpecState}
    (ran :
      popRound goal (todo.map (iteratorOf start))
          (done.map (iteratorOf start)) (appended.map (iteratorOf start))
          before =
        .ok (next, after))
    (walked : Walked goal heads base before.spec)
    (room :
      ∀ count,
        done.length + appended.length +
            held (base.steps goal start) todo count <
          tfSpecIterators)
    (within :
      ∀ path ∈ todo ++ (done ++ appended),
        endOf start path < before.spec.nodes.length) :
    Walked goal heads base after.spec ∧
      next =
        ((done ++
            todo.flatMap
              (fun path => (onward (base.steps goal start) path).take 1)) ++
          (appended ++
            todo.flatMap
              (fun path =>
                (onward (base.steps goal start) path).tail))).map
          (iteratorOf start) ∧
      (∀ iterator ∈ next, iterator.node < after.spec.nodes.length) ∧
      List.Perm after.spec.slicePaths
        (before.spec.slicePaths ++
          (todo.filter (base.arrived goal start)).map (entryOf start)) := by
  induction todo generalizing done appended before with
  | nil =>
      cases ran
      refine ⟨walked, by simp, ?_, by simp⟩
      intro iterator member
      rw [← List.map_append] at member
      obtain ⟨path, isPath, rfl⟩ := List.mem_map.mp member
      exact within path isPath
  | cons path todo inductionHypothesis =>
      have roomLater :
          ∀ count,
            done.length + appended.length +
                ((onward (base.steps goal start) path).length +
                  held (base.steps goal start) todo count) <
              tfSpecIterators := by
        intro count
        rw [← held_cons_succ]
        exact room (count + 1)
      have roomHere := roomLater 0
      rw [held_zero] at roomHere
      obtain ⟨turnedState, turned, ran⟩ :=
        popRound_step ran walked (within path (List.mem_cons_self ..))
          (by simpa only [List.length_map] using roomHere)
      rw [← List.map_append, ← List.map_append] at ran
      obtain ⟨walkedEnd, isNext, nextWithin, records⟩ :=
        inductionHypothesis ran turned.walked
          (by
            intro count
            have enough := roomLater count
            simp only [List.length_append, List.length_take,
              List.length_tail]
            omega)
          (by
            intro other member
            have old :
                other ∈ path :: todo ++ (done ++ appended) →
                  endOf start other < turnedState.spec.nodes.length :=
              fun known => Nat.lt_of_lt_of_le (within other known) turned.nodes
            simp only [List.mem_append, List.mem_cons] at member old
            rcases member with isTodo | (isDone | isFirst) | isBehind | isNew
            · exact old (Or.inl (Or.inr isTodo))
            · exact old (Or.inr (Or.inl isDone))
            · exact turned.leads other (List.mem_of_mem_take isFirst)
            · exact old (Or.inr (Or.inr isBehind))
            · exact turned.leads other (List.mem_of_mem_tail isNew))
      refine ⟨walkedEnd, by simpa using isNext, nextWithin, ?_⟩
      refine records.trans ((turned.records.append_right _).trans ?_)
      have parts :
          (path :: todo).filter (base.arrived goal start) =
            [path].filter (base.arrived goal start) ++
              todo.filter (base.arrived goal start) := by
        rw [← List.filter_append, List.singleton_append]
      rw [parts, List.map_append, List.append_assoc]
      exact List.perm_append_comm_assoc _ _ _

end Search

/-! ### The whole walk -/

/-- One turn of the breadth-first loop. -/
def popTurn
    (goal : Option Nat)
    (iterators : List TFSpecIterator) :
    SpecM (List TFSpecIterator ⊕ Unit) :=
  match iterators with
  | [] => pure (.inr ())
  | _ => do pure (.inl (← popRound goal iterators [] []))

/-- The breadth-first walk repeats its turn. -/
theorem popPaths_eq (fuel version : Nat) :
    popPaths fuel version goal =
      asks (fun s => s.head version) >>= fun head =>
        Program.iterate .stuck (popTurn goal) fuel
          [⟨head.node, 0, []⟩] :=
  rfl

/-- The walk records the paths it comes to, each once. -/
theorem popTurns_spec
    {base : TFSpec}
    {heads : List TFSpecHead}
    {start fuel n : Nat}
    {before after : TFSpecState}
    (ran :
      Program.iterate .stuck (popTurn goal) fuel
          ((layers (base.steps goal start) n).map (iteratorOf start))
          before =
        .ok ((), after))
    (walked : Walked goal heads base before.spec)
    (room : Within (base.steps goal start) tfSpecIterators)
    (within :
      ∀ path ∈ layers (base.steps goal start) n,
        endOf start path < before.spec.nodes.length)
    (recorded :
      List.Perm before.spec.slicePaths
        ((found (base.steps goal start) (base.arrived goal start) n).map
          (entryOf start))) :
    Walked goal heads base after.spec ∧
      ∃ m,
        layers (base.steps goal start) m = [] ∧
          List.Perm after.spec.slicePaths
            ((found (base.steps goal start) (base.arrived goal start)
              m).map (entryOf start)) := by
  induction fuel generalizing n before with
  | zero =>
      cases ran
  | succ fuel inductionHypothesis =>
      obtain ⟨outcome, turnedState, turned, ran⟩ :=
        Program.bind_eq_ok.mp ran
      cases paths : layers (base.steps goal start) n with
      | nil =>
          rw [paths] at turned
          cases turned
          cases ran
          exact ⟨walked, n, paths, recorded⟩
      | cons first rest =>
          rw [paths] at turned
          obtain ⟨next, _, rounded, ended⟩ := Program.bind_eq_ok.mp turned
          cases ended
          have roomRound := room n
          rw [paths] at roomRound within
          have nothing : [] = ([] : List (List Hop)).map (iteratorOf start) :=
            rfl
          rw [nothing] at rounded
          obtain ⟨walkedOn, isNext, nextWithin, records⟩ :=
            popRound_spec rounded walked (by simpa using roomRound)
              (by simpa using within)
          have isRound :
              next =
                (layers (base.steps goal start) (n + 1)).map
                  (iteratorOf start) := by
            rw [isNext, layers, paths]
            rfl
          subst isRound
          refine inductionHypothesis ran walkedOn ?_ ?_
          · intro path member
            exact nextWithin _ (List.mem_map_of_mem member)
          · rw [found_succ, paths, List.map_append]
            exact records.trans (recorded.append_right _)

/-- One turn of the walk down a chain. -/
def chainTurn
    (goal : Option Nat)
    (current : TFSpecIterator) :
    SpecM (TFSpecIterator ⊕ Bool) := do
  if ← asks (fun s => s.popEnds goal current.node current.count) then
    reserveSlice current.path.length 1
    let head ← newHead current.node
    update (fun s => { s with slices := [⟨head, current.path⟩] })
    pure (.inr true)
  else
    if goal.isSome then
      unroll current.node
    match ← asks (fun s => (s.node current.node).links) with
    | [link] => pure (.inl (← asks (fun s => s.stepIterator current link)))
    | _ => pure (.inr false)

/-- The walk down a chain repeats its turn. -/
theorem popChain_eq (fuel version : Nat) :
    popChain fuel version goal =
      asks (fun s => s.head version) >>= fun head =>
        Program.iterate .stuck (chainTurn goal) fuel
          ⟨head.node, 0, []⟩ :=
  rfl

/-- What a turn down a chain goes on to once its node is settled. -/
def chainOn
    (current : TFSpecIterator) :
    SpecM (TFSpecIterator ⊕ Bool) := do
  match ← asks (fun s => (s.node current.node).links) with
  | [link] => pure (.inl (← asks (fun s => s.stepIterator current link)))
  | _ => pure (.inr false)

/-- A turn before the end settles its node, as a round does. -/
theorem chainTurn_goes
    {current : TFSpecIterator}
    {before : TFSpecState}
    (goes :
      before.spec.popEnds goal current.node current.count = false) :
    chainTurn goal current before =
      (settleFor goal current >>= fun _ => chainOn current) before := by
  unfold chainTurn
  rw [Program.bind_of_ok
    (show asks _ before = .ok (_, before) from rfl),
    if_neg (by simp [goes])]
  unfold settleFor
  cases goal with
  | none =>
      rfl
  | some goal =>
      have apart : (some goal != some current.count) = true := by
        simp only [popEnds, decide_eq_false_iff_not] at goes
        simpa using Ne.symm goes
      rw [apart]
      rfl

/-- What a walk down a chain comes to. -/
structure Chained
    (answer : Bool)
    (before after : TFSpec) : Prop where
  nodes : before.nodes.length ≤ after.nodes.length
  linked : after.Linked
  /-- At its end, a path has been recorded with a head of its own. -/
  ended : answer = true → ∃ ends, Sliced before.heads ends after
  /-- At a fork or a dead end, nothing has been recorded. -/
  forked :
    answer = false →
      after.heads = before.heads ∧ after.slices = before.slices

/-- The walk down a chain records a path, or leaves heads and slices. -/
theorem chainTurns_spec
    {fuel : Nat}
    {current : TFSpecIterator}
    {answer : Bool}
    {before after : TFSpecState}
    (ran :
      Program.iterate .stuck (chainTurn goal) fuel current before =
        .ok (answer, after))
    (linked : before.spec.Linked)
    (within : current.node < before.spec.nodes.length) :
    Chained answer before.spec after.spec := by
  induction fuel generalizing current before with
  | zero =>
      cases ran
  | succ fuel inductionHypothesis =>
      obtain ⟨outcome, turnedState, turned, ran⟩ :=
        Program.bind_eq_ok.mp ran
      cases goes : before.spec.popEnds goal current.node current.count with
      | true =>
          unfold chainTurn at turned
          rw [Program.bind_of_ok
            (show asks _ before = .ok (_, before) from rfl),
            if_pos goes] at turned
          obtain ⟨_, roomy, room, turned⟩ := Program.bind_eq_ok.mp turned
          have same := reserveSlice_same room
          obtain ⟨head, _, made, turned⟩ := Program.bind_eq_ok.mp turned
          obtain ⟨capacity, heap, rfl, rfl⟩ := newHead_eq_ok made
          obtain ⟨_, _, recorded, turned⟩ := Program.bind_eq_ok.mp turned
          cases recorded
          cases turned
          cases ran
          refine
            ⟨Nat.le_of_eq (congrArg List.length same.nodes.symm), ?_, ?_,
              nofun⟩
          · refine ⟨(same.linked linked).links, ?_⟩
            intro head member
            rcases List.mem_append.mp member with old | new
            · exact (same.linked linked).heads head old
            · rw [List.mem_singleton.mp new]
              simpa only [same.nodes] using within
          · intro _
            refine ⟨[current.node], ?_⟩
            constructor
            · simp [same.heads]
            · exact List.nodup_singleton _
            · exact List.pairwise_singleton _ _
            · intro version
              simp only [same.heads, List.map_singleton,
                List.mem_singleton, List.length_singleton]
              omega
      | false =>
          rw [chainTurn_goes goes] at turned
          obtain ⟨_, read, settled, turned⟩ := Program.bind_eq_ok.mp turned
          have reads := settleFor_reads settled within
          unfold chainOn at turned
          obtain ⟨links, _, asked, turned⟩ := Program.bind_eq_ok.mp turned
          simp only [asks, Program.gets_apply, Except.ok.injEq,
            Prod.mk.injEq] at asked
          obtain ⟨isLinks, rfl⟩ := asked
          split at turned
          · rename_i link
            obtain ⟨next, _, asked, turned⟩ := Program.bind_eq_ok.mp turned
            cases asked
            obtain ⟨isNext, sameState⟩ :=
              Prod.mk.inj (Except.ok.inj turned)
            subst isNext sameState
            have isLink :
                link ∈ (read.spec.node current.node).links := by
              rw [isLinks]
              exact List.mem_singleton_self _
            have chained :=
              inductionHypothesis ran (reads.linked linked)
                ((reads.linked linked).link isLink).1
            refine
              ⟨Nat.le_trans reads.grows.nodes chained.nodes, chained.linked,
                ?_, ?_⟩
            · intro isEnd
              rw [← reads.heads]
              exact chained.ended isEnd
            · intro isFork
              obtain ⟨heads, slices⟩ := chained.forked isFork
              exact ⟨heads.trans reads.heads, slices.trans reads.slices⟩
          · obtain ⟨isNext, sameState⟩ :=
              Prod.mk.inj (Except.ok.inj turned)
            subst isNext sameState
            cases ran
            exact ⟨reads.grows.nodes, reads.linked linked, nofun,
              fun _ => ⟨reads.heads, reads.slices⟩⟩

end Walk

end TFSpec

end TreeFeller
