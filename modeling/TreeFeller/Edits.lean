import TreeFeller.Reached

namespace TreeFeller

open StatefulProgram

/-!
# Invariants of single edits

The programs of a split edit the graph in a few ways only: they add a tree, add
a node that has links, change the links of a node, change the precedence of a
tree, unroll a cell and recover shapes.  An invariant that each such edit
maintains holds of every graph a split reaches.
-/

namespace TFSpec

open Program

/-- Graphs with the same nodes, trees and inherited cells. -/
structure SameGraph (before after : TFSpec) : Prop where
  trees : after.trees = before.trees
  nodes : after.nodes = before.nodes
  frontier : after.frontier = before.frontier
  prefixLeft : after.prefixLeft = before.prefixLeft
  prefixTree : after.prefixTree = before.prefixTree
  captureId : after.captureId = before.captureId
  materialized : after.materialized = before.materialized
  captured : after.captured = before.captured
  owner : after.owner = before.owner

/-- An invariant that every single edit of a graph maintains. -/
structure Robust (holds : TFSpec → Prop) : Prop where
  aside :
    ∀ {before after : TFSpec},
      SameGraph before after → holds before → holds after
  tree :
    ∀ {self : TFSpec} {tree : TFSpecTree},
      tree.isOpaque = false → holds self →
        holds { self with trees := self.trees ++ [tree] }
  node :
    ∀ {self : TFSpec} {node : TFSpecNode},
      node.links ≠ [] → holds self →
        holds { self with nodes := self.nodes ++ [node] }
  relink :
    ∀ {self : TFSpec} {index : Nat} {change : TFSpecNode → TFSpecNode},
      (∀ node, node.links ≠ [] → (change node).links ≠ []) →
        holds self → holds (self.modifyNode index change)
  reweigh :
    ∀ {self : TFSpec} {index : Nat} {change : TFSpecTree → Int},
      holds self →
        holds (self.modifyTree index (fun tree =>
          { tree with precedence := change tree }))
  unrolled : ∀ {self : TFSpec}, holds self → holds self.unrolled

/-- Two invariants are one. -/
theorem Robust.and
    {first second : TFSpec → Prop}
    (firstRobust : Robust first)
    (secondRobust : Robust second) :
    Robust (fun graph => first graph ∧ second graph) where
  aside := fun same both =>
    ⟨firstRobust.aside same both.1, secondRobust.aside same both.2⟩
  tree := fun known both =>
    ⟨firstRobust.tree known both.1, secondRobust.tree known both.2⟩
  node := fun linked both =>
    ⟨firstRobust.node linked both.1, secondRobust.node linked both.2⟩
  relink := fun linked both =>
    ⟨firstRobust.relink linked both.1, secondRobust.relink linked both.2⟩
  reweigh := fun both =>
    ⟨firstRobust.reweigh both.1, secondRobust.reweigh both.2⟩
  unrolled := fun both =>
    ⟨firstRobust.unrolled both.1, secondRobust.unrolled both.2⟩

/-- An invariant that every single edit maintains but adding a tree. -/
structure Steady (holds : TFSpec → Prop) : Prop where
  aside :
    ∀ {before after : TFSpec},
      SameGraph before after → holds before → holds after
  node :
    ∀ {self : TFSpec} {node : TFSpecNode},
      node.links ≠ [] → holds self →
        holds { self with nodes := self.nodes ++ [node] }
  relink :
    ∀ {self : TFSpec} {index : Nat} {change : TFSpecNode → TFSpecNode},
      (∀ node, node.links ≠ [] → (change node).links ≠ []) →
        holds self → holds (self.modifyNode index change)
  reweigh :
    ∀ {self : TFSpec} {index : Nat} {change : TFSpecTree → Int},
      holds self →
        holds (self.modifyTree index (fun tree =>
          { tree with precedence := change tree }))
  unrolled :
    ∀ {self : TFSpec},
      self.prefixLeft ≠ 0 → holds self → holds self.unrolled

/-- What every edit maintains, all of them but one do. -/
theorem Robust.steady
    {holds : TFSpec → Prop}
    (robust : Robust holds) :
    Steady holds where
  aside := robust.aside
  node := robust.node
  relink := robust.relink
  reweigh := robust.reweigh
  unrolled := fun _ => robust.unrolled

section Keeping

variable {holds : TFSpec → Prop}
variable (steady : Steady holds)

include steady

/-- Updating nothing of the graph. -/
theorem edits_update
    {change : TFSpec → TFSpec}
    (same : ∀ spec, SameGraph spec (change spec)) :
    Maintains (fun state : TFSpecState => holds state.spec)
      (update change) := by
  intro before value after kept ran
  cases ran
  exact steady.aside (same _) kept

omit steady in
/-- Reading the graph. -/
theorem edits_asks
    {α : Type}
    {project : TFSpec → α} :
    Maintains (fun state : TFSpecState => holds state.spec)
      (asks project) := by
  intro before value after kept ran
  cases ran
  exact kept

/-- Reserving. -/
theorem edits_reserve
    (arena : TFSpecArena)
    (needed : Nat) :
    Maintains (fun state : TFSpecState => holds state.spec)
      (reserve arena needed) := by
  intro before value after kept ran
  obtain ⟨capacity, heap, rfl⟩ := reserve_eq_ok ran
  refine steady.aside ?_ kept
  exact ⟨rfl, rfl, rfl, rfl, rfl, rfl, rfl, rfl, rfl⟩

omit steady in
/-- A new tree whose children are known. -/
theorem edits_newTree
    (robust : Robust holds)
    {tree : TFSpecTree}
    (known : tree.isOpaque = false) :
    Maintains (fun state : TFSpecState => holds state.spec)
      (newTree tree) := by
  intro before value after kept ran
  obtain ⟨capacity, heap, rfl, rfl⟩ := newTree_ran ran
  refine robust.aside ?_ (robust.tree known kept)
  exact ⟨rfl, rfl, rfl, rfl, rfl, rfl, rfl, rfl, rfl⟩

/-- A new head. -/
theorem edits_newHead
    (node : Nat) :
    Maintains (fun state : TFSpecState => holds state.spec)
      (newHead node) := by
  intro before value after kept ran
  obtain ⟨capacity, heap, rfl, rfl⟩ := newHead_eq_ok ran
  refine steady.aside ?_ kept
  exact ⟨rfl, rfl, rfl, rfl, rfl, rfl, rfl, rfl, rfl⟩

/-- Taking link slots. -/
theorem edits_newLinks
    (count : Nat) :
    Maintains (fun state : TFSpecState => holds state.spec)
      (newLinks count) := by
  intro before value after kept ran
  obtain ⟨capacity, heap, rfl⟩ := newLinks_eq_ok ran
  refine steady.aside ?_ kept
  exact ⟨rfl, rfl, rfl, rfl, rfl, rfl, rfl, rfl, rfl⟩

/-- A new node that has links. -/
theorem edits_addNode
    {node : TFSpecNode}
    (linked : node.links ≠ []) :
    Maintains (fun state : TFSpecState => holds state.spec)
      (addNode node) := by
  unfold TFSpec.addNode
  refine Maintains.bind edits_asks (fun count => ?_)
  refine Maintains.bind ?_ (fun _ => Maintains.pure)
  intro before value after kept ran
  cases ran
  exact steady.node linked kept

/-- Pushing a tree. -/
theorem edits_push
    (previous tree : Nat)
    (state : TSStateId) :
    Maintains (fun state : TFSpecState => holds state.spec)
      (push previous tree state) := by
  unfold TFSpec.push
  refine Maintains.bind edits_asks (fun count => ?_)
  refine Maintains.bind (edits_reserve steady _ _) (fun _ => ?_)
  refine Maintains.bind (edits_newLinks steady _) (fun _ => ?_)
  intro before value after kept ran
  obtain ⟨node, _, asked, ran⟩ := Program.bind_eq_ok.mp ran
  cases asked
  exact edits_addNode steady (by simp [pushedNode]) _ _ _ kept ran

omit steady in
/-- Unrolling one cell. -/
theorem edits_extend
    (robust : Robust holds) :
    Maintains (fun state : TFSpecState => holds state.spec) extend := by
  intro before value after kept ran
  obtain ⟨capacity, heap, rfl⟩ := extend_eq_ok ran
  refine robust.aside ?_ (robust.unrolled kept)
  exact ⟨rfl, rfl, rfl, rfl, rfl, rfl, rfl, rfl, rfl⟩

/-- Unrolling a cell that is there. -/
theorem edits_extend_left
    {before after : TFSpecState}
    (left : before.spec.prefixLeft ≠ 0)
    (kept : holds before.spec)
    (ran : extend before = .ok ((), after)) :
    holds after.spec := by
  obtain ⟨capacity, heap, rfl⟩ := extend_eq_ok ran
  refine steady.aside ?_ (steady.unrolled left kept)
  exact ⟨rfl, rfl, rfl, rfl, rfl, rfl, rfl, rfl, rfl⟩

/-- Unrolling below a node. -/
theorem edits_unroll
    (node : Nat) :
    Maintains (fun state : TFSpecState => holds state.spec)
      (unroll node) := by
  intro before value after kept ran
  unfold TFSpec.unroll at ran
  obtain ⟨atFrontier, _, asked, ran⟩ := Program.bind_eq_ok.mp ran
  cases asked
  split at ran
  · rename_i here
    simp only [Bool.and_eq_true, decide_eq_true_eq] at here
    exact edits_extend_left steady here.2 kept ran
  · cases ran
    exact kept

/-- Changing the links of a node that has some to others. -/
theorem edits_modifyNode
    {index : Nat}
    {change : TFSpec → TFSpecNode → TFSpecNode}
    (linked :
      ∀ spec node, node.links ≠ [] → (change spec node).links ≠ []) :
    Maintains (fun state : TFSpecState => holds state.spec)
      (update (fun spec => spec.modifyNode index (change spec))) := by
  intro before value after kept ran
  cases ran
  exact steady.relink (linked _) kept

end Keeping

/-! ## Merging -/

section Merging

variable {holds : TFSpec → Prop}
variable (steady : Steady holds)
variable {materialize : SpecM Unit}
variable
  (recovers :
    Maintains (fun state : TFSpecState => holds state.spec) materialize)

include recovers

/-- Comparing trees. -/
theorem edits_equivalent
    (a b : Nat) :
    Maintains (fun state : TFSpecState => holds state.spec)
      (equivalent materialize a b) := by
  unfold equivalent
  refine Maintains.ite Maintains.pure ?_
  refine Maintains.bind edits_asks (fun x => ?_)
  refine Maintains.bind edits_asks (fun y => ?_)
  refine Maintains.ite Maintains.pure ?_
  exact Maintains.ite
    (Maintains.bind recovers (fun _ => edits_asks)) edits_asks

/-- Looking for a link that takes another in. -/
theorem edits_findLink
    (link : TFSpecLink)
    (index : Nat)
    (links : List TFSpecLink) :
    Maintains (fun state : TFSpecState => holds state.spec)
      (findLink materialize link index links) := by
  induction links generalizing index with
  | nil =>
      exact Maintains.pure
  | cons first rest inductionHypothesis =>
      unfold findLink
      refine Maintains.bind (edits_equivalent recovers _ _) (fun same => ?_)
      refine Maintains.ite (inductionHypothesis _) ?_
      refine Maintains.bind edits_asks (fun merges => ?_)
      exact Maintains.ite Maintains.pure (inductionHypothesis _)

omit recovers in
include steady in
/-- Raising a precedence. -/
theorem edits_raisePrecedence
    (target : Nat)
    (link : TFSpecLink) :
    Maintains (fun state : TFSpecState => holds state.spec)
      (update (fun spec => spec.raisePrecedence target link)) :=
  edits_modifyNode steady (fun _ _ linked => linked)

omit recovers in
include steady in
/-- Appending a link. -/
theorem edits_appendLink
    (target : Nat)
    (link : TFSpecLink) :
    Maintains (fun state : TFSpecState => holds state.spec)
      (appendLink target link) := by
  have appends :
      Maintains (fun state : TFSpecState => holds state.spec) (do
        TFSpec.update (fun spec =>
          spec.modifyNode target (fun node =>
            { node with links := node.links ++ [link] }))
        TFSpec.update (fun spec => spec.raisePrecedence target link)) := by
    refine Maintains.bind ?_ (fun _ => edits_raisePrecedence steady _ _)
    exact edits_modifyNode steady (fun _ node linked => by simp)
  unfold TFSpec.appendLink
  refine Maintains.bind edits_asks (fun node => ?_)
  refine Maintains.ite
    (edits_update steady
      (fun _ => ⟨rfl, rfl, rfl, rfl, rfl, rfl, rfl, rfl, rfl⟩)) ?_
  refine Maintains.ite ?_ appends
  refine Maintains.bind (edits_newLinks steady _) (fun _ => ?_)
  exact Maintains.bind (edits_modifyNode steady (fun _ _ linked => linked))
    (fun _ => appends)

omit recovers in
include steady in
/-- Keeping the better tree on a link. -/
theorem edits_replaceTree
    (target index : Nat)
    (existing link : TFSpecLink) :
    Maintains (fun state : TFSpecState => holds state.spec)
      (update (fun spec =>
        spec.replaceTree target index existing link)) := by
  intro before value after kept ran
  cases ran
  unfold TFSpec.replaceTree
  dsimp only
  split
  · refine steady.relink ?_ kept
    intro node linked same
    apply linked
    have length := congrArg List.length same
    rw [List.length_set] at length
    exact List.eq_nil_of_length_eq_zero length
  · exact kept

include steady in
/-- Adding a link. -/
theorem edits_addLink
    (fuel target : Nat)
    (link : TFSpecLink) :
    Maintains (fun state : TFSpecState => holds state.spec)
      (addLink materialize fuel target link) := by
  induction fuel generalizing target link with
  | zero =>
      exact Ensures.stop
  | succ fuel inductionHypothesis =>
      unfold TFSpec.addLink
      refine Maintains.ite Maintains.pure ?_
      refine Maintains.bind (edits_unroll steady _) (fun _ => ?_)
      refine Maintains.bind edits_asks (fun links => ?_)
      refine Maintains.bind (edits_findLink recovers _ _ _)
        (fun found => ?_)
      cases found with
      | none =>
          exact edits_appendLink steady _ _
      | some place =>
          obtain ⟨index, existing⟩ := place
          refine Maintains.ite (edits_replaceTree steady _ _ _ _) ?_
          refine Maintains.bind ?_ (fun _ => edits_raisePrecedence steady _ _)
          unfold absorbWith
          refine Maintains.bind edits_asks (fun sources => ?_)
          exact Ensures.forEach (fun source _ => inductionHypothesis _ _)

include steady in
/-- Merging two heads. -/
theorem edits_merge
    (fuel a b : Nat) :
    Maintains (fun state : TFSpecState => holds state.spec)
      (merge materialize fuel a b) := by
  unfold TFSpec.merge
  refine Maintains.bind edits_asks (fun agrees => ?_)
  refine Maintains.ite ?_ Maintains.pure
  refine Maintains.bind edits_asks (fun into => ?_)
  refine Maintains.bind edits_asks (fun source => ?_)
  refine Maintains.bind ?_ (fun _ => ?_)
  · unfold absorb absorbWith
    refine Maintains.bind edits_asks (fun sources => ?_)
    exact Ensures.forEach
      (fun link _ => edits_addLink steady recovers fuel into link)
  · exact Maintains.bind
      (edits_update steady
        (fun _ => ⟨rfl, rfl, rfl, rfl, rfl, rfl, rfl, rfl, rfl⟩))
      (fun _ => Maintains.pure)

include steady in
/-- Comparing shapes. -/
theorem edits_preferShapes
    (fuel : Nat)
    (pairs : List (Nat × Nat)) :
    Maintains (fun state : TFSpecState => holds state.spec)
      (preferShapes materialize fuel pairs) := by
  unfold TFSpec.preferShapes
  refine Maintains.iterate (fun current => ?_) fuel pairs
  cases current with
  | nil =>
      exact Maintains.pure
  | cons pair rest =>
      obtain ⟨left, right⟩ := pair
      have compares :
          Maintains (fun state : TFSpecState => holds state.spec) (do
            let x ← asks (fun s => s.tree left)
            let y ← asks (fun s => s.tree right)
            if x.children.length ≠ y.children.length then
              pure (.inr
                (decide (y.children.length < x.children.length)))
            else
              TFSpec.reserve .scratch
                (2 * rest.length + 2 * x.children.length)
              pure (.inl (x.children.zip y.children ++ rest)) :
              SpecM (List (Nat × Nat) ⊕ Bool)) := by
        refine Maintains.bind edits_asks (fun x => ?_)
        refine Maintains.bind edits_asks (fun y => ?_)
        refine Maintains.ite Maintains.pure ?_
        exact Maintains.bind (edits_reserve steady _ _)
          (fun _ => Maintains.pure)
      refine Maintains.ite Maintains.pure ?_
      refine Maintains.bind edits_asks (fun x => ?_)
      refine Maintains.bind edits_asks (fun y => ?_)
      refine Maintains.ite Maintains.pure ?_
      exact Maintains.ite
        (Maintains.bind recovers (fun _ => compares)) compares

include steady in
/-- Preferring one tree to another. -/
theorem edits_prefer
    (fuel : Nat)
    (a : Option Nat)
    (b : Nat) :
    Maintains (fun state : TFSpecState => holds state.spec)
      (prefer materialize fuel a b) := by
  unfold TFSpec.prefer
  cases a with
  | none =>
      exact Maintains.pure
  | some a =>
      refine Maintains.bind edits_asks (fun x => ?_)
      refine Maintains.bind edits_asks (fun y => ?_)
      refine Maintains.ite Maintains.pure ?_
      exact Maintains.bind (edits_reserve steady _ _)
        (fun _ => edits_preferShapes steady recovers _ _)

end Merging

/-! ## Popping -/

section Popping

variable {holds : TFSpec → Prop}
variable (steady : Steady holds)

include steady

/-- Taking room for a slice. -/
theorem edits_reserveSlice
    (length slices : Nat) :
    Maintains (fun state : TFSpecState => holds state.spec)
      (reserveSlice length slices) := by
  unfold reserveSlice
  refine Maintains.bind edits_asks (fun used => ?_)
  refine Maintains.bind (edits_reserve steady _ _) (fun _ => ?_)
  refine Maintains.bind (edits_reserve steady _ _) (fun _ => ?_)
  exact edits_update steady
    (fun _ => ⟨rfl, rfl, rfl, rfl, rfl, rfl, rfl, rfl, rfl⟩)

omit steady in
/-- Going down a chain, one link further or to its end. -/
theorem edits_chainStep
    (current : TFSpecIterator) :
    Maintains (fun state : TFSpecState => holds state.spec) (do
      match ← asks (fun s => (s.node current.node).links) with
      | [link] =>
          pure (.inl (← asks (fun s => s.stepIterator current link)))
      | _ => pure (.inr false) : SpecM (TFSpecIterator ⊕ Bool)) := by
  refine Maintains.bind edits_asks (fun links => ?_)
  split
  · exact Maintains.bind edits_asks (fun _ => Maintains.pure)
  · exact Maintains.pure

/-- Walking a chain. -/
theorem edits_popChain
    (fuel version : Nat)
    (goal : Option Nat) :
    Maintains (fun state : TFSpecState => holds state.spec)
      (popChain fuel version goal) := by
  unfold popChain
  refine Maintains.bind edits_asks (fun head => ?_)
  refine Maintains.iterate (fun current => ?_) _ _
  refine Maintains.bind edits_asks (fun ends => ?_)
  refine Maintains.ite ?_ ?_
  · refine Maintains.bind (edits_reserveSlice steady _ _) (fun _ => ?_)
    refine Maintains.bind (edits_newHead steady _) (fun head => ?_)
    refine Maintains.bind ?_ (fun _ => Maintains.pure)
    exact edits_update steady
      (fun _ => ⟨rfl, rfl, rfl, rfl, rfl, rfl, rfl, rfl, rfl⟩)
  · exact Maintains.ite
      (Maintains.bind (edits_unroll steady _)
        (fun _ => edits_chainStep current))
      (edits_chainStep current)

/-- Recording a path. -/
theorem edits_addSlice
    (current : TFSpecIterator) :
    Maintains (fun state : TFSpecState => holds state.spec)
      (addSlice current) := by
  unfold addSlice
  refine Maintains.bind edits_asks (fun count => ?_)
  refine Maintains.bind (edits_reserveSlice steady _ _) (fun _ => ?_)
  refine Maintains.bind edits_asks (fun found => ?_)
  cases found with
  | none =>
      refine Maintains.bind (edits_newHead steady _) (fun version => ?_)
      exact edits_update steady
        (fun _ => ⟨rfl, rfl, rfl, rfl, rfl, rfl, rfl, rfl, rfl⟩)
  | some place =>
      exact edits_update steady
        (fun _ => ⟨rfl, rfl, rfl, rfl, rfl, rfl, rfl, rfl, rfl⟩)

/-- Following a link. -/
theorem edits_followLink
    (current : TFSpecIterator)
    (link : TFSpecLink) :
    Maintains (fun state : TFSpecState => holds state.spec)
      (followLink current link) := by
  unfold followLink
  refine Maintains.bind edits_asks (fun count => ?_)
  refine Maintains.bind (edits_reserve steady _ _) (fun _ => ?_)
  refine Maintains.bind ?_ (fun _ => edits_asks)
  exact edits_update steady
    (fun _ => ⟨rfl, rfl, rfl, rfl, rfl, rfl, rfl, rfl, rfl⟩)

/-- Forking an iterator. -/
theorem edits_forkIterators
    (current : TFSpecIterator)
    (others : Nat)
    (links : List TFSpecLink)
    (appended : List TFSpecIterator) :
    Maintains (fun state : TFSpecState => holds state.spec)
      (forkIterators current others links appended) := by
  induction links generalizing appended with
  | nil =>
      exact Maintains.pure
  | cons link rest inductionHypothesis =>
      unfold forkIterators
      refine Maintains.ite ?_ ?_
      · refine Maintains.bind ?_ (fun _ => inductionHypothesis _)
        exact edits_update steady
          (fun _ => ⟨rfl, rfl, rfl, rfl, rfl, rfl, rfl, rfl, rfl⟩)
      · exact Maintains.bind (edits_followLink steady _ _)
          (fun _ => inductionHypothesis _)

/-- Going on from one iterator, and from the others after it. -/
theorem edits_popStep
    {goal : Option Nat}
    {rest : List TFSpecIterator}
    (current : TFSpecIterator)
    (done appended : List TFSpecIterator)
    (later :
      ∀ done appended,
        Maintains (fun state : TFSpecState => holds state.spec)
          (popRound goal rest done appended)) :
    Maintains (fun state : TFSpecState => holds state.spec) (do
      let links ← asks (fun s => (s.node current.node).links)
      if ← asks (fun s => s.popEnds goal current.node current.count) then
        addSlice current
        popRound goal rest done appended
      else
        match links with
        | [] => popRound goal rest done appended
        | first :: further => do
            let appended ←
              forkIterators current (done.length + 1 + rest.length) further
                appended
            let moved ← followLink current first
            popRound goal rest (done ++ [moved]) appended) := by
  refine Maintains.bind edits_asks (fun links => ?_)
  refine Maintains.bind edits_asks (fun ends => ?_)
  refine Maintains.ite ?_ ?_
  · exact Maintains.bind (edits_addSlice steady _) (fun _ => later _ _)
  · cases links with
    | nil =>
        exact later _ _
    | cons first further =>
        refine Maintains.bind (edits_forkIterators steady _ _ _ _)
          (fun forked => ?_)
        exact Maintains.bind (edits_followLink steady _ _)
          (fun _ => later _ _)

/-- One round of a pop. -/
theorem edits_popRound
    (goal : Option Nat)
    (todo done appended : List TFSpecIterator) :
    Maintains (fun state : TFSpecState => holds state.spec)
      (popRound goal todo done appended) := by
  induction todo generalizing done appended with
  | nil =>
      exact Maintains.pure
  | cons current rest inductionHypothesis =>
      have moves :=
        edits_popStep steady current done appended inductionHypothesis
      unfold popRound
      exact Maintains.ite
        (Maintains.bind (edits_unroll steady _) (fun _ => moves)) moves

/-- Popping. -/
theorem edits_pop
    (fuel version : Nat)
    (goal : Option Nat) :
    Maintains (fun state : TFSpecState => holds state.spec)
      (pop fuel version goal) := by
  unfold pop
  refine Maintains.bind
    (edits_update steady
      (fun _ => ⟨rfl, rfl, rfl, rfl, rfl, rfl, rfl, rfl, rfl⟩))
    (fun _ => ?_)
  refine Maintains.bind (edits_popChain steady _ _ _) (fun straight => ?_)
  refine Maintains.ite Maintains.pure ?_
  unfold popPaths
  refine Maintains.bind edits_asks (fun head => ?_)
  refine Maintains.iterate (fun iterators => ?_) _ _
  cases iterators with
  | nil =>
      exact Maintains.pure
  | cons first rest =>
      exact Maintains.bind (edits_popRound steady _ _ _ _)
        (fun _ => Maintains.pure)

end Popping

/-! ## Reducing, shifting and accepting -/

section Turns

variable {holds : TFSpec → Prop}
variable {env : TFSpecEnv}

section Beside

variable (steady : Steady holds)

include steady

/-- Pushing the extras a reduction leaves. -/
theorem edits_pushExtras
    (state : TSStateId)
    (extras : List Nat)
    (top : Nat) :
    Maintains (fun state : TFSpecState => holds state.spec)
      (pushExtras state extras top) := by
  induction extras generalizing top with
  | nil =>
      exact Maintains.pure
  | cons tree rest inductionHypothesis =>
      unfold pushExtras
      exact Maintains.bind (edits_push steady _ _ _)
        (fun pushed => inductionHypothesis pushed)

omit steady in
/-- Recording a failure changes nothing of the graph. -/
theorem sameGraph_recordError
    (self : TFSpec)
    (byte : Nat)
    (point : TFPoint)
    (state : TSStateId)
    (symbol : TSSymbol)
    (isLex : Bool) :
    SameGraph self (self.recordError byte point state symbol isLex) := by
  unfold recordError
  split
  · exact ⟨rfl, rfl, rfl, rfl, rfl, rfl, rfl, rfl, rfl⟩
  · exact ⟨rfl, rfl, rfl, rfl, rfl, rfl, rfl, rfl, rfl⟩

/-- Lexing. -/
theorem edits_lex
    (node : Nat) :
    Maintains (fun state : TFSpecState => holds state.spec)
      (lex env node) := by
  unfold lex
  refine Maintains.bind edits_asks (fun at_ => ?_)
  refine Maintains.bind edits_asks (fun reuse => ?_)
  refine Maintains.ite edits_asks ?_
  refine Maintains.bind ?_ (fun found => ?_)
  · intro before value after kept ran
    cases ran
    exact kept
  · cases found with
    | none =>
        refine Maintains.bind ?_ (fun _ => Maintains.pure)
        intro before value after kept ran
        cases ran
        exact steady.aside (sameGraph_recordError _ _ _ _ _ _) kept
    | some token =>
        intro before value after kept ran
        cases ran
        refine steady.aside ?_ kept
        exact ⟨rfl, rfl, rfl, rfl, rfl, rfl, rfl, rfl, rfl⟩

/-- Merging a new head below. -/
theorem edits_mergeBelow
    (recovers :
      Maintains (fun state : TFSpecState => holds state.spec)
        env.materialize)
    (version created : Nat)
    (others : List Nat) :
    Maintains (fun state : TFSpecState => holds state.spec)
      (mergeBelow env version created others) := by
  induction others with
  | nil =>
      exact Maintains.pure
  | cons other rest inductionHypothesis =>
      unfold mergeBelow
      refine Maintains.ite inductionHypothesis ?_
      refine Maintains.bind (edits_merge steady recovers _ _ _)
        (fun merged => ?_)
      exact Maintains.ite Maintains.pure inductionHypothesis

end Beside

variable (robust : Robust holds)
variable
  (recovers :
    Maintains (fun state : TFSpecState => holds state.spec)
      env.materialize)

include robust

/-- Adding the tree of a reduction. -/
theorem edits_parent
    (symbol : TSSymbol)
    (production structural : Nat)
    (children : List Nat)
    (base : Nat) :
    Maintains (fun state : TFSpecState => holds state.spec)
      (parent symbol production structural children base) := by
  unfold parent
  intro before value after kept ran
  obtain ⟨tree, _, asked, ran⟩ := Program.bind_eq_ok.mp ran
  cases asked
  have known :
      (before.spec.parentTree symbol production structural children
        base).isOpaque = false :=
    rfl
  exact edits_newTree robust known _ _ _ kept ran

include recovers

/-- Choosing a parent. -/
theorem edits_selectParent
    (symbol : TSSymbol)
    (childCount productionId base : Nat)
    (paths : List (List Nat))
    (chosen : Option (Nat × List Nat)) :
    Maintains (fun state : TFSpecState => holds state.spec)
      (selectParent env symbol childCount productionId base paths
        chosen) := by
  induction paths generalizing chosen with
  | nil =>
      exact Maintains.pure
  | cons path rest inductionHypothesis =>
      unfold selectParent
      refine Maintains.bind edits_asks (fun trimmed => ?_)
      refine Maintains.bind (edits_parent robust _ _ _ _ _)
        (fun candidate => ?_)
      refine Maintains.bind (edits_prefer robust.steady recovers _ _ _)
        (fun better => ?_)
      exact Maintains.ite (inductionHypothesis _) (inductionHypothesis _)

/-- The reduction over the paths to one base. -/
theorem edits_reduceGroup
    (version created : Nat)
    (symbol : TSSymbol)
    (childCount productionId : Nat)
    (dynamicPrecedence : Int)
    (paths : List (List Nat)) :
    Maintains (fun state : TFSpecState => holds state.spec)
      (reduceGroup env version created symbol childCount productionId
        dynamicPrecedence paths) := by
  unfold reduceGroup
  refine Maintains.bind edits_asks (fun head => ?_)
  refine Maintains.bind (edits_selectParent robust recovers _ _ _ _ _ _)
    (fun chosen => ?_)
  cases chosen with
  | none =>
      exact Ensures.stop
  | some chosen =>
      obtain ⟨tree, trailing⟩ := chosen
      refine Maintains.bind ?_ (fun _ => ?_)
      · intro before value after kept ran
        cases ran
        exact robust.reweigh kept
      · refine Maintains.bind edits_asks (fun state => ?_)
        refine Maintains.bind (edits_push robust.steady _ _ _) (fun pushed => ?_)
        refine Maintains.bind (edits_pushExtras robust.steady _ _ _)
          (fun top => ?_)
        refine Maintains.bind
          (edits_update robust.steady
            (fun _ => ⟨rfl, rfl, rfl, rfl, rfl, rfl, rfl, rfl, rfl⟩))
          (fun _ => ?_)
        exact edits_mergeBelow robust.steady recovers _ _ _

/-- The reduction over every group of slices. -/
theorem edits_reduceGroups
    (version halted : Nat)
    (symbol : TSSymbol)
    (childCount productionId : Nat)
    (dynamicPrecedence : Int)
    (groups : List (Nat × List (List Nat)))
    (removed : Nat) :
    Maintains (fun state : TFSpecState => holds state.spec)
      (reduceGroups env version halted symbol childCount productionId
        dynamicPrecedence groups removed) := by
  induction groups generalizing removed with
  | nil =>
      exact Maintains.pure
  | cons group rest inductionHypothesis =>
      obtain ⟨slice, paths⟩ := group
      unfold reduceGroups
      refine Maintains.ite ?_ ?_
      · refine Maintains.bind
          (edits_update robust.steady
            (fun _ => ⟨rfl, rfl, rfl, rfl, rfl, rfl, rfl, rfl, rfl⟩))
          (fun _ => ?_)
        refine Maintains.bind
          (edits_update robust.steady
            (fun _ => ⟨rfl, rfl, rfl, rfl, rfl, rfl, rfl, rfl, rfl⟩))
          (fun _ => ?_)
        exact inductionHypothesis _
      · exact Maintains.bind
          (edits_reduceGroup robust recovers _ _ _ _ _ _ _)
          (fun merged => inductionHypothesis _)

/-- Reducing a head. -/
theorem edits_reduce
    (version childCount : Nat)
    (symbol : TSSymbol)
    (dynamicPrecedence : Int)
    (productionId : Nat) :
    Maintains (fun state : TFSpecState => holds state.spec)
      (reduce env version childCount symbol dynamicPrecedence
        productionId) := by
  unfold reduce
  refine Maintains.bind edits_asks (fun initial => ?_)
  refine Maintains.bind edits_asks (fun halted => ?_)
  refine Maintains.bind (edits_pop robust.steady _ _ _) (fun _ => ?_)
  refine Maintains.bind edits_asks (fun slices => ?_)
  refine Maintains.bind
    (edits_reduceGroups robust recovers _ _ _ _ _ _ _ _) (fun _ => ?_)
  refine Maintains.bind edits_asks (fun left => ?_)
  exact Maintains.ite Maintains.pure Maintains.pure

omit recovers in
/-- Shifting a token. -/
theorem edits_shift
    (version : Nat)
    (token : TFToken)
    (state : TSStateId)
    (extra : Bool) :
    Maintains (fun state : TFSpecState => holds state.spec)
      (shift version token state extra) := by
  unfold shift
  refine Maintains.bind edits_asks (fun head => ?_)
  refine Maintains.bind edits_asks (fun byte => ?_)
  refine Maintains.bind (edits_newTree robust rfl) (fun leaf => ?_)
  refine Maintains.bind (edits_push robust.steady _ _ _) (fun node => ?_)
  exact edits_update robust.steady
    (fun _ => ⟨rfl, rfl, rfl, rfl, rfl, rfl, rfl, rfl, rfl⟩)

/-- Rebuilding a root. -/
theorem edits_acceptPath
    (path : List Nat) :
    Maintains (fun state : TFSpecState => holds state.spec)
      (acceptPath env path) := by
  have rebuilds :
      ∀ index, Maintains (fun state : TFSpecState => holds state.spec) (do
        let root ← asks (fun s => s.tree (path.getD index 0))
        let children :=
          path.take index ++ root.children ++ path.drop (index + 1)
        TFSpec.reserve .children
          ((← asks TFSpec.childCount) + children.length)
        update (fun s =>
          { s with childCount := s.childCount + children.length })
        let candidate ←
          parent root.token.symbol root.productionId root.structuralCount
            children 0
        if ← prefer env.materialize env.fuel (← asks TFSpec.finished)
            candidate then
          update (fun s => { s with finished := some candidate })) := by
    intro index
    refine Maintains.bind edits_asks (fun root => ?_)
    refine Maintains.bind edits_asks (fun count => ?_)
    refine Maintains.bind (edits_reserve robust.steady _ _) (fun _ => ?_)
    refine Maintains.bind
      (edits_update robust.steady
        (fun _ => ⟨rfl, rfl, rfl, rfl, rfl, rfl, rfl, rfl, rfl⟩))
      (fun _ => ?_)
    refine Maintains.bind (edits_parent robust _ _ _ _ _)
      (fun candidate => ?_)
    refine Maintains.bind edits_asks (fun finished => ?_)
    refine Maintains.bind (edits_prefer robust.steady recovers _ _ _)
      (fun better => ?_)
    exact Maintains.ite
      (edits_update robust.steady
        (fun _ => ⟨rfl, rfl, rfl, rfl, rfl, rfl, rfl, rfl, rfl⟩))
      Maintains.pure
  unfold acceptPath
  refine Maintains.bind edits_asks (fun found => ?_)
  cases found with
  | none =>
      exact Maintains.pure
  | some index =>
      refine Maintains.bind edits_asks (fun unknown => ?_)
      exact Maintains.ite
        (Maintains.bind recovers (fun _ => rebuilds index))
        (rebuilds index)

end Turns

/-- Every program of a split maintains an invariant that single edits do. -/
theorem Turn.maintains
    {lang : TFLanguage}
    {fuel : Nat}
    {holds : TFSpec → Prop}
    {α : Type}
    {program : SpecM α}
    (turn : Turn (splitEnv lang fuel) program)
    (robust : Robust holds)
    (recovers :
      Maintains (fun state : TFSpecState => holds state.spec)
        (materialize lang fuel)) :
    Maintains (fun state : TFSpecState => holds state.spec) program := by
  cases turn with
  | extend =>
      exact edits_extend robust
  | lex node =>
      exact edits_lex robust.steady node
  | shift version token state extra =>
      exact edits_shift robust version token state extra
  | reduce version childCount symbol dynamicPrecedence productionId =>
      exact edits_reduce robust recovers version childCount symbol
        dynamicPrecedence productionId
  | pop fuel' version goal =>
      exact edits_pop robust.steady fuel' version goal
  | acceptPath path =>
      exact edits_acceptPath robust recovers path
  | merge fuel' a b =>
      exact edits_merge robust.steady recovers fuel' a b
  | recordError byte point state symbol isLex =>
      exact edits_update robust.steady
        (fun spec => sameGraph_recordError spec _ _ _ _ _)
  | halt | removeHead | follow | swap | cut | flag =>
      exact edits_update robust.steady
        (fun _ => ⟨rfl, rfl, rfl, rfl, rfl, rfl, rfl, rfl, rfl⟩)

/-- A graph before its first step: one node, and the stack below it. -/
structure Begun (graph : TFSpec) : Prop where
  trees : graph.trees = []
  nodes : ∃ node, graph.nodes = [node] ∧ node.links = []
  frontier : graph.frontier = 0
  prefixTree : graph.prefixTree = []
  materialized : graph.materialized = false
  captured : graph.captured = false

/-- What holds at first, and through every edit, holds of every graph. -/
theorem Reached.invariant
    {lang : TFLanguage}
    {fuel : Nat}
    {holds : TFSpec → Prop}
    {state : TFSpecState}
    (reached : Reached lang fuel state)
    (robust : Robust holds)
    (recovers :
      Maintains (fun state : TFSpecState => holds state.spec)
        (materialize lang fuel))
    (begun : ∀ self : TFSpec, self.Begun → holds self) :
    holds state.spec := by
  induction reached with
  | begun room node head =>
      obtain ⟨capacity, heap, rfl⟩ := reserve_eq_ok room
      unfold addNode at node
      obtain ⟨count, _, asked, node⟩ := Program.bind_eq_ok.mp node
      cases asked
      obtain ⟨_, _, added, node⟩ := Program.bind_eq_ok.mp node
      cases added
      cases node
      obtain ⟨capacity, heap, rfl, rfl⟩ := newHead_eq_ok head
      exact begun _ ⟨rfl, ⟨_, rfl, rfl⟩, rfl, rfl, rfl, rfl⟩
  | turn earlier turn ran inductionHypothesis =>
      exact turn.maintains robust recovers _ _ _ inductionHypothesis ran

end TFSpec

end TreeFeller
