import TreeFeller.Grafts

namespace TreeFeller

open StatefulProgram

/-!
# The trees on the links of a graph

Merging and popping make no trees, but for those of cells that they unroll.  So
the trees on the links stay among given ones, and the slices of a pop are made
of such trees.
-/

namespace TFSpec

open Program

/-- A tree that stands for the cell it was unrolled from. -/
structure Slot (graph : TFSpec) (tree : Nat) : Prop where
  within : tree < graph.trees.length
  isInherited : (graph.tree tree).inherited = true
  cell :
    ∃ index,
      SameTree
        (inheritedTree (graph.owner.cells.getD index default).node
          (topByte (graph.owner.cells.take index)))
        (graph.tree tree)

/-- The trees of unrolled cells stand for them. -/
def Slotted (graph : TFSpec) : Prop :=
  ∀ tree ∈ graph.prefixTree, Slot graph tree

/-- The tree of an unrolled cell shows it. -/
theorem Slot.grafted
    {graph : TFSpec}
    {tree : Nat}
    (slot : Slot graph tree) :
    Grafted graph tree := by
  obtain ⟨index, same⟩ := slot.cell
  have shows :
      (graph.owner.cells.getD index default).node.forget =
        (graph.tree tree).shown := by
    rw [same.shown]
    rfl
  exact .inherited slot.within slot.isInherited shows same.paddingStart
    same.structuralCount

/-- The trees of unrolled cells go on standing for them. -/
theorem Slotted.later
    {before after : TFSpec}
    (slots : Slotted before)
    (evolves : Evolves before after)
    (prefixTree : after.prefixTree = before.prefixTree) :
    Slotted after := by
  intro tree member
  rw [prefixTree] at member
  have slot := slots tree member
  have same := evolves.tree tree slot.within
  obtain ⟨index, isCell⟩ := slot.cell
  refine ⟨Nat.lt_of_lt_of_le slot.within evolves.trees,
    same.inherited.trans slot.isInherited, index, ?_⟩
  rw [evolves.owner]
  exact same.trans isCell

/-- And so does the tree of one more. -/
theorem Slotted.unrolled
    {graph : TFSpec}
    (slots : Slotted graph) :
    Slotted graph.unrolled := by
  have trees := (unrolls_unrolled graph).trees.1
  have owner := (rest_unrolled graph).1
  intro tree member
  rw [(fields_unrolled graph).2.2.1] at member
  rcases List.mem_append.mp member with old | new
  · have slot := slots tree old
    have same := trees_unrolled tree slot.within
    have within := slot.within
    obtain ⟨index, isCell⟩ := slot.cell
    refine ⟨by omega, ?_, index, ?_⟩
    · rw [same]
      exact slot.isInherited
    · rw [same, owner]
      exact isCell
  · rw [List.mem_singleton.mp new]
    have isCell := cellTree_unrolled graph
    refine ⟨by omega, isCell.inherited, graph.prefixLeft - 1, ?_⟩
    rw [owner]
    exact isCell

/-- A tree that is given, or of an unrolled cell. -/
def Known (given : Nat → Prop) (graph : TFSpec) (tree : Nat) : Prop :=
  given tree ∨ tree ∈ graph.prefixTree

/-- A graph, come from another, whose links carry known trees. -/
structure Carries
    (given : Nat → Prop)
    (base graph : TFSpec) :
    Prop where
  evolves : Evolves base graph
  cells : base.prefixTree ⊆ graph.prefixTree
  slots : Slotted graph
  isSealed : graph.Sealed
  frontier : graph.frontier < graph.nodes.length
  links :
    ∀ node, ∀ link ∈ (graph.node node).links,
      Known given graph link.tree

section Edits

variable {given : Nat → Prop}
variable {base before after : TFSpec}

/-- What comes from a later graph comes from an earlier one. -/
theorem Carries.trans
    (later : Carries given before after)
    (earlier : Carries given base before) :
    Carries given base after :=
  ⟨later.evolves.trans earlier.evolves,
    List.Subset.trans earlier.cells later.cells, later.slots,
    later.isSealed, later.frontier, later.links⟩

/-- A graph comes from itself. -/
theorem Carries.start
    (carries : Carries given base before) :
    Carries given before before :=
  ⟨.refl _, List.Subset.refl _, carries.slots, carries.isSealed,
    carries.frontier, carries.links⟩

/-- A known tree stays known. -/
theorem Carries.known
    (carries : Carries given base before)
    {tree : Nat}
    (known : Known given base tree) :
    Known given before tree :=
  known.imp_right (fun member => carries.cells member)

/-- An edit that leaves nodes and trees alone. -/
theorem Carries.aside
    (carries : Carries given base before)
    (same : SameGraph before after) :
    Carries given base after := by
  have evolves := Evolves.of_same same.nodes same.trees same.owner
  refine ⟨evolves.trans carries.evolves, ?_,
    carries.slots.later evolves same.prefixTree,
    robust_sealed.aside same carries.isSealed, ?_, ?_⟩
  · rw [same.prefixTree]
    exact carries.cells
  · rw [same.frontier, same.nodes]
    exact carries.frontier
  intro node link isLink
  unfold TFSpec.node at isLink
  rw [same.nodes] at isLink
  unfold Known
  rw [same.prefixTree]
  exact carries.links node link isLink

/-- Another tree. -/
theorem Carries.addTree
    (carries : Carries given base before)
    {tree : TFSpecTree}
    (shaped : tree.isOpaque = false) :
    Carries given base { before with trees := before.trees ++ [tree] } := by
  have evolves := evolves_tree before tree
  exact ⟨evolves.trans carries.evolves, carries.cells,
    carries.slots.later evolves rfl,
    robust_sealed.tree shaped carries.isSealed, carries.frontier,
    carries.links⟩

/-- Another precedence of a tree. -/
theorem Carries.reweigh
    (carries : Carries given base before)
    (index : Nat)
    (change : TFSpecTree → Int) :
    Carries given base
      (before.modifyTree index (fun tree =>
        { tree with precedence := change tree })) := by
  have evolves :
      Evolves before
        (before.modifyTree index (fun tree =>
          { tree with precedence := change tree })) := by
    refine ⟨Nat.le_refl _, ?_, fun _ _ => rfl, fun _ _ => rfl, ?_, rfl⟩
    · unfold modifyTree
      rw [List.length_modify]
    · intro tree _
      rw [tree_modifyTree]
      split
      · exact ⟨rfl, rfl, rfl, rfl, rfl, rfl, fun _ => rfl⟩
      · exact .refl _
  exact ⟨evolves.trans carries.evolves, carries.cells,
    carries.slots.later evolves rfl,
    robust_sealed.reweigh carries.isSealed, carries.frontier,
    carries.links⟩

/-- Another node, over a known tree. -/
theorem Carries.pushNode
    (carries : Carries given base before)
    {previous tree : Nat}
    {state : TSStateId}
    (known : Known given before tree) :
    Carries given base
      { before with
        nodes := before.nodes ++
          [before.pushedNode previous tree state] } := by
  have evolves :=
    evolves_node before (before.pushedNode previous tree state)
  refine ⟨evolves.trans carries.evolves, carries.cells,
    carries.slots.later evolves rfl,
    robust_sealed.node (by simp [pushedNode]) carries.isSealed, ?_, ?_⟩
  · simp only [List.length_append, List.length_singleton]
    exact Nat.lt_succ_of_lt carries.frontier
  intro node link isLink
  rw [node_append] at isLink
  split at isLink
  · rw [List.mem_singleton.mp isLink]
    exact known
  · exact carries.links node link isLink

/-- Changing the links of a node to others over known trees. -/
theorem Carries.modifyNode
    (carries : Carries given base before)
    {target : Nat}
    {change : TFSpecNode → TFSpecNode}
    (state : ∀ node, (change node).state = node.state)
    (byte : ∀ node, (change node).byte = node.byte)
    (some_ : ∀ node, node.links ≠ [] → (change node).links ≠ [])
    (links :
      ∀ link ∈ (change (before.node target)).links,
        link ∈ (before.node target).links ∨
          Known given before link.tree) :
    Carries given base (before.modifyNode target change) := by
  have evolves := evolves_modifyNode before target state byte
  refine ⟨evolves.trans carries.evolves, carries.cells,
    carries.slots.later evolves rfl,
    robust_sealed.relink some_ carries.isSealed, ?_, ?_⟩
  · simp only [TFSpec.modifyNode, List.length_modify]
    exact carries.frontier
  intro node link isLink
  rw [node_modifyNode] at isLink
  split at isLink
  · rename_i here
    obtain ⟨rfl, _⟩ := here
    rcases links link isLink with old | known
    · exact carries.links target link old
    · exact known
  · exact carries.links node link isLink

/-- Unrolling a cell makes its tree known. -/
theorem Carries.unrolled
    (carries : Carries given base before) :
    Carries given base before.unrolled := by
  have prefixTree := (fields_unrolled before).2.2.1
  have within := carries.frontier
  refine ⟨(evolves_unrolled before within).trans carries.evolves, ?_,
    carries.slots.unrolled, robust_sealed.unrolled carries.isSealed, ?_,
    ?_⟩
  · rw [prefixTree]
    exact List.Subset.trans carries.cells (List.subset_append_left _ _)
  · rw [(rest_unrolled before).2.1, (unrolls_unrolled before).length]
    exact Nat.lt_succ_self _
  intro node link isLink
  unfold Known
  rw [prefixTree]
  rw [node_unrolled before within] at isLink
  split at isLink
  · rw [List.mem_singleton.mp isLink]
    exact Or.inr (List.mem_append_right _ (List.mem_singleton_self _))
  · split at isLink
    · cases isLink
    · exact (carries.links node link isLink).imp_right
        (List.mem_append_left _)

end Edits

/-! ## Merging -/

section Merging

variable {given : Nat → Prop}
variable {base : TFSpec}

/-- Reading the graph. -/
theorem carries_asks
    {α : Type}
    {project : TFSpec → α} :
    Maintains (fun state : TFSpecState => Carries given base state.spec)
      (asks project) := by
  intro before value after carries ran
  cases ran
  exact carries

/-- Updating what is not the graph. -/
theorem carries_update
    {change : TFSpec → TFSpec}
    (same : ∀ graph, SameGraph graph (change graph)) :
    Maintains (fun state : TFSpecState => Carries given base state.spec)
      (update change) := by
  intro before value after carries ran
  cases ran
  exact carries.aside (same _)

/-- Reserving. -/
theorem carries_reserve
    (arena : TFSpecArena)
    (needed : Nat) :
    Maintains (fun state : TFSpecState => Carries given base state.spec)
      (reserve arena needed) := by
  intro before value after carries ran
  obtain ⟨capacity, heap, rfl⟩ := reserve_eq_ok ran
  refine carries.aside ?_
  exact ⟨rfl, rfl, rfl, rfl, rfl, rfl, rfl, rfl, rfl⟩

/-- Taking link slots. -/
theorem carries_newLinks
    (count : Nat) :
    Maintains (fun state : TFSpecState => Carries given base state.spec)
      (newLinks count) := by
  intro before value after carries ran
  obtain ⟨capacity, heap, rfl⟩ := newLinks_eq_ok ran
  refine carries.aside ?_
  exact ⟨rfl, rfl, rfl, rfl, rfl, rfl, rfl, rfl, rfl⟩

/-- Unrolling one cell. -/
theorem carries_extend :
    Maintains (fun state : TFSpecState => Carries given base state.spec)
      extend := by
  intro before value after carries ran
  obtain ⟨capacity, heap, rfl⟩ := extend_eq_ok ran
  refine carries.unrolled.aside ?_
  exact ⟨rfl, rfl, rfl, rfl, rfl, rfl, rfl, rfl, rfl⟩

/-- Unrolling below a node. -/
theorem carries_unroll
    (node : Nat) :
    Maintains (fun state : TFSpecState => Carries given base state.spec)
      (unroll node) := by
  unfold TFSpec.unroll
  refine Maintains.bind carries_asks (fun atFrontier => ?_)
  exact Maintains.ite carries_extend Maintains.pure

/-- Pushing a known tree. -/
theorem carries_push
    {before after : TFSpecState}
    {previous tree node : Nat}
    {state : TSStateId}
    (carries : Carries given base before.spec)
    (known : Known given before.spec tree)
    (ran : push previous tree state before = .ok (node, after)) :
    Carries given base after.spec := by
  obtain ⟨rfl, capacity, heap, rfl⟩ := push_ran ran
  have pushed :
      Carries given base
        { before.spec with
          nodes := before.spec.nodes ++
            [before.spec.pushedNode previous tree state] } :=
    carries.pushNode known
  refine pushed.aside ?_
  exact ⟨rfl, rfl, rfl, rfl, rfl, rfl, rfl, rfl, rfl⟩

variable {materialize : SpecM Unit}
variable
  (recovers :
    Maintains (fun state : TFSpecState => Carries given base state.spec)
      materialize)

include recovers

/-- Comparing trees. -/
theorem carries_equivalent
    (a b : Nat) :
    Maintains (fun state : TFSpecState => Carries given base state.spec)
      (equivalent materialize a b) := by
  unfold equivalent
  refine Maintains.ite Maintains.pure ?_
  refine Maintains.bind carries_asks (fun x => ?_)
  refine Maintains.bind carries_asks (fun y => ?_)
  refine Maintains.ite Maintains.pure ?_
  exact Maintains.ite
    (Maintains.bind recovers (fun _ => carries_asks)) carries_asks

/-- Looking for a link that takes another in. -/
theorem carries_findLink
    (link : TFSpecLink)
    (index : Nat)
    (links : List TFSpecLink) :
    Maintains (fun state : TFSpecState => Carries given base state.spec)
      (findLink materialize link index links) := by
  induction links generalizing index with
  | nil =>
      exact Maintains.pure
  | cons first rest inductionHypothesis =>
      unfold findLink
      refine Maintains.bind (carries_equivalent recovers _ _) (fun same => ?_)
      refine Maintains.ite (inductionHypothesis _) ?_
      refine Maintains.bind carries_asks (fun merges => ?_)
      exact Maintains.ite Maintains.pure (inductionHypothesis _)

omit recovers in
/-- Raising a precedence. -/
theorem carries_raisePrecedence
    (target : Nat)
    (link : TFSpecLink) :
    Maintains (fun state : TFSpecState => Carries given base state.spec)
      (update (fun spec => spec.raisePrecedence target link)) := by
  intro before value after carries ran
  cases ran
  exact carries.modifyNode (fun _ => rfl) (fun _ => rfl)
    (fun _ linked => linked) (fun _ isLink => Or.inl isLink)

omit recovers in
/-- Keeping the better tree on a link. -/
theorem carries_replaceTree
    {target index : Nat}
    {existing link : TFSpecLink}
    (known : Known given base link.tree) :
    Maintains (fun state : TFSpecState => Carries given base state.spec)
      (update (fun spec =>
        spec.replaceTree target index existing link)) := by
  intro before value after carries ran
  cases ran
  unfold TFSpec.replaceTree
  dsimp only
  split
  · refine carries.modifyNode (fun _ => rfl) (fun _ => rfl) ?_ ?_
    · intro node linked same
      apply linked
      have length := congrArg List.length same
      rw [List.length_set] at length
      exact List.eq_nil_of_length_eq_zero length
    · intro other isLink
      rcases List.mem_or_eq_of_mem_set isLink with old | rfl
      · exact Or.inl old
      · exact Or.inr (carries.known known)
  · exact carries

omit recovers in
/-- Appending a link over a known tree. -/
theorem carries_appendLink
    {target : Nat}
    {link : TFSpecLink}
    (known : Known given base link.tree) :
    Maintains (fun state : TFSpecState => Carries given base state.spec)
      (appendLink target link) := by
  have appends :
      Maintains (fun state : TFSpecState => Carries given base state.spec)
        (do
          TFSpec.update (fun spec =>
            spec.modifyNode target (fun node =>
              { node with links := node.links ++ [link] }))
          TFSpec.update (fun spec => spec.raisePrecedence target link)) := by
    refine Maintains.bind ?_ (fun _ => carries_raisePrecedence _ _)
    intro before value after carries ran
    cases ran
    refine carries.modifyNode (fun _ => rfl) (fun _ => rfl)
      (fun _ _ => by simp) ?_
    intro other isLink
    rcases List.mem_append.mp isLink with old | new
    · exact Or.inl old
    · rw [List.mem_singleton.mp new]
      exact Or.inr (carries.known known)
  unfold TFSpec.appendLink
  refine Maintains.bind carries_asks (fun node => ?_)
  refine Maintains.ite
    (carries_update
      (fun _ => ⟨rfl, rfl, rfl, rfl, rfl, rfl, rfl, rfl, rfl⟩)) ?_
  refine Maintains.ite ?_ appends
  refine Maintains.bind (carries_newLinks _) (fun _ => ?_)
  refine Maintains.bind ?_ (fun _ => appends)
  intro before value after carries ran
  cases ran
  exact carries.modifyNode (fun _ => rfl) (fun _ => rfl)
    (fun _ linked => linked) (fun _ isLink => Or.inl isLink)

end Merging

/-- A program that leaves links to known trees, wherever it starts. -/
def CarriesOn (given : Nat → Prop) (program : SpecM Unit) : Prop :=
  ∀ base : TFSpec,
    Maintains (fun state : TFSpecState => Carries given base state.spec)
      program

/-- Recovering shapes leaves the links. -/
theorem carries_materialize
    (given : Nat → Prop)
    (lang : TFLanguage)
    (depth : Nat) :
    CarriesOn given (materialize lang depth) := by
  intro base before value after carries ran
  obtain ⟨recovers, isSealed, _⟩ :=
    materialize_recovers carries.isSealed ran
  have prefixTree := (materialize_unstructured ran).prefixTree
  have node :
      ∀ index, after.spec.node index = before.spec.node index := by
    intro index
    unfold TFSpec.node
    rw [recovers.nodes]
  have evolves : Evolves before.spec after.spec := by
    refine ⟨Nat.le_of_eq (congrArg List.length recovers.nodes.symm),
      recovers.length, ?_, ?_, ?_, recovers.owner⟩
    · intro index _
      rw [node]
    · intro index _
      rw [node]
    · intro tree within
      cases recovers.trees tree within with
      | same same =>
          rw [same]
          exact .refl _
      | known children unknown shape =>
          rw [shape]
          refine ⟨rfl, rfl, rfl, rfl, rfl, rfl, ?_⟩
          intro own
          have slot :=
            carries.slots tree (carries.isSealed.known tree unknown).1
          cases own.symm.trans slot.isInherited
  refine ⟨evolves.trans carries.evolves, ?_,
    carries.slots.later evolves prefixTree, isSealed, ?_, ?_⟩
  · rw [prefixTree]
    exact carries.cells
  · rw [recovers.frontier, recovers.nodes]
    exact carries.frontier
  · intro index link isLink
    rw [node] at isLink
    unfold Known
    rw [prefixTree]
    exact carries.links index link isLink

section Absorbing

variable {given : Nat → Prop}
variable {materialize : SpecM Unit}
variable (recovers : CarriesOn given materialize)

include recovers

/-- Adding a link over a known tree. -/
theorem carries_addLink
    {base : TFSpec}
    {fuel target : Nat}
    {link : TFSpecLink}
    (known : Known given base link.tree) :
    Maintains (fun state : TFSpecState => Carries given base state.spec)
      (addLink materialize fuel target link) := by
  induction fuel generalizing base target link with
  | zero =>
      exact Ensures.stop
  | succ fuel inductionHypothesis =>
      unfold TFSpec.addLink
      refine Maintains.ite Maintains.pure ?_
      refine Maintains.bind (carries_unroll _) (fun _ => ?_)
      refine Maintains.bind carries_asks (fun links => ?_)
      refine Maintains.bind (carries_findLink (recovers base) _ _ _)
        (fun found => ?_)
      cases found with
      | none =>
          exact carries_appendLink known
      | some place =>
          obtain ⟨index, existing⟩ := place
          refine Maintains.ite (carries_replaceTree known) ?_
          refine Maintains.bind ?_ (fun _ => carries_raisePrecedence _ _)
          intro before value after carries ran
          unfold absorbWith at ran
          obtain ⟨sources, _, asked, ran⟩ := Program.bind_eq_ok.mp ran
          simp only [asks, Program.gets_apply, Except.ok.injEq,
            Prod.mk.injEq] at asked
          obtain ⟨rfl, rfl⟩ := asked
          have absorbs :
              Maintains
                (fun state : TFSpecState =>
                  Carries given before.spec state.spec)
                (Program.forEach
                  (addLink materialize fuel existing.node)
                  (before.spec.node link.node).links) :=
            Ensures.forEach (fun source member =>
              inductionHypothesis
                (carries.links link.node source member))
          exact (absorbs _ _ _ carries.start ran).trans carries

/-- Merging two heads. -/
theorem carries_merge
    {base : TFSpec}
    (fuel a b : Nat) :
    Maintains (fun state : TFSpecState => Carries given base state.spec)
      (merge materialize fuel a b) := by
  unfold TFSpec.merge
  refine Maintains.bind carries_asks (fun agrees => ?_)
  refine Maintains.ite ?_ Maintains.pure
  refine Maintains.bind carries_asks (fun into => ?_)
  refine Maintains.bind carries_asks (fun source => ?_)
  refine Maintains.bind ?_ (fun _ => ?_)
  · intro before value after carries ran
    unfold absorb absorbWith at ran
    obtain ⟨sources, _, asked, ran⟩ := Program.bind_eq_ok.mp ran
    simp only [asks, Program.gets_apply, Except.ok.injEq,
      Prod.mk.injEq] at asked
    obtain ⟨rfl, rfl⟩ := asked
    have absorbs :
        Maintains
          (fun state : TFSpecState => Carries given before.spec state.spec)
          (Program.forEach (addLink materialize fuel into)
            (before.spec.node source).links) :=
      Ensures.forEach (fun link member =>
        carries_addLink recovers (carries.links source link member))
    exact (absorbs _ _ _ carries.start ran).trans carries
  · refine Maintains.bind ?_ (fun _ => Maintains.pure)
    exact carries_update
      (fun _ => ⟨rfl, rfl, rfl, rfl, rfl, rfl, rfl, rfl, rfl⟩)

end Absorbing

/-! ## Choosing -/

section Choosing

variable {given : Nat → Prop}
variable {base : TFSpec}
variable {materialize : SpecM Unit}
variable
  (recovers :
    Maintains (fun state : TFSpecState => Carries given base state.spec)
      materialize)

include recovers

/-- Comparing shapes. -/
theorem carries_preferShapes
    (fuel : Nat)
    (pairs : List (Nat × Nat)) :
    Maintains (fun state : TFSpecState => Carries given base state.spec)
      (preferShapes materialize fuel pairs) := by
  unfold preferShapes
  refine Maintains.iterate (fun current => ?_) fuel pairs
  cases current with
  | nil =>
      exact Maintains.pure
  | cons pair rest =>
      obtain ⟨left, right⟩ := pair
      have compares :
          Maintains
            (fun state : TFSpecState => Carries given base state.spec)
            (do
              let x ← asks (fun s => s.tree left)
              let y ← asks (fun s => s.tree right)
              if x.children.length ≠ y.children.length then
                pure (.inr
                  (decide (y.children.length < x.children.length)))
              else
                reserve .scratch
                  (2 * rest.length + 2 * x.children.length)
                pure (.inl (x.children.zip y.children ++ rest)) :
              SpecM (List (Nat × Nat) ⊕ Bool)) := by
        refine Maintains.bind carries_asks (fun x => ?_)
        refine Maintains.bind carries_asks (fun y => ?_)
        refine Maintains.ite Maintains.pure ?_
        exact Maintains.bind (carries_reserve _ _) (fun _ => Maintains.pure)
      refine Maintains.ite Maintains.pure ?_
      refine Maintains.bind carries_asks (fun x => ?_)
      refine Maintains.bind carries_asks (fun y => ?_)
      refine Maintains.ite Maintains.pure ?_
      exact Maintains.ite (Maintains.bind recovers (fun _ => compares))
        compares

/-- Preferring one tree to another. -/
theorem carries_prefer
    (fuel : Nat)
    (a : Option Nat)
    (b : Nat) :
    Maintains (fun state : TFSpecState => Carries given base state.spec)
      (prefer materialize fuel a b) := by
  unfold prefer
  cases a with
  | none =>
      exact Maintains.pure
  | some a =>
      refine Maintains.bind carries_asks (fun x => ?_)
      refine Maintains.bind carries_asks (fun y => ?_)
      refine Maintains.ite Maintains.pure ?_
      exact Maintains.bind (carries_reserve _ _)
        (fun _ => carries_preferShapes recovers _ _)

end Choosing

/-! ## Popping -/

/-- What walks keep: of the graph, and of where each one stands. -/
structure Walkable
    (goal : Option Nat)
    (holds : TFSpec → Prop)
    (good : TFSpec → Nat → List Nat → Prop) : Prop where
  aside :
    ∀ {before after : TFSpec},
      SameGraph before after → holds before → holds after
  asideGood :
    ∀ {before after : TFSpec} {node : Nat} {path : List Nat},
      SameGraph before after → good before node path → good after node path
  unrolled :
    ∀ {graph : TFSpec}, goal ≠ none → holds graph → holds graph.unrolled
  unrolledGood :
    ∀ {graph : TFSpec} {node : Nat} {path : List Nat},
      goal ≠ none → holds graph → good graph node path →
        good graph.unrolled node path
  step :
    ∀ {graph : TFSpec} {node : Nat} {path : List Nat} {link : TFSpecLink},
      holds graph → good graph node path → link ∈ (graph.node node).links →
        good graph link.node (link.tree :: path)

/-- A pop under way, whose slices and iterators are good. -/
structure Picks
    (holds : TFSpec → Prop)
    (good : TFSpec → Nat → List Nat → Prop)
    (iterators : List TFSpecIterator)
    (graph : TFSpec) : Prop where
  held : holds graph
  slices :
    ∀ slice ∈ graph.slices, ∃ node, good graph node slice.children
  paths :
    ∀ iterator ∈ iterators, good graph iterator.node iterator.path

section Popping

variable {goal : Option Nat}
variable {holds : TFSpec → Prop}
variable {good : TFSpec → Nat → List Nat → Prop}
variable {iterators others : List TFSpecIterator}
variable {current : TFSpecIterator}

/-- Iterators may be left out. -/
theorem Picks.only
    {graph : TFSpec}
    (picks : Picks holds good iterators graph)
    (fewer : others ⊆ iterators) :
    Picks holds good others graph :=
  ⟨picks.held, picks.slices,
    fun iterator member => picks.paths iterator (fewer member)⟩

variable (walkable : Walkable goal holds good)

include walkable

/-- The same graph with the same slices serves as well. -/
theorem Picks.aside
    {before after : TFSpec}
    (picks : Picks holds good iterators before)
    (same : SameGraph before after)
    (sameSlices : after.slices = before.slices) :
    Picks holds good iterators after := by
  refine ⟨walkable.aside same picks.held, ?_, ?_⟩
  · rw [sameSlices]
    intro slice isSlice
    obtain ⟨node, known⟩ := picks.slices slice isSlice
    exact ⟨node, walkable.asideGood same known⟩
  · exact fun iterator member =>
      walkable.asideGood same (picks.paths iterator member)

/-- One more slice, of an iterator's path. -/
theorem Picks.slice
    {before after : TFSpec}
    (picks : Picks holds good iterators before)
    (current : TFSpecIterator)
    (same : SameGraph before after)
    (member : current ∈ iterators)
    (slices :
      ∀ slice ∈ after.slices,
        slice ∈ before.slices ∨ slice.children = current.path) :
    Picks holds good iterators after := by
  refine ⟨walkable.aside same picks.held, ?_, ?_⟩
  · intro slice isSlice
    rcases slices slice isSlice with old | new
    · obtain ⟨node, known⟩ := picks.slices slice old
      exact ⟨node, walkable.asideGood same known⟩
    · rw [new]
      exact ⟨current.node,
        walkable.asideGood same (picks.paths current member)⟩
  · exact fun iterator isIterator =>
      walkable.asideGood same (picks.paths iterator isIterator)

/-- A walk may go on over a link of the graph. -/
theorem Picks.step
    {graph : TFSpec}
    {link : TFSpecLink}
    (picks : Picks holds good iterators graph)
    (member : current ∈ iterators)
    (isLink : link ∈ (graph.node current.node).links) :
    Picks holds good (graph.stepIterator current link :: iterators)
      graph := by
  refine ⟨picks.held, picks.slices, ?_⟩
  intro iterator isIterator
  rcases List.mem_cons.mp isIterator with rfl | old
  · exact walkable.step picks.held (picks.paths current member) isLink
  · exact picks.paths iterator old

/-- Settling a node unrolls at most. -/
theorem picks_settleFor
    {before after : TFSpecState}
    (picks : Picks holds good iterators before.spec)
    (ran : settleFor goal current before = .ok ((), after)) :
    Picks holds good iterators after.spec := by
  unfold settleFor at ran
  split at ran
  · rename_i asked
    have some_ : goal ≠ none := by
      rintro rfl
      cases asked
    unfold unroll at ran
    obtain ⟨atFrontier, _, found, ran⟩ := Program.bind_eq_ok.mp ran
    cases found
    split at ran
    · obtain ⟨capacity, heap, rfl⟩ := extend_eq_ok ran
      have unrolls := unrolls_unrolled before.spec
      refine Picks.aside walkable
        (⟨walkable.unrolled some_ picks.held, ?_, ?_⟩ :
          Picks holds good iterators before.spec.unrolled)
        ⟨rfl, rfl, rfl, rfl, rfl, rfl, rfl, rfl, rfl⟩ rfl
      · rw [unrolls.slices]
        intro slice isSlice
        obtain ⟨node, known⟩ := picks.slices slice isSlice
        exact ⟨node, walkable.unrolledGood some_ picks.held known⟩
      · exact fun iterator member =>
          walkable.unrolledGood some_ picks.held
            (picks.paths iterator member)
    · cases ran
      exact picks
  · cases ran
    exact picks

/-- Recording a path. -/
theorem picks_addSlice
    {before after : TFSpecState}
    (picks : Picks holds good iterators before.spec)
    (member : current ∈ iterators)
    (ran : addSlice current before = .ok ((), after)) :
    Picks holds good iterators after.spec := by
  unfold addSlice at ran
  obtain ⟨count, _, asked, ran⟩ := Program.bind_eq_ok.mp ran
  cases asked
  obtain ⟨_, roomy, room, ran⟩ := Program.bind_eq_ok.mp ran
  obtain ⟨capacity, heap, rfl⟩ := reserveSlice_eq_ok room
  obtain ⟨found, _, asked, ran⟩ := Program.bind_eq_ok.mp ran
  simp only [asks, Program.gets_apply, Except.ok.injEq,
    Prod.mk.injEq] at asked
  obtain ⟨_, rfl⟩ := asked
  cases found with
  | some place =>
      cases ran
      refine picks.slice walkable current ?_ member ?_
      · exact ⟨rfl, rfl, rfl, rfl, rfl, rfl, rfl, rfl, rfl⟩
      · intro slice isSlice
        rcases List.eq_or_mem_of_mem_insertIdx isSlice with new | old
        · exact Or.inr (congrArg TFSpecSlice.children new)
        · exact Or.inl old
  | none =>
      obtain ⟨version, headed, made, ran⟩ := Program.bind_eq_ok.mp ran
      obtain ⟨capacity, heap, rfl, rfl⟩ := newHead_eq_ok made
      cases ran
      refine picks.slice walkable current ?_ member ?_
      · exact ⟨rfl, rfl, rfl, rfl, rfl, rfl, rfl, rfl, rfl⟩
      · intro slice isSlice
        rcases List.mem_append.mp isSlice with old | new
        · exact Or.inl old
        · exact Or.inr
            (congrArg TFSpecSlice.children (List.mem_singleton.mp new))

/-- Following a link of the graph. -/
theorem picks_followLink
    {moved : TFSpecIterator}
    {link : TFSpecLink}
    {before after : TFSpecState}
    (picks : Picks holds good iterators before.spec)
    (member : current ∈ iterators)
    (isLink : link ∈ (before.spec.node current.node).links)
    (ran : followLink current link before = .ok (moved, after)) :
    Picks holds good (moved :: iterators) after.spec ∧
      after.spec.nodes = before.spec.nodes := by
  obtain ⟨rfl, same⟩ := followLink_eq_ok ran
  refine ⟨(picks.step walkable member isLink).aside walkable ?_ same.slices,
    same.nodes⟩
  unfold followLink at ran
  obtain ⟨used, _, asked, ran⟩ := Program.bind_eq_ok.mp ran
  cases asked
  obtain ⟨_, _, room, ran⟩ := Program.bind_eq_ok.mp ran
  obtain ⟨capacity, heap, rfl⟩ := reserve_eq_ok room
  obtain ⟨_, _, counted, ran⟩ := Program.bind_eq_ok.mp ran
  cases counted
  cases ran
  exact ⟨rfl, rfl, rfl, rfl, rfl, rfl, rfl, rfl, rfl⟩

/-- Forking over links, within the limit or not. -/
theorem picks_forkIterators
    {count : Nat}
    {links : List TFSpecLink}
    {appended forked : List TFSpecIterator}
    {before after : TFSpecState}
    (picks : Picks holds good (iterators ++ appended) before.spec)
    (member : current ∈ iterators)
    (isLinks :
      ∀ link ∈ links, link ∈ (before.spec.node current.node).links)
    (ran :
      forkIterators current count links appended before =
        .ok (forked, after)) :
    Picks holds good (iterators ++ forked) after.spec ∧
      after.spec.nodes = before.spec.nodes := by
  induction links generalizing appended before with
  | nil =>
      cases ran
      exact ⟨picks, rfl⟩
  | cons link rest inductionHypothesis =>
      have further :
          ∀ other ∈ rest,
            other ∈ (before.spec.node current.node).links :=
        fun other isOther => isLinks other (List.mem_cons_of_mem _ isOther)
      unfold forkIterators at ran
      split at ran
      · obtain ⟨_, limited, flagged, ran⟩ := Program.bind_eq_ok.mp ran
        cases flagged
        have flaggedPicks :
            Picks holds good (iterators ++ appended)
              ({ before with spec := before.spec.limit } :
                TFSpecState).spec :=
          picks.aside walkable
            ⟨rfl, rfl, rfl, rfl, rfl, rfl, rfl, rfl, rfl⟩ rfl
        have onward := inductionHypothesis flaggedPicks
        exact onward further ran
      · obtain ⟨moved, forkedState, followed, ran⟩ :=
          Program.bind_eq_ok.mp ran
        obtain ⟨moves, sameNodes⟩ :=
          picks_followLink walkable picks (List.mem_append_left _ member)
            (isLinks link (List.mem_cons_self ..)) followed
        have sameNode :
            ∀ node, forkedState.spec.node node = before.spec.node node := by
          intro node
          unfold TFSpec.node
          rw [sameNodes]
        obtain ⟨restPicks, sameRest⟩ :=
          inductionHypothesis
            (moves.only (by
              intro iterator isIterator
              simp only [List.mem_append, List.mem_cons] at isIterator ⊢
              tauto))
            (by
              intro other isOther
              rw [sameNode]
              exact further other isOther)
            ran
        exact ⟨restPicks, sameRest.trans sameNodes⟩

/-- A round of the walk. -/
theorem picks_popRound
    {todo done appended next : List TFSpecIterator}
    {before after : TFSpecState}
    (picks : Picks holds good (todo ++ (done ++ appended)) before.spec)
    (ran : popRound goal todo done appended before = .ok (next, after)) :
    Picks holds good next after.spec := by
  induction todo generalizing done appended before with
  | nil =>
      cases ran
      exact picks
  | cons current todo inductionHypothesis =>
      rw [popRound_cons] at ran
      obtain ⟨_, read, settled, ran⟩ := Program.bind_eq_ok.mp ran
      have reads := picks_settleFor walkable picks settled
      unfold walkFrom at ran
      obtain ⟨links, _, asked, ran⟩ := Program.bind_eq_ok.mp ran
      simp only [asks, Program.gets_apply, Except.ok.injEq,
        Prod.mk.injEq] at asked
      obtain ⟨isLinks, rfl⟩ := asked
      obtain ⟨isOver, _, asked, ran⟩ := Program.bind_eq_ok.mp ran
      simp only [asks, Program.gets_apply, Except.ok.injEq,
        Prod.mk.injEq] at asked
      obtain ⟨_, rfl⟩ := asked
      split at ran
      · obtain ⟨_, recorded, added, ran⟩ := Program.bind_eq_ok.mp ran
        have adds :=
          picks_addSlice walkable reads (List.mem_cons_self ..) added
        exact inductionHypothesis
          (adds.only (List.subset_cons_self _ _)) ran
      · cases links with
        | nil =>
            exact inductionHypothesis
              (reads.only (List.subset_cons_self _ _)) ran
        | cons first further =>
            have all :
                ∀ link ∈ first :: further,
                  link ∈ (read.spec.node current.node).links := by
              intro link isLink
              rw [isLinks]
              exact isLink
            have here :
                Picks holds good ((current :: (todo ++ done)) ++ appended)
                  read.spec := by
              refine reads.only ?_
              intro iterator isIterator
              simp only [List.mem_append, List.mem_cons] at isIterator ⊢
              tauto
            obtain ⟨forked, forkedState, forks, ran⟩ :=
              Program.bind_eq_ok.mp ran
            obtain ⟨moved, movedState, moves, ran⟩ :=
              Program.bind_eq_ok.mp ran
            obtain ⟨forkedPicks, sameForked⟩ :=
              picks_forkIterators walkable here (List.mem_cons_self ..)
                (fun link isLink => all link (List.mem_cons_of_mem _ isLink))
                forks
            have stillFirst :
                first ∈ (forkedState.spec.node current.node).links := by
              unfold TFSpec.node
              rw [sameForked]
              exact all first (List.mem_cons_self ..)
            obtain ⟨movedPicks, _⟩ :=
              picks_followLink walkable forkedPicks
                (List.mem_append_left _ (List.mem_cons_self ..)) stillFirst
                moves
            refine inductionHypothesis (movedPicks.only ?_) ran
            intro iterator isIterator
            simp only [List.mem_append, List.mem_cons, List.not_mem_nil,
              or_false] at isIterator ⊢
            tauto

/-- The breadth-first walk. -/
theorem picks_popTurns
    {fuel : Nat}
    {before after : TFSpecState}
    (picks : Picks holds good iterators before.spec)
    (ran :
      Program.iterate .stuck (popTurn goal) fuel iterators before =
        .ok ((), after)) :
    Picks holds good [] after.spec := by
  induction fuel generalizing iterators before with
  | zero =>
      cases ran
  | succ fuel inductionHypothesis =>
      obtain ⟨outcome, _, turned, ran⟩ := Program.bind_eq_ok.mp ran
      cases iterators with
      | nil =>
          cases turned
          cases ran
          exact picks
      | cons first rest =>
          obtain ⟨next, _, rounded, ended⟩ := Program.bind_eq_ok.mp turned
          cases ended
          refine inductionHypothesis (picks_popRound walkable ?_ rounded) ran
          simpa using picks

/-- The walk down a chain, which records its path or nothing. -/
theorem picks_chainTurns
    {fuel : Nat}
    {answer : Bool}
    {before after : TFSpecState}
    (picks : Picks holds good [current] before.spec)
    (ran :
      Program.iterate .stuck (chainTurn goal) fuel current before =
        .ok (answer, after)) :
    Picks holds good [] after.spec := by
  induction fuel generalizing current before with
  | zero =>
      cases ran
  | succ fuel inductionHypothesis =>
      obtain ⟨outcome, turnedState, turned, ran⟩ :=
        Program.bind_eq_ok.mp ran
      cases goes : before.spec.popEnds goal current.node current.count with
      | true =>
          obtain ⟨rfl, capacity, heap, rfl⟩ := chainTurn_ends goes turned
          cases ran
          refine Picks.only
            (picks.slice walkable current ?_ (List.mem_singleton_self _) ?_)
            (List.nil_subset _)
          · exact ⟨rfl, rfl, rfl, rfl, rfl, rfl, rfl, rfl, rfl⟩
          · intro slice isSlice
            exact Or.inr
              (congrArg TFSpecSlice.children (List.mem_singleton.mp isSlice))
      | false =>
          rw [chainTurn_goes goes] at turned
          obtain ⟨_, read, settled, turned⟩ := Program.bind_eq_ok.mp turned
          have reads := picks_settleFor walkable picks settled
          cases outcome with
          | inl onward =>
              obtain ⟨rfl, link, links, rfl⟩ := chainOn_goes turned
              have isLink :
                  link ∈ (turnedState.spec.node current.node).links := by
                rw [links]
                exact List.mem_singleton_self _
              have stepped :=
                reads.step walkable (List.mem_singleton_self _) isLink
              refine inductionHypothesis (stepped.only ?_) ran
              exact List.cons_subset_cons _ (List.nil_subset _)
          | inr answer =>
              have unchanged : turnedState = read := by
                unfold chainOn at turned
                obtain ⟨links, _, asked, turned⟩ :=
                  Program.bind_eq_ok.mp turned
                simp only [asks, Program.gets_apply, Except.ok.injEq,
                  Prod.mk.injEq] at asked
                obtain ⟨_, rfl⟩ := asked
                split at turned
                · cases turned
                · cases turned
                  rfl
              cases ran
              rw [unchanged]
              exact reads.only (List.nil_subset _)

/-- A pop leaves good slices where it starts well. -/
theorem picks_pop
    {fuel version : Nat}
    {before after : TFSpecState}
    (linked : before.spec.Linked)
    (within :
      (before.spec.head version).node < before.spec.nodes.length)
    (held : holds before.spec)
    (start :
      ∀ graph, holds graph → good graph (before.spec.head version).node [])
    (ran : pop fuel version goal before = .ok ((), after)) :
    Picks holds good [] after.spec := by
  unfold pop at ran
  obtain ⟨_, first, clears, ran⟩ := Program.bind_eq_ok.mp ran
  have isFirst : first = cleared before := by
    cases clears
    rfl
  subst isFirst
  have begun : Picks holds good [] (cleared before).spec := by
    refine ⟨walkable.aside ?_ held, nofun, nofun⟩
    exact ⟨rfl, rfl, rfl, rfl, rfl, rfl, rfl, rfl, rfl⟩
  have lone :
      ∀ {graph : TFSpec},
        Picks holds good [] graph →
          Picks holds good [⟨(before.spec.head version).node, 0, []⟩]
            graph := by
    intro graph picks
    refine ⟨picks.held, picks.slices, ?_⟩
    intro iterator member
    rw [List.mem_singleton.mp member]
    exact start graph picks.held
  obtain ⟨answer, chainedState, chained, ran⟩ := Program.bind_eq_ok.mp ran
  rw [popChain_eq] at chained
  obtain ⟨head, _, asked, chained⟩ := Program.bind_eq_ok.mp chained
  simp only [asks, Program.gets_apply, Except.ok.injEq,
    Prod.mk.injEq] at asked
  obtain ⟨rfl, rfl⟩ := asked
  have chains := picks_chainTurns walkable (lone begun) chained
  cases answer with
  | true =>
      cases ran
      exact chains
  | false =>
      have linkedStart : (cleared before).spec.Linked :=
        ⟨linked.links, linked.heads⟩
      have spec := chainTurns_spec chained linkedStart within
      have sameHead :
          chainedState.spec.head version = before.spec.head version := by
        unfold TFSpec.head
        rw [(spec.forked rfl).1]
        rfl
      rw [if_neg Bool.false_ne_true, popPaths_eq] at ran
      obtain ⟨head, _, asked, ran⟩ := Program.bind_eq_ok.mp ran
      simp only [asks, Program.gets_apply, Except.ok.injEq,
        Prod.mk.injEq] at asked
      obtain ⟨rfl, rfl⟩ := asked
      rw [sameHead] at ran
      exact picks_popTurns walkable (lone chains) ran

end Popping

/-! ### Pops over known trees -/

/-- The trees of a path are known. -/
def KnownPath
    (given : Nat → Prop)
    (graph : TFSpec)
    (_ : Nat)
    (path : List Nat) : Prop :=
  ∀ tree ∈ path, Known given graph tree

/-- Walks over known trees keep to them. -/
theorem walkable_known
    (given : Nat → Prop)
    (base : TFSpec)
    (goal : Option Nat) :
    Walkable goal (Carries given base) (KnownPath given) where
  aside := fun same carries => carries.aside same
  asideGood := by
    intro before after node path same known tree member
    unfold Known
    rw [same.prefixTree]
    exact known tree member
  unrolled := fun _ carries => carries.unrolled
  unrolledGood := by
    intro graph node path _ carries known tree member
    exact carries.start.unrolled.known (known tree member)
  step := by
    intro graph node path link carries known isLink tree member
    rcases List.mem_cons.mp member with rfl | older
    · exact carries.links node link isLink
    · exact known tree older

end TFSpec

end TreeFeller
