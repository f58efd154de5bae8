import TreeFeller.Edits

namespace TreeFeller

open StatefulProgram

/-!
# Recovering the shapes of inherited cells

Only trees of unrolled cells have unknown children, and only until a private
replay has run.  The replay then makes them known and leaves every other tree,
and all of the graph's nodes, as they were.
-/

namespace TFSpec

open Program

/-- A tree that is not there has known children. -/
theorem isOpaque_of_not_lt
    {self : TFSpec}
    {tree : Nat}
    (outside : ¬ tree < self.trees.length) :
    (self.tree tree).isOpaque = false := by
  unfold TFSpec.tree
  rw [List.getD_eq_default _ _ (Nat.le_of_not_lt outside)]
  rfl

/-- The trees of a graph to which one is added. -/
theorem tree_append
    {self after : TFSpec}
    {added : TFSpecTree}
    (trees : after.trees = self.trees ++ [added])
    (index : Nat) :
    after.tree index =
      if index = self.trees.length then added else self.tree index := by
  unfold TFSpec.tree
  rw [trees]
  by_cases last : index = self.trees.length
  · rw [if_pos last, last, List.getD_append_right _ _ _ _ (Nat.le_refl _)]
    simp
  · rw [if_neg last]
    by_cases within : index < self.trees.length
    · rw [List.getD_append _ _ _ _ within]
    · rw [List.getD_eq_default, List.getD_eq_default]
      · omega
      · simp
        omega

/-- The trees of a graph of which one is changed. -/
theorem tree_modifyTree
    (self : TFSpec)
    (index : Nat)
    (change : TFSpecTree → TFSpecTree)
    (tree : Nat) :
    (self.modifyTree index change).tree tree =
      if index = tree ∧ tree < self.trees.length then
        change (self.tree tree)
      else
        self.tree tree := by
  unfold modifyTree TFSpec.tree
  simp only [List.getD_eq_getElem?_getD, List.getElem?_modify]
  by_cases within : tree < self.trees.length
  · rw [List.getElem?_eq_getElem within]
    by_cases same : index = tree
    · simp [same, within]
    · simp [same]
  · rw [List.getElem?_eq_none (Nat.le_of_not_lt within)]
    simp [within]

/-- Where the trees with unknown children are. -/
structure Sealed (graph : TFSpec) : Prop where
  slots : ∀ tree ∈ graph.prefixTree, tree < graph.trees.length
  known :
    ∀ tree, (graph.tree tree).isOpaque = true →
      tree ∈ graph.prefixTree ∧ graph.materialized = false
  unknown :
    graph.materialized = false →
      ∀ tree ∈ graph.prefixTree, (graph.tree tree).isOpaque = true
  captured : graph.captured = graph.materialized

/-- The trees that unrolling leaves. -/
theorem trees_unrolled
    {self : TFSpec}
    (tree : Nat)
    (within : tree < self.trees.length) :
    self.unrolled.tree tree = self.tree tree := by
  unfold unrolled
  dsimp only
  split
  · unfold resolve
    dsimp only
    rw [tree_modifyTree, if_neg]
    · rw [tree_append rfl, if_neg (by omega)]
    · rintro ⟨same, _⟩
      simp only [List.getD_append_right _ _ _ _ (Nat.le_refl _),
        Nat.sub_self, List.getD_cons_zero] at same
      omega
  · rw [tree_append rfl, if_neg (by omega)]

/-- The tree that unrolling adds is known once the shapes are. -/
theorem tree_unrolled
    (self : TFSpec) :
    (self.unrolled.tree self.trees.length).isOpaque =
      !(self.materialized && self.captured) := by
  unfold unrolled
  dsimp only
  split
  · rename_i shapes
    unfold resolve
    dsimp only
    rw [tree_modifyTree, if_pos]
    · rw [shapes]
      rfl
    · simp
  · rename_i shapes
    rw [tree_append rfl, if_pos rfl]
    simp [shapes, inheritedTree]

/-- The fields that unrolling leaves. -/
theorem fields_unrolled (self : TFSpec) :
    self.unrolled.materialized = self.materialized ∧
      self.unrolled.captured = self.captured ∧
      self.unrolled.prefixTree = self.prefixTree ++ [self.trees.length] ∧
      self.unrolled.trees.length = self.trees.length + 1 := by
  refine ⟨?_, ?_, ?_, (unrolls_unrolled self).trees.1⟩
  · unfold unrolled
    dsimp only
    split
    · rfl
    · rfl
  · unfold unrolled
    dsimp only
    split
    · rfl
    · rfl
  · unfold unrolled
    dsimp only
    split
    · rfl
    · rfl

/-- Edits leave unknown children where they are. -/
theorem robust_sealed : Robust Sealed where
  aside := by
    intro before after same sealed
    have trees : ∀ tree, after.tree tree = before.tree tree := by
      intro tree
      unfold TFSpec.tree
      rw [same.trees]
    refine ⟨?_, ?_, ?_, ?_⟩
    · rw [same.prefixTree, same.trees]
      exact sealed.slots
    · intro tree unknown
      rw [trees] at unknown
      rw [same.prefixTree, same.materialized]
      exact sealed.known tree unknown
    · rw [same.prefixTree, same.materialized]
      intro fresh tree member
      rw [trees]
      exact sealed.unknown fresh tree member
    · rw [same.materialized, same.captured]
      exact sealed.captured
  tree := by
    intro self tree isKnown sealed
    refine ⟨?_, ?_, ?_, sealed.captured⟩
    · intro slot member
      have := sealed.slots slot member
      simp only [List.length_append, List.length_singleton]
      omega
    · intro slot unknown
      rw [tree_append rfl] at unknown
      split at unknown
      · rw [isKnown] at unknown
        cases unknown
      · exact sealed.known slot unknown
    · intro fresh slot member
      have := sealed.slots slot member
      rw [tree_append rfl, if_neg (by omega)]
      exact sealed.unknown fresh slot member
  node := by
    intro self node linked sealed
    exact ⟨sealed.slots, sealed.known, sealed.unknown, sealed.captured⟩
  relink := by
    intro self index change linked sealed
    exact ⟨sealed.slots, sealed.known, sealed.unknown, sealed.captured⟩
  reweigh := by
    intro self index change sealed
    have same :
        ∀ tree,
          ((self.modifyTree index (fun tree =>
              { tree with precedence := change tree })).tree
            tree).isOpaque =
            (self.tree tree).isOpaque := by
      intro tree
      rw [tree_modifyTree]
      split
      · rfl
      · rfl
    refine ⟨?_, ?_, ?_, sealed.captured⟩
    · intro tree member
      simp only [modifyTree, List.length_modify]
      exact sealed.slots tree member
    · intro tree unknown
      rw [same] at unknown
      exact sealed.known tree unknown
    · intro fresh tree member
      rw [same]
      exact sealed.unknown fresh tree member
  unrolled := by
    intro self sealed
    obtain ⟨materialized, captured, prefixTree, length⟩ :=
      fields_unrolled self
    refine ⟨?_, ?_, ?_, ?_⟩
    · rw [prefixTree, length]
      intro tree member
      rcases List.mem_append.mp member with old | new
      · have := sealed.slots tree old
        omega
      · rw [List.mem_singleton.mp new]
        exact Nat.lt_succ_self _
    · intro tree unknown
      rw [prefixTree, materialized]
      have within : tree < self.unrolled.trees.length := by
        by_contra outside
        rw [isOpaque_of_not_lt outside] at unknown
        cases unknown
      rw [length] at within
      by_cases last : tree = self.trees.length
      · subst last
        rw [tree_unrolled] at unknown
        refine ⟨by simp, ?_⟩
        cases recovered : self.materialized with
        | false =>
            rfl
        | true =>
            rw [sealed.captured, recovered] at unknown
            cases unknown
      · rw [trees_unrolled tree (by omega)] at unknown
        obtain ⟨member, fresh⟩ := sealed.known tree unknown
        exact ⟨List.mem_append_left _ member, fresh⟩
    · rw [materialized, prefixTree]
      intro fresh tree member
      rcases List.mem_append.mp member with old | new
      · rw [trees_unrolled tree (sealed.slots tree old)]
        exact sealed.unknown fresh tree old
      · rw [List.mem_singleton.mp new, tree_unrolled, fresh]
        rfl
    · rw [materialized, captured]
      exact sealed.captured

/-! ## Private replays -/

/-- The same tree, or an inherited one whose children became known. -/
inductive Reshaped (before after : TFSpecTree) : Prop where
  | same (same : after = before)
  | known
      (children : List Nat)
      (unknown : before.isOpaque = true)
      (shape :
        after = { before with children := children, isOpaque := false })

/-- What collecting trees and recovering shapes leaves of a graph. -/
structure Recovers (before after : TFSpec) : Prop where
  nodes : after.nodes = before.nodes
  heads : after.heads = before.heads
  frontier : after.frontier = before.frontier
  prefixLeft : after.prefixLeft = before.prefixLeft
  owner : after.owner = before.owner
  limited : after.limited = before.limited
  length : before.trees.length ≤ after.trees.length
  trees :
    ∀ tree < before.trees.length,
      Reshaped (before.tree tree) (after.tree tree)

/-- Collecting, up to the fork and at it. -/
structure Collects (before after : TFSpec) : Prop where
  recovers : Recovers before after
  prefixTree : after.prefixTree = before.prefixTree
  materialized : after.materialized = true
  known :
    ∀ tree, (after.tree tree).isOpaque = true →
      tree ∈ before.prefixTree ∧ after.captured = false

namespace Recovers

variable {first second third : TFSpec}

/-- Nothing at all. -/
theorem refl (graph : TFSpec) : Recovers graph graph :=
  ⟨rfl, rfl, rfl, rfl, rfl, rfl, Nat.le_refl _,
    fun _ _ => .same rfl⟩

end Recovers

/-- A tree that became known stays as it is when it is known again. -/
theorem Reshaped.again
    {before after : TFSpecTree}
    (reshaped : Reshaped before after)
    (unknown : before.isOpaque = true)
    (children : List Nat) :
    Reshaped before
      { after with children := children, isOpaque := false } := by
  cases reshaped with
  | same same =>
      exact .known children unknown (by rw [same])
  | known other _ shape =>
      exact .known children unknown (by rw [shape])

namespace Collects

variable {before after later : TFSpec}

/-- Changing nothing of what is collected. -/
theorem aside
    (collects : Collects before after)
    (same : SameGraph after later)
    (heads : later.heads = after.heads)
    (limited : later.limited = after.limited) :
    Collects before later := by
  have trees : ∀ tree, later.tree tree = after.tree tree := by
    intro tree
    unfold TFSpec.tree
    rw [same.trees]
  have recovers := collects.recovers
  refine ⟨⟨same.nodes.trans recovers.nodes, heads.trans recovers.heads,
    same.frontier.trans recovers.frontier,
    same.prefixLeft.trans recovers.prefixLeft,
    same.owner.trans recovers.owner, limited.trans recovers.limited, ?_, ?_⟩,
    same.prefixTree.trans collects.prefixTree,
    same.materialized.trans collects.materialized, ?_⟩
  · rw [same.trees]
    exact recovers.length
  · intro tree within
    rw [trees]
    exact recovers.trees tree within
  · intro tree unknown
    rw [trees] at unknown
    rw [same.captured]
    exact collects.known tree unknown

/-- Collecting one more tree. -/
theorem add
    (collects : Collects before after)
    {tree : TFSpecTree}
    (known : tree.isOpaque = false) :
    Collects before { after with trees := after.trees ++ [tree] } := by
  have recovers := collects.recovers
  have length := recovers.length
  refine ⟨⟨recovers.nodes, recovers.heads, recovers.frontier,
    recovers.prefixLeft, recovers.owner, recovers.limited, ?_, ?_⟩,
    collects.prefixTree, collects.materialized, ?_⟩
  · simp only [List.length_append, List.length_singleton]
    omega
  · intro index within
    have appended :
        ({ after with trees := after.trees ++ [tree] } : TFSpec).tree
            index =
          if index = after.trees.length then tree else after.tree index :=
      tree_append rfl index
    rw [appended, if_neg (by omega)]
    exact recovers.trees index within
  · intro index unknown
    rw [tree_append rfl] at unknown
    split at unknown
    · rw [known] at unknown
      cases unknown
    · exact collects.known index unknown

end Collects

/-- Resolving the cells of some places makes the trees of these known. -/
theorem resolves
    (places : List Nat)
    (graph : TFSpec) :
    (places.foldl resolve graph).nodes = graph.nodes ∧
      (places.foldl resolve graph).heads = graph.heads ∧
      (places.foldl resolve graph).frontier = graph.frontier ∧
      (places.foldl resolve graph).prefixLeft = graph.prefixLeft ∧
      (places.foldl resolve graph).owner = graph.owner ∧
      (places.foldl resolve graph).limited = graph.limited ∧
      (places.foldl resolve graph).prefixTree = graph.prefixTree ∧
      (places.foldl resolve graph).materialized = graph.materialized ∧
      (places.foldl resolve graph).captured = graph.captured ∧
      (places.foldl resolve graph).trees.length = graph.trees.length := by
  induction places generalizing graph with
  | nil =>
      exact ⟨rfl, rfl, rfl, rfl, rfl, rfl, rfl, rfl, rfl, rfl⟩
  | cons place rest inductionHypothesis =>
      obtain ⟨nodes, heads, frontier, prefixLeft, owner, limited,
        prefixTree, materialized, captured, length⟩ :=
        inductionHypothesis (graph.resolve place)
      refine ⟨nodes, heads, frontier, prefixLeft, owner, limited,
        prefixTree, materialized, captured, length.trans ?_⟩
      simp [resolve, modifyTree]

/-- A tree after the cells of some places are resolved. -/
theorem tree_resolves
    (places : List Nat)
    (graph : TFSpec)
    (tree : Nat) :
    (places.foldl resolve graph).tree tree = graph.tree tree ∧
        (tree < graph.trees.length →
          ∀ place ∈ places, graph.prefixTree.getD place 0 ≠ tree) ∨
      (∃ place ∈ places, graph.prefixTree.getD place 0 = tree) ∧
        ∃ children,
          (places.foldl resolve graph).tree tree =
            { graph.tree tree with
              children := children
              isOpaque := false } := by
  induction places generalizing graph with
  | nil =>
      exact Or.inl ⟨rfl, fun _ => nofun⟩
  | cons place rest inductionHypothesis =>
      have one := tree_modifyTree graph (graph.prefixTree.getD place 0)
        (fun tree =>
          { tree with
            children :=
              (graph.tree (graph.captureId.getD
                (graph.owner.cells.length - 1 - place) 0)).children
            isOpaque := false }) tree
      have step :
          (graph.resolve place).tree tree =
            if graph.prefixTree.getD place 0 = tree ∧
                tree < graph.trees.length then
              { graph.tree tree with
                children :=
                  (graph.tree (graph.captureId.getD
                    (graph.owner.cells.length - 1 - place) 0)).children
                isOpaque := false }
            else
              graph.tree tree :=
        one
      have length :
          (graph.resolve place).trees.length = graph.trees.length := by
        simp [resolve, modifyTree]
      have prefixTree :
          (graph.resolve place).prefixTree = graph.prefixTree :=
        rfl
      have later := inductionHypothesis (graph.resolve place)
      rw [length, prefixTree] at later
      rw [List.foldl_cons]
      by_cases hit :
          graph.prefixTree.getD place 0 = tree ∧ tree < graph.trees.length
      · rw [if_pos hit] at step
        refine Or.inr ⟨⟨place, List.mem_cons_self .., hit.1⟩, ?_⟩
        rcases later with ⟨same, _⟩ | ⟨_, children, known⟩
        · exact ⟨_, same.trans step⟩
        · exact ⟨children, by rw [known, step]⟩
      · rw [if_neg hit] at step
        rcases later with ⟨same, misses⟩ | ⟨⟨other, member, found⟩, known⟩
        · refine Or.inl ⟨same.trans step, ?_⟩
          intro within index member
          rcases List.mem_cons.mp member with rfl | old
          · exact fun found => hit ⟨found, within⟩
          · exact misses within index old
        · rw [step] at known
          exact Or.inr
            ⟨⟨other, List.mem_cons_of_mem _ member, found⟩, known⟩

/-- Recording the trees below the fork. -/
theorem Collects.capture
    {before after : TFSpec}
    (fresh : before.materialized = false)
    (sealed : before.Sealed)
    (collects : Collects before after)
    (cells : List (TFCell Nat)) :
    Collects before (after.captureCells cells) := by
  let recorded : TFSpec :=
    { after with
      captureId := cells.map (fun cell => cell.node.value.getD noTree)
      captured := true }
  let places := List.range recorded.prefixTree.length
  obtain ⟨nodes, heads, frontier, prefixLeft, owner, limited, prefixTree,
    materialized, captured, length⟩ := resolves places recorded
  have recovers := collects.recovers
  have slot :
      ∀ tree, (∃ place ∈ places, recorded.prefixTree.getD place 0 = tree) ↔
        tree ∈ before.prefixTree := by
    intro tree
    rw [← collects.prefixTree]
    constructor
    · rintro ⟨place, member, rfl⟩
      have within := List.mem_range.mp member
      rw [List.getD_eq_getElem _ _ within]
      exact List.getElem_mem within
    · intro member
      obtain ⟨place, within, found⟩ := List.mem_iff_getElem.mp member
      refine ⟨place, List.mem_range.mpr within, ?_⟩
      rw [List.getD_eq_getElem _ _ within]
      exact found
  have trees : ∀ tree, recorded.tree tree = after.tree tree :=
    fun _ => rfl
  refine ⟨⟨nodes.trans recovers.nodes, heads.trans recovers.heads,
    frontier.trans recovers.frontier, prefixLeft.trans recovers.prefixLeft,
    owner.trans recovers.owner, limited.trans recovers.limited, ?_, ?_⟩,
    prefixTree.trans collects.prefixTree,
    materialized.trans collects.materialized, ?_⟩
  · exact Nat.le_trans recovers.length (Nat.le_of_eq length.symm)
  · intro tree within
    rcases tree_resolves places recorded tree with
      ⟨same, _⟩ | ⟨isSlot, children, known⟩
    · have reshaped := recovers.trees tree within
      rw [← trees, ← same] at reshaped
      exact reshaped
    · have unknown :=
        sealed.unknown fresh tree ((slot tree).mp isSlot)
      have reshaped :=
        (recovers.trees tree within).again unknown children
      rw [← trees, ← known] at reshaped
      exact reshaped
  · intro tree unknown
    have unknown' :
        ((places.foldl resolve recorded).tree tree).isOpaque = true :=
      unknown
    rcases tree_resolves places recorded tree with
      ⟨same, misses⟩ | ⟨_, children, known⟩
    · rw [same, trees] at unknown'
      obtain ⟨member, _⟩ := collects.known tree unknown'
      obtain ⟨place, inPlaces, found⟩ := (slot tree).mpr member
      have within : tree < recorded.trees.length := by
        by_contra outside
        have isKnown := isOpaque_of_not_lt outside
        rw [trees, unknown'] at isKnown
        cases isKnown
      exact absurd found (misses within place inPlaces)
    · rw [known] at unknown'
      cases unknown'

/-! ## The collector's programs -/

section Collecting

variable {before : TFSpec}

/-- Collecting by a program that adds known trees. -/
theorem collects_collect
    {program : SpecM Nat}
    (adds :
      Maintains (fun state : TFSpecState => Collects before state.spec)
        program)
    {self : TFSpec}
    {heap : Heap}
    (collects : Collects before self) :
    Collects before (collect program self heap).2.1 := by
  unfold collect
  split
  · exact collects
  · split
    · rename_i id state ran
      exact adds _ _ _ collects ran
    · refine collects.aside ?_ rfl rfl
      exact ⟨rfl, rfl, rfl, rfl, rfl, rfl, rfl, rfl, rfl⟩

/-- A tree the collector adds. -/
theorem collects_newTree
    {tree : TFSpecTree}
    (known : tree.isOpaque = false) :
    Maintains (fun state : TFSpecState => Collects before state.spec)
      (newTree tree) := by
  intro start value after collects ran
  obtain ⟨capacity, heap, rfl, rfl⟩ := newTree_ran ran
  refine (collects.add known).aside ?_ rfl rfl
  exact ⟨rfl, rfl, rfl, rfl, rfl, rfl, rfl, rfl, rfl⟩

/-- A reduction the collector adds. -/
theorem collects_captureReduce
    (reduction : TFReduction Nat) :
    Maintains (fun state : TFSpecState => Collects before state.spec)
      (captureReduce reduction) := by
  intro start value after collects ran
  unfold captureReduce at ran
  obtain ⟨used, _, asked, ran⟩ := Program.bind_eq_ok.mp ran
  cases asked
  obtain ⟨_, _, room, ran⟩ := Program.bind_eq_ok.mp ran
  obtain ⟨capacity, heap, rfl⟩ := reserve_eq_ok room
  obtain ⟨_, _, counted, ran⟩ := Program.bind_eq_ok.mp ran
  cases counted
  refine collects_newTree (by rfl) _ _ _ ?_ ran
  refine collects.aside ?_ rfl rfl
  exact ⟨rfl, rfl, rfl, rfl, rfl, rfl, rfl, rfl, rfl⟩

/-- The collector's callbacks. -/
theorem collects_captureSink :
    captureSink.Leaves (fun self => Collects before self) where
  shift := by
    intro onShift isShift token extra payload heap collects
    cases isShift
    exact collects_collect (collects_newTree rfl) collects
  reduce := by
    intro onReduce isReduce reduction payload heap collects
    cases isReduce
    exact collects_collect (collects_captureReduce reduction) collects
  discard := nofun

/-- Reaching the fork. -/
theorem collects_captureHook
    (fresh : before.materialized = false)
    (sealed : before.Sealed)
    (cells : List (TFCell Nat))
    (splits : Nat)
    (token : TFToken)
    (self : TFSpec)
    (heap : Heap)
    (collects : Collects before self) :
    Collects before
      (captureHook cells splits token self heap).2.1 := by
  unfold captureHook
  split
  · exact collects
  · split
    · split
      · rename_i answer state reserved
        obtain ⟨capacity, heap, rfl⟩ := reserve_eq_ok reserved
        refine Collects.capture fresh sealed ?_ cells
        refine collects.aside ?_ rfl rfl
        exact ⟨rfl, rfl, rfl, rfl, rfl, rfl, rfl, rfl, rfl⟩
      · refine collects.aside ?_ rfl rfl
        exact ⟨rfl, rfl, rfl, rfl, rfl, rfl, rfl, rfl, rfl⟩
    · exact collects

end Collecting

/-- Recovering the shapes makes every tree known. -/
theorem materialize_recovers
    {lang : TFLanguage}
    {fuel : Nat}
    {before after : TFSpecState}
    (sealed : before.spec.Sealed)
    (ran : materialize lang fuel before = .ok ((), after)) :
    Recovers before.spec after.spec ∧ after.spec.Sealed ∧
      ∀ tree, (after.spec.tree tree).isOpaque = false := by
  cases fuel with
  | zero =>
      cases ran
  | succ fuel =>
      unfold materialize materializeWith at ran
      obtain ⟨known, _, asked, ran⟩ := Program.bind_eq_ok.mp ran
      simp only [asks, Program.gets_apply, Except.ok.injEq,
        Prod.mk.injEq] at asked
      obtain ⟨isKnown, rfl⟩ := asked
      cases known with
      | true =>
          cases ran
          refine ⟨.refl _, sealed, ?_⟩
          intro tree
          cases unknown : (before.spec.tree tree).isOpaque with
          | false =>
              rfl
          | true =>
              have fresh := (sealed.known tree unknown).2
              rw [isKnown] at fresh
              cases fresh
      | false =>
          rw [if_neg Bool.false_ne_true] at ran
          obtain ⟨_, _, marked, ran⟩ := Program.bind_eq_ok.mp ran
          cases marked
          obtain ⟨state, _, got, ran⟩ := Program.bind_eq_ok.mp ran
          cases got
          have start :
              Collects before.spec
                { before.spec with materialized := true } := by
            refine ⟨⟨rfl, rfl, rfl, rfl, rfl, rfl, Nat.le_refl _,
              fun _ _ => .same rfl⟩, rfl, rfl, ?_⟩
            intro tree unknown
            have member := (sealed.known tree unknown).1
            exact ⟨member, sealed.captured.trans isKnown⟩
          let env : TFRunEnv TFSpec Nat := {
            lang := lang
            sink := captureSink
            hook := captureHook
            materialize := materialize lang fuel
            fuel := fuel
          }
          cases replayed :
              TFParser.run env before.lexer.source
                { before.spec with materialized := true } before.heap with
          | none =>
            rw [replayed] at ran
            cases ran
          | some result =>
            rw [replayed] at ran
            have ended : Collects before.spec result.parser.payload :=
              TFParser.payload_run collects_captureSink
                (collects_captureHook isKnown sealed) replayed start
            obtain ⟨_, stored, updated, ran⟩ := Program.bind_eq_ok.mp ran
            cases updated
            cases captured : result.parser.payload.captured with
            | false =>
                rw [captured] at ran
                cases ran
            | true =>
                rw [captured] at ran
                cases ran
                have allKnown :
                    ∀ tree,
                      (result.parser.payload.tree tree).isOpaque =
                        false := by
                  intro tree
                  cases unknown :
                      (result.parser.payload.tree tree).isOpaque with
                  | false =>
                      rfl
                  | true =>
                      have fresh := (ended.known tree unknown).2
                      rw [captured] at fresh
                      cases fresh
                refine ⟨ended.recovers, ⟨?_, ?_, ?_, ?_⟩, allKnown⟩
                · intro tree member
                  dsimp only at member
                  rw [ended.prefixTree] at member
                  exact Nat.lt_of_lt_of_le (sealed.slots tree member)
                    ended.recovers.length
                · intro tree unknown
                  rw [allKnown] at unknown
                  cases unknown
                · intro fresh
                  dsimp only at fresh
                  rw [ended.materialized] at fresh
                  cases fresh
                · exact captured.trans ended.materialized.symm

/-- A graph that has begun is sealed. -/
theorem Begun.isSealed
    {graph : TFSpec}
    (begun : graph.Begun) :
    graph.Sealed := by
  refine ⟨?_, ?_, ?_, ?_⟩
  · rw [begun.prefixTree]
    exact nofun
  · intro tree unknown
    have outside : ¬ tree < graph.trees.length := by
      rw [begun.trees]
      exact Nat.not_lt_zero _
    rw [isOpaque_of_not_lt outside] at unknown
    cases unknown
  · rw [begun.prefixTree]
    exact fun _ => nofun
  · rw [begun.captured, begun.materialized]

/-- Every graph a split reaches is sealed. -/
theorem Reached.isSealed
    {lang : TFLanguage}
    {fuel : Nat}
    {state : TFSpecState}
    (reached : Reached lang fuel state) :
    state.spec.Sealed := by
  refine reached.invariant robust_sealed ?_ (fun _ => Begun.isSealed)
  intro before value after sealed ran
  exact (materialize_recovers sealed ran).2.1

end TFSpec

end TreeFeller
