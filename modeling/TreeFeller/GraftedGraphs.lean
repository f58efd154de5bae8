import TreeFeller.CarriedTrees

namespace TreeFeller

open StatefulProgram

/-!
# Graphs of grafted trees

Every tree on a link of a split's graph shows what a replay will put on the
stack for it.  A reduction's parent does, for its path begins at a head, and a
head has come at least as far as the owner's stack: above the parent, nothing
but extras is left of that stack.
-/

namespace TFSpec

open Program

/-- A graph whose links carry grafted trees. -/
structure Grafting (graph : TFSpec) : Prop where
  slots : Slotted graph
  isSealed : graph.Sealed
  frontier : graph.frontier < graph.nodes.length
  links :
    ∀ node, ∀ link ∈ (graph.node node).links, Grafted graph link.tree

/-- A graph of grafted trees that came from another graph. -/
structure Tends (base graph : TFSpec) : Prop where
  grafting : Grafting graph
  evolves : Evolves base graph

section Tending

variable {base before after : TFSpec}

/-- The graph itself. -/
theorem Tends.start
    (grafting : Grafting before) :
    Tends before before :=
  ⟨grafting, .refl _⟩

/-- One stretch after another. -/
theorem Tends.trans
    (later : Tends before after)
    (earlier : Evolves base before) :
    Tends base after :=
  ⟨later.grafting, later.evolves.trans earlier⟩

/-- The links of a graph of grafted trees carry what they carry. -/
theorem Grafting.carries
    (grafting : Grafting before) :
    Carries (Grafted before) before before :=
  ⟨.refl _, List.Subset.refl _, grafting.slots, grafting.isSealed,
    grafting.frontier, fun node link isLink =>
      Or.inl (grafting.links node link isLink)⟩

/-- A known tree is a grafted one. -/
theorem Carries.grafted
    (carries : Carries (Grafted before) before after)
    {tree : Nat}
    (known : Known (Grafted before) after tree) :
    Grafted after tree := by
  rcases known with old | member
  · exact old.evolves carries.evolves
  · exact (carries.slots tree member).grafted

/-- What goes on carrying grafted trees is a graph of such. -/
theorem Carries.tends
    (carries : Carries (Grafted before) before after) :
    Tends before after :=
  ⟨⟨carries.slots, carries.isSealed, carries.frontier,
    fun node link isLink => carries.grafted (carries.links node link isLink)⟩,
    carries.evolves⟩

end Tending

/-! ## The parent of a path -/

section Parents

variable {lang : TFLanguage}
variable {ends : Nat → Prop}
variable {graph : TFSpec}

/-- A parent of some children does not depend on the node below them. -/
theorem parentTree_base
    (self : TFSpec)
    (symbol : TSSymbol)
    (production structural : Nat)
    {children : List Nat}
    (some_ : children ≠ [])
    (base other : Nat) :
    self.parentTree symbol production structural children base =
      self.parentTree symbol production structural children other := by
  obtain ⟨first, isFirst⟩ :=
    Option.isSome_iff_exists.mp (List.isSome_head?.mpr some_)
  obtain ⟨last, isLast⟩ :=
    Option.isSome_iff_exists.mp (List.getLast?_isSome.mpr some_)
  unfold parentTree
  rw [isFirst, isLast]
  rfl

/-- A parent begins and ends where its children do. -/
theorem framed_parentTree
    (self : TFSpec)
    (symbol : TSSymbol)
    (production structural : Nat)
    (children : List Nat)
    (base : Nat) :
    Framed self
      (self.parentTree symbol production structural children base) := by
  refine ⟨?_, ?_⟩
  · intro child isFirst
    change children.head? = some child at isFirst
    unfold parentTree
    rw [isFirst]
    exact ⟨rfl, rfl⟩
  · intro child isLast
    change children.getLast? = some child at isLast
    unfold parentTree
    rw [isLast]
    exact ⟨rfl, rfl⟩

/-- The parent of a path from a head leaves only extras uncovered. -/
theorem Landed.sprouts
    {origin node childCount : Nat}
    {path : List Nat}
    (landed : Landed ends graph origin (some childCount) node path)
    (stack : LrStack lang graph.owner.cells)
    (plain : ¬ ends origin)
    (positive : 0 < childCount)
    (high : topByte graph.owner.cells ≤ (graph.node origin).byte)
    (grafted : ∀ tree ∈ path, Grafted graph tree)
    (symbol : TSSymbol)
    (production base : Nat) :
    let trimmed := graph.trimExtras path
    let tree := graph.parentTree symbol production childCount trimmed base
    Tiled graph tree ∧ Covers graph.owner.cells tree.token.endByte := by
  intro trimmed tree
  obtain ⟨tiled, _, _, _, later, areExtras⟩ :=
    landed.parent plain positive symbol production
  have some_ : trimmed ≠ [] := by
    intro none_
    have counts := tiled.structural
    change graph.structuralOf trimmed = childCount at counts
    rw [none_] at counts
    exact Nat.lt_irrefl _ (counts ▸ positive)
  have same :=
    graph.parentTree_base symbol production childCount some_ node base
  rw [same] at tiled later
  refine ⟨tiled, covers_of_extras stack later ?_ areExtras high⟩
  exact fun other member => grafted other (List.mem_of_mem_drop member)

/-- A parent over grafted trees is grafted once it is added. -/
theorem Grafted.added
    {tree : TFSpecTree}
    (own : tree.inherited = false)
    (inner : tree.leaf = false)
    (structural : tree.extra = false)
    (tiled : Tiled graph tree)
    (framed : Framed graph tree)
    (covers : Covers graph.owner.cells tree.token.endByte)
    (children : ∀ child ∈ tree.children, Grafted graph child) :
    Grafted { graph with trees := graph.trees ++ [tree] }
      graph.trees.length := by
  have evolves := evolves_tree graph tree
  have isTree :
      ({ graph with trees := graph.trees ++ [tree] } : TFSpec).tree
          graph.trees.length =
        tree := by
    rw [tree_append rfl, if_pos rfl]
  refine .parent ?_ ?_ ?_ ?_ ?_ ?_ ?_ ?_
  · simp only [List.length_append, List.length_singleton]
    exact Nat.lt_succ_self _
  · rw [isTree]
    exact own
  · rw [isTree]
    exact inner
  · rw [isTree]
    exact structural
  · rw [isTree]
    exact tiled.evolves evolves (.refl _) own
  · rw [isTree]
    exact framed.evolves evolves (.refl _) own
      (fun child member => (children child member).within)
  · rw [isTree]
    exact covers
  · intro child member
    rw [isTree] at member
    exact (children child member).evolves evolves

end Parents

/-! ## Reductions -/

section Reducing

variable {env : TFSpecEnv}
variable {ends : Nat → Prop}
variable (recovers : ∀ given, CarriesOn given env.materialize)

include recovers

/-- What a reduction asks of a path that it pops. -/
structure Fertile
    (ends : Nat → Prop)
    (graph : TFSpec)
    (origin childCount : Nat)
    (path : List Nat) : Prop where
  landed :
    ∃ node, Landed ends graph origin (some childCount) node path
  grafted : ∀ tree ∈ path, Grafted graph tree

omit recovers in
/-- A path goes on giving a parent. -/
theorem Fertile.evolves
    {before after : TFSpec}
    {origin childCount : Nat}
    {path : List Nat}
    (fertile : Fertile ends before origin childCount path)
    (evolves : Evolves before after)
    (originWithin : origin < before.nodes.length) :
    Fertile ends after origin childCount path := by
  obtain ⟨node, landed⟩ := fertile.landed
  exact ⟨⟨node, landed.evolves evolves originWithin⟩,
    fun tree member => (fertile.grafted tree member).evolves evolves⟩

/-- Where a reduction starts: at a head that is beyond the owner's stack. -/
structure Reducible
    (lang : TFLanguage)
    (ends : Nat → Prop)
    (graph : TFSpec)
    (origin : Nat) : Prop where
  within : origin < graph.nodes.length
  plain : ¬ ends origin
  stack : LrStack lang graph.owner.cells
  high : topByte graph.owner.cells ≤ (graph.node origin).byte

omit recovers in
/-- A reduction goes on starting there. -/
theorem Reducible.evolves
    {lang : TFLanguage}
    {before after : TFSpec}
    {origin : Nat}
    (reducible : Reducible lang ends before origin)
    (evolves : Evolves before after) :
    Reducible lang ends after origin := by
  refine ⟨Nat.lt_of_lt_of_le reducible.within evolves.nodes,
    reducible.plain, ?_, ?_⟩
  · rw [evolves.owner]
    exact reducible.stack
  · rw [evolves.owner, evolves.byte origin reducible.within]
    exact reducible.high

/-- Choosing a parent leaves a grafted one, with grafted extras. -/
theorem selectParent_tends
    {symbol : TSSymbol}
    {childCount productionId base origin : Nat}
    {paths : List (List Nat)}
    {chosen answer : Option (Nat × List Nat)}
    {before after : TFSpecState}
    (grafting : Grafting before.spec)
    (reducible : Reducible env.lang ends before.spec origin)
    (positive : 0 < childCount)
    (fertile :
      ∀ path ∈ paths, Fertile ends before.spec origin childCount path)
    (chosenGrafted :
      ∀ tree trailing, chosen = some (tree, trailing) →
        ∀ other ∈ tree :: trailing, Grafted before.spec other)
    (ran :
      selectParent env symbol childCount productionId base paths chosen
          before =
        .ok (answer, after)) :
    Tends before.spec after.spec ∧
      ∀ tree trailing, answer = some (tree, trailing) →
        ∀ other ∈ tree :: trailing, Grafted after.spec other := by
  induction paths generalizing chosen before with
  | nil =>
      cases ran
      exact ⟨.start grafting, chosenGrafted⟩
  | cons path rest inductionHypothesis =>
      unfold selectParent at ran
      obtain ⟨trimmed, _, asked, ran⟩ := Program.bind_eq_ok.mp ran
      simp only [asks, Program.gets_apply, Except.ok.injEq,
        Prod.mk.injEq] at asked
      obtain ⟨rfl, rfl⟩ := asked
      obtain ⟨candidate, added, adds, ran⟩ := Program.bind_eq_ok.mp ran
      unfold parent at adds
      obtain ⟨tree, _, asked, adds⟩ := Program.bind_eq_ok.mp adds
      simp only [asks, Program.gets_apply, Except.ok.injEq,
        Prod.mk.injEq] at asked
      obtain ⟨rfl, rfl⟩ := asked
      obtain ⟨capacity, heap, rfl, rfl⟩ := newTree_ran adds
      obtain ⟨better, compared, compares, ran⟩ :=
        Program.bind_eq_ok.mp ran
      let self := before.spec
      let trimmed := self.trimExtras path
      let tree :=
        self.parentTree symbol productionId childCount trimmed base
      obtain ⟨⟨node, landed⟩, graftedPath⟩ :=
        fertile path (List.mem_cons_self ..)
      obtain ⟨tiled, covers⟩ :=
        landed.sprouts reducible.stack reducible.plain positive
          reducible.high graftedPath symbol productionId base
      obtain ⟨extras, isPath, _, _⟩ := self.trimExtras_append path
      have isNew :
          Grafted { self with trees := self.trees ++ [tree] }
            self.trees.length := by
        refine Grafted.added rfl rfl rfl tiled
          (framed_parentTree _ _ _ _ _ _) covers ?_
        intro child member
        refine graftedPath child ?_
        rw [isPath]
        exact List.mem_append_left _ member
      have grown :
          Carries (Grafted self) self
            { self with
              trees := self.trees ++ [tree]
              capacity := capacity } := by
        have shaped : tree.isOpaque = false := rfl
        refine (grafting.carries.addTree shaped).aside ?_
        exact ⟨rfl, rfl, rfl, rfl, rfl, rfl, rfl, rfl, rfl⟩
      have tends : Tends self compared.spec :=
        (carries_prefer (recovers _ _) _ _ _ _ _ _ grown compares).tends
      have fromAdded :
          Evolves { self with trees := self.trees ++ [tree] }
            compared.spec := by
        have later :=
          carries_prefer (recovers _ _) _ _ _ _ _ _ grown.start compares
        exact later.evolves.trans (.of_same rfl rfl rfl)
      have evolves := tends.evolves
      have restFertile :
          ∀ other ∈ rest,
            Fertile ends compared.spec origin childCount other :=
        fun other member =>
          (fertile other (List.mem_cons_of_mem _ member)).evolves evolves
            reducible.within
      have reducibleNow := reducible.evolves evolves
      split at ran
      · obtain ⟨later, result⟩ :=
          inductionHypothesis tends.grafting reducibleNow restFertile
            (by
              intro other trailing isChosen
              cases isChosen
              intro known member
              rcases List.mem_cons.mp member with rfl | extra
              · exact isNew.evolves fromAdded
              · exact (graftedPath known
                  (List.mem_of_mem_drop extra)).evolves evolves)
            ran
        exact ⟨later.trans evolves, result⟩
      · obtain ⟨later, result⟩ :=
          inductionHypothesis tends.grafting reducibleNow restFertile
            (fun other trailing isChosen known member =>
              (chosenGrafted other trailing isChosen known member).evolves
                evolves)
            ran
        exact ⟨later.trans evolves, result⟩

omit recovers in
/-- Pushing known extras. -/
theorem carries_pushExtras
    {given : Nat → Prop}
    {base : TFSpec}
    {state : TSStateId}
    {extras : List Nat}
    {top : Nat}
    (known : ∀ tree ∈ extras, given tree) :
    Maintains (fun state : TFSpecState => Carries given base state.spec)
      (pushExtras state extras top) := by
  induction extras generalizing top with
  | nil =>
      exact Maintains.pure
  | cons tree rest inductionHypothesis =>
      unfold pushExtras
      refine Maintains.bind ?_ (fun pushed =>
        inductionHypothesis
          (fun other member => known other (List.mem_cons_of_mem _ member)))
      intro before value after carries ran
      exact carries_push carries (Or.inl (known tree (List.mem_cons_self ..)))
        ran

/-- Merging a new head below. -/
theorem carries_mergeBelow
    {given : Nat → Prop}
    {base : TFSpec}
    (version created : Nat)
    (others : List Nat) :
    Maintains (fun state : TFSpecState => Carries given base state.spec)
      (mergeBelow env version created others) := by
  induction others with
  | nil =>
      exact Maintains.pure
  | cons other rest inductionHypothesis =>
      unfold mergeBelow
      refine Maintains.ite inductionHypothesis ?_
      refine Maintains.bind (carries_merge (recovers given) _ _ _)
        (fun merged => ?_)
      exact Maintains.ite Maintains.pure inductionHypothesis

/-- The reduction over the paths to one base. -/
theorem reduceGroup_tends
    {version created : Nat}
    {symbol : TSSymbol}
    {childCount productionId origin : Nat}
    {dynamicPrecedence : Int}
    {paths : List (List Nat)}
    {merged : Bool}
    {before after : TFSpecState}
    (grafting : Grafting before.spec)
    (reducible : Reducible env.lang ends before.spec origin)
    (positive : 0 < childCount)
    (fertile :
      ∀ path ∈ paths, Fertile ends before.spec origin childCount path)
    (ran :
      reduceGroup env version created symbol childCount productionId
          dynamicPrecedence paths before =
        .ok (merged, after)) :
    Tends before.spec after.spec := by
  unfold reduceGroup at ran
  obtain ⟨head, _, asked, ran⟩ := Program.bind_eq_ok.mp ran
  simp only [asks, Program.gets_apply, Except.ok.injEq,
    Prod.mk.injEq] at asked
  obtain ⟨rfl, rfl⟩ := asked
  obtain ⟨chosen, selected, selects, ran⟩ := Program.bind_eq_ok.mp ran
  obtain ⟨tends, grafted⟩ :=
    selectParent_tends recovers grafting reducible positive fertile
      (by
        intro tree trailing isChosen
        cases isChosen)
      selects
  cases chosen with
  | none =>
      cases ran
  | some chosen =>
      obtain ⟨tree, trailing⟩ := chosen
      have graftedNow := grafted tree trailing rfl
      refine Tends.trans (Carries.tends ?_) tends.evolves
      have chosenCarries := tends.grafting.carries
      obtain ⟨_, raised, modified, ran⟩ := Program.bind_eq_ok.mp ran
      have raises :
          Carries (Grafted selected.spec) selected.spec raised.spec := by
        cases modified
        exact chosenCarries.reweigh tree
          (fun parent => parent.precedence + dynamicPrecedence)
      obtain ⟨state, _, asked, ran⟩ := Program.bind_eq_ok.mp ran
      simp only [asks, Program.gets_apply, Except.ok.injEq,
        Prod.mk.injEq] at asked
      obtain ⟨rfl, rfl⟩ := asked
      obtain ⟨pushed, pushedState, pushes, ran⟩ := Program.bind_eq_ok.mp ran
      have pushedCarries :=
        carries_push raises
          (Or.inl (graftedNow tree (List.mem_cons_self ..))) pushes
      obtain ⟨top, extraState, extras, ran⟩ := Program.bind_eq_ok.mp ran
      have extraCarries :=
        carries_pushExtras
          (fun other member =>
            graftedNow other (List.mem_cons_of_mem _ member))
          _ _ _ pushedCarries extras
      obtain ⟨_, _, moved, ran⟩ := Program.bind_eq_ok.mp ran
      cases moved
      refine carries_mergeBelow recovers version created
        (List.range created) _ _ _ (extraCarries.aside ?_) ran
      exact ⟨rfl, rfl, rfl, rfl, rfl, rfl, rfl, rfl, rfl⟩

/-- The reduction over every group. -/
theorem reduceGroups_tends
    {version halted : Nat}
    {symbol : TSSymbol}
    {childCount productionId origin : Nat}
    {dynamicPrecedence : Int}
    {groups : List (Nat × List (List Nat))}
    {removed : Nat}
    {before after : TFSpecState}
    (grafting : Grafting before.spec)
    (reducible : Reducible env.lang ends before.spec origin)
    (positive : 0 < childCount)
    (fertile :
      ∀ group ∈ groups, ∀ path ∈ group.2,
        Fertile ends before.spec origin childCount path)
    (ran :
      reduceGroups env version halted symbol childCount productionId
          dynamicPrecedence groups removed before =
        .ok ((), after)) :
    Tends before.spec after.spec := by
  induction groups generalizing removed before with
  | nil =>
      cases ran
      exact .start grafting
  | cons group rest inductionHypothesis =>
      obtain ⟨slice, paths⟩ := group
      have later :
          ∀ {middle : TFSpecState} {removed : Nat},
            Tends before.spec middle.spec →
              reduceGroups env version halted symbol childCount productionId
                  dynamicPrecedence rest removed middle =
                .ok ((), after) →
                Tends before.spec after.spec := by
        intro middle removed tends ran
        refine (inductionHypothesis tends.grafting
          (reducible.evolves tends.evolves) ?_ ran).trans tends.evolves
        intro group isGroup path isPath
        exact (fertile group (List.mem_cons_of_mem _ isGroup) path
          isPath).evolves tends.evolves reducible.within
      unfold reduceGroups at ran
      dsimp only at ran
      split at ran
      · obtain ⟨_, dropped, drops, ran⟩ := Program.bind_eq_ok.mp ran
        obtain ⟨_, limited, flagged, ran⟩ := Program.bind_eq_ok.mp ran
        refine later ?_ ran
        cases drops
        cases flagged
        refine (grafting.carries.aside ?_).tends
        exact ⟨rfl, rfl, rfl, rfl, rfl, rfl, rfl, rfl, rfl⟩
      · obtain ⟨merged, grouped, groups, ran⟩ := Program.bind_eq_ok.mp ran
        exact later
          (reduceGroup_tends recovers grafting reducible positive
            (fertile (slice, paths) (List.mem_cons_self ..)) groups)
          ran

/-- A reduction leaves a graph of grafted trees. -/
theorem reduce_tends
    {roots : Nat → Prop}
    {version childCount : Nat}
    {symbol : TSSymbol}
    {dynamicPrecedence : Int}
    {productionId : Nat}
    {created : Option Nat}
    {before after : TFSpecState}
    (grafting : Grafting before.spec)
    (stacked : Stacked env.lang ends roots before.spec)
    (plain : ¬ ends (before.spec.head version).node)
    (high :
      topByte before.spec.owner.cells ≤
        (before.spec.node (before.spec.head version).node).byte)
    (positive : 0 < childCount)
    (ran :
      reduce env version childCount symbol dynamicPrecedence productionId
          before =
        .ok (created, after)) :
    Tends before.spec after.spec := by
  unfold reduce at ran
  obtain ⟨initial, _, asked, ran⟩ := Program.bind_eq_ok.mp ran
  cases asked
  obtain ⟨halted, _, asked, ran⟩ := Program.bind_eq_ok.mp ran
  cases asked
  obtain ⟨_, popped, pops, ran⟩ := Program.bind_eq_ok.mp ran
  have strolling := strolling_pop stacked (Or.inl plain) pops
  have picks :=
    picks_pop (walkable_known (Grafted before.spec) before.spec _)
      stacked.linked (stacked.headWithin version) grafting.carries
      (fun _ _ => nofun) pops
  have tends := picks.held.tends
  obtain ⟨slices, _, asked, ran⟩ := Program.bind_eq_ok.mp ran
  simp only [asks, Program.gets_apply, Except.ok.injEq,
    Prod.mk.injEq] at asked
  obtain ⟨rfl, rfl⟩ := asked
  obtain ⟨_, reduced, reduces, ran⟩ := Program.bind_eq_ok.mp ran
  obtain ⟨count, _, asked, ran⟩ := Program.bind_eq_ok.mp ran
  cases asked
  have isAfter : after = reduced := by
    split at ran
    · cases ran
      rfl
    · cases ran
      rfl
  rw [isAfter]
  have reducible :
      Reducible env.lang ends before.spec (before.spec.head version).node :=
    ⟨strolling.originWithin, plain, stacked.unrolling.stack, high⟩
  refine (reduceGroups_tends recovers tends.grafting
    (reducible.evolves tends.evolves) positive ?_ reduces).trans
      tends.evolves
  intro group isGroup path isPath
  obtain ⟨slice, isSlice, _, rfl⟩ := sliceGroups_slices isGroup isPath
  have inPaths :
      ((popped.spec.head slice.version).node, slice.children) ∈
        popped.spec.slicePaths :=
    List.mem_map.mpr ⟨slice, isSlice, rfl⟩
  obtain ⟨_, known⟩ := picks.slices slice isSlice
  exact ⟨⟨_, strolling.landed _ inPaths⟩, fun tree member =>
    picks.held.grafted (known tree member)⟩

end Reducing

end TFSpec

end TreeFeller
