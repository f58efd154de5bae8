import TreeFeller.GraftedGraphs

namespace TreeFeller

open StatefulProgram

/-!
# Roots of grafted trees

Accepting unrolls the whole of the owner's stack, so a root that is kept takes
in a row of grafted trees from the first byte on.  What a head shifts is
grafted too, for no head is behind the owner's stack.
-/

namespace TFSpec

open Program

/-! ## Leaves -/

section Leaves

variable {lang : TFLanguage}
variable {ends roots : Nat → Prop}

/-- A token that is beyond the owner's stack has a grafted leaf. -/
theorem newLeaf_tends
    {token : TFToken}
    {paddingStart leaf : Nat}
    {extra : Bool}
    {before after : TFSpecState}
    (grafting : Grafting before.spec)
    (beyond : topByte before.spec.owner.cells ≤ paddingStart)
    (ran :
      newTree (leafTree token paddingStart extra) before =
        .ok (leaf, after)) :
    Tends before.spec after.spec ∧ Grafted after.spec leaf := by
  obtain ⟨capacity, heap, rfl, rfl⟩ := newTree_ran ran
  have shaped : (leafTree token paddingStart extra).isOpaque = false := rfl
  refine ⟨((grafting.carries.addTree shaped).aside ?_).tends, ?_⟩
  · exact ⟨rfl, rfl, rfl, rfl, rfl, rfl, rfl, rfl, rfl⟩
  have isLeaf :
      ({ before.spec with
          trees :=
            before.spec.trees ++ [leafTree token paddingStart extra]
          capacity := capacity } : TFSpec).tree before.spec.trees.length =
        leafTree token paddingStart extra := by
    rw [tree_append rfl, if_pos rfl]
  refine .leaf ?_ ?_ ?_ ?_ ?_
  · simp only [List.length_append, List.length_singleton]
    exact Nat.lt_succ_self _
  · rw [isLeaf]
    rfl
  · rw [isLeaf]
    rfl
  · rw [isLeaf]
    exact beyond
  · rw [isLeaf]
    rfl

/-- Shifting leaves a graph of grafted trees. -/
theorem shift_tends
    {version : Nat}
    {token : TFToken}
    {state : TSStateId}
    {extra : Bool}
    {before after : TFSpecState}
    (grafting : Grafting before.spec)
    (beyond :
      topByte before.spec.owner.cells ≤
        (before.spec.node (before.spec.head version).node).byte)
    (ran : shift version token state extra before = .ok ((), after)) :
    Tends before.spec after.spec := by
  unfold shift at ran
  obtain ⟨head, _, asked, ran⟩ := Program.bind_eq_ok.mp ran
  simp only [asks, Program.gets_apply, Except.ok.injEq,
    Prod.mk.injEq] at asked
  obtain ⟨rfl, rfl⟩ := asked
  obtain ⟨paddingStart, _, asked, ran⟩ := Program.bind_eq_ok.mp ran
  simp only [asks, Program.gets_apply, Except.ok.injEq,
    Prod.mk.injEq] at asked
  obtain ⟨rfl, rfl⟩ := asked
  obtain ⟨leaf, grown, added, ran⟩ := Program.bind_eq_ok.mp ran
  obtain ⟨tends, grafted⟩ := newLeaf_tends grafting beyond added
  obtain ⟨top, pushed, pushes, ran⟩ := Program.bind_eq_ok.mp ran
  have carries :=
    carries_push tends.grafting.carries (Or.inl grafted) pushes
  cases ran
  refine Tends.trans (Carries.tends (carries.aside ?_)) tends.evolves
  exact ⟨rfl, rfl, rfl, rfl, rfl, rfl, rfl, rfl, rfl⟩

end Leaves

/-! ## Stacks below the end token -/

/-- Two rows of the same trees end where the last of them does. -/
theorem Tiling.last_same
    {graph : TFSpec}
    {first start last other : Nat}
    {trees : List Nat}
    (tiling : Tiling graph first trees last)
    (again : Tiling graph start trees other)
    (some_ : trees ≠ []) :
    last = other := by
  obtain ⟨tree, isLast⟩ :=
    Option.isSome_iff_exists.mp (List.getLast?_isSome.mpr some_)
  exact (tiling.getLast? isLast).symm.trans (again.getLast? isLast)

/-- A path down from a node that was pushed for the end token. -/
def Beneath
    (ends : Nat → Prop)
    (base : TFSpec)
    (origin below : Nat)
    (_ : TFSpec)
    (node : Nat)
    (path : List Nat) : Prop :=
  node = origin ∧ path = [] ∨
    ¬ ends node ∧ path ≠ [] ∧
      Replayable base (base.node node).byte path.dropLast
        (base.node below).byte

/-- Walks down from such a node go over rows of trees. -/
theorem walkable_beneath
    {lang : TFLanguage}
    {ends roots : Nat → Prop}
    {base : TFSpec}
    {origin below : Nat}
    (stacked : Stacked lang ends roots base)
    (isBelow :
      ∀ link ∈ (base.node origin).links, link.node = below) :
    Walkable none (fun graph => graph.nodes = base.nodes)
      (Beneath ends base origin below) where
  aside := fun same held => same.nodes.trans held
  asideGood := fun _ beneath => beneath
  unrolled := fun some_ => absurd rfl some_
  unrolledGood := fun some_ => absurd rfl some_
  step := by
    intro graph node path link held beneath isLink
    unfold TFSpec.node at isLink
    rw [held] at isLink
    refine Or.inr ⟨stacked.apart node link isLink, List.cons_ne_nil _ _, ?_⟩
    rcases beneath with ⟨rfl, rfl⟩ | ⟨plain, some_, row⟩
    · rw [isBelow link isLink]
      exact .nil _
    · rw [List.dropLast_cons_of_ne_nil some_]
      exact (stacked.fits node plain link isLink).grown.append row

/-! ## Roots -/

/-- A root over a whole stack, with the end token as its last child. -/
structure Crowned (graph : TFSpec) (root : Nat) : Prop where
  within : root < graph.trees.length
  own : (graph.tree root).inherited = false
  row :
    (graph.tree root).structuralCount ≠ 0 →
      ∃ last, topByte graph.owner.cells ≤ last ∧
        Replayable graph 0 (graph.tree root).children.dropLast last
  grafted :
    (graph.tree root).structuralCount ≠ 0 →
      ∀ tree ∈ (graph.tree root).children.dropLast, Grafted graph tree

/-- A whole stack of grafted trees, with an extra on top. -/
structure Grounded (graph : TFSpec) (path : List Nat) : Prop where
  closed :
    ∀ tree, path.getLast? = some tree → (graph.tree tree).extra = true
  row :
    ∃ last, (path.dropLast ≠ [] → topByte graph.owner.cells ≤ last) ∧
      Replayable graph 0 path.dropLast last
  grafted : ∀ tree ∈ path, Grafted graph tree

/-- A graph of grafted trees whose root so far is over a whole stack. -/
structure Thrives (graph : TFSpec) : Prop where
  grafting : Grafting graph
  crowned : ∀ root, graph.finished = some root → Crowned graph root

section Roots

variable {graph before after : TFSpec}
variable {path : List Nat}
variable {root index first last : Nat}

/-- A root over a whole stack goes on being one. -/
theorem Crowned.evolves
    (crowned : Crowned before root)
    (evolves : Evolves before after) :
    Crowned after root := by
  have same := evolves.tree root crowned.within
  refine ⟨Nat.lt_of_lt_of_le crowned.within evolves.trees,
    same.inherited.trans crowned.own, ?_, ?_⟩
  · intro counts
    rw [same.structuralCount] at counts
    obtain ⟨last, beyond, row⟩ := crowned.row counts
    rw [same.children crowned.own]
    refine ⟨last, ?_, row.evolves evolves⟩
    rw [evolves.owner]
    exact beyond
  · intro counts tree member
    rw [same.structuralCount] at counts
    rw [same.children crowned.own] at member
    exact (crowned.grafted counts tree member).evolves evolves

/-- A whole stack goes on being one. -/
theorem Grounded.evolves
    (grounded : Grounded before path)
    (evolves : Evolves before after) :
    Grounded after path := by
  obtain ⟨last, beyond, row⟩ := grounded.row
  refine ⟨?_, ⟨last, ?_, row.evolves evolves⟩,
    fun tree member => (grounded.grafted tree member).evolves evolves⟩
  swap
  · rw [evolves.owner]
    exact beyond
  intro tree isLast
  have within :=
    (grounded.grafted tree (List.mem_of_mem_getLast? isLast)).within
  rw [(evolves.tree tree within).extra]
  exact grounded.closed tree isLast

/-- What keeps the root so far keeps it over a whole stack. -/
theorem Thrives.later
    (thrives : Thrives before)
    (tends : Tends before after)
    (same : after.finished = before.finished) :
    Thrives after := by
  refine ⟨tends.grafting, ?_⟩
  intro root isRoot
  rw [same] at isRoot
  exact (thrives.crowned root isRoot).evolves tends.evolves

/-- And it is grafted. -/
theorem Grounded.rebuilt
    (grounded : Grounded graph path)
    (inRange : index < path.length)
    (counts : (graph.tree (path.getD index 0)).structuralCount ≠ 0) :
    ∀ tree ∈
      path.take index ++ (graph.tree (path.getD index 0)).children ++
        path.drop (index + 1),
      Grafted graph tree := by
  have isRoot : path.getD index 0 ∈ path := by
    rw [List.getD_eq_getElem _ _ inRange]
    exact List.getElem_mem inRange
  intro tree member
  rcases List.mem_append.mp member with front | back
  · rcases List.mem_append.mp front with below | child
    · exact grounded.grafted tree (List.mem_of_mem_take below)
    · cases grounded.grafted _ isRoot with
      | inherited _ _ _ _ uncounted => exact absurd uncounted counts
      | leaf _ _ _ _ uncounted => exact absurd uncounted counts
      | parent _ _ _ _ _ _ _ children => exact children tree child
  · exact grounded.grafted tree (List.mem_of_mem_drop back)

end Roots

section Accepting

variable {env : TFSpecEnv}
variable (recovers : ∀ given, CarriesOn given env.materialize)
variable (observes : Keeps finishedOf env.materialize)

include recovers observes

/-- Rebuilding a root keeps to roots over whole stacks. -/
theorem thrives_rebuildRoot
    {path : List Nat}
    {index : Nat}
    {before after : TFSpecState}
    (thrives : Thrives before.spec)
    (grounded : Grounded before.spec path)
    (inRange : index < path.length)
    (plain : (before.spec.tree (path.getD index 0)).extra = false)
    (ran : rebuildRoot env path index before = .ok ((), after)) :
    Thrives after.spec ∧ Evolves before.spec after.spec := by
  unfold rebuildRoot at ran
  obtain ⟨root, _, asked, ran⟩ := Program.bind_eq_ok.mp ran
  simp only [asks, Program.gets_apply, Except.ok.injEq,
    Prod.mk.injEq] at asked
  obtain ⟨isRoot, rfl⟩ := asked
  subst isRoot
  obtain ⟨count, _, asked, ran⟩ := Program.bind_eq_ok.mp ran
  cases asked
  obtain ⟨_, reserved, reserves, ran⟩ := Program.bind_eq_ok.mp ran
  have sameReserved : finishedOf reserved = finishedOf before :=
    keeps_reserve _ _ _ _ _ reserves
  have reservedCarries :=
    carries_reserve _ _ _ _ _ thrives.grafting.carries reserves
  obtain ⟨_, counted, counts, ran⟩ := Program.bind_eq_ok.mp ran
  have countedCarries :
      Carries (Grafted before.spec) before.spec counted.spec := by
    cases counts
    refine reservedCarries.aside ?_
    exact ⟨rfl, rfl, rfl, rfl, rfl, rfl, rfl, rfl, rfl⟩
  have sameCounted : finishedOf counted = finishedOf reserved := by
    cases counts
    rfl
  obtain ⟨candidate, added, adds, ran⟩ := Program.bind_eq_ok.mp ran
  have sameAdded : finishedOf added = finishedOf counted :=
    keeps_parent _ _ _ _ _ _ _ _ adds
  have both :
      Carries (Grafted before.spec) before.spec added.spec ∧
        Crowned added.spec candidate := by
    unfold parent at adds
    obtain ⟨tree, _, asked, adds⟩ := Program.bind_eq_ok.mp adds
    simp only [asks, Program.gets_apply, Except.ok.injEq,
      Prod.mk.injEq] at asked
    obtain ⟨rfl, rfl⟩ := asked
    obtain ⟨capacity, heap, rfl, rfl⟩ := newTree_ran adds
    let root := before.spec.tree (path.getD index 0)
    let tree :=
      counted.spec.parentTree root.token.symbol root.productionId
        root.structuralCount
        (path.take index ++ root.children ++ path.drop (index + 1)) 0
    have grown :
        Carries (Grafted before.spec) before.spec
          { counted.spec with
            trees := counted.spec.trees ++ [tree]
            capacity := capacity } := by
      have shaped : tree.isOpaque = false := rfl
      refine (countedCarries.addTree shaped).aside ?_
      exact ⟨rfl, rfl, rfl, rfl, rfl, rfl, rfl, rfl, rfl⟩
    refine ⟨grown, ?_, ?_, ?_, ?_⟩
    · simp only [List.length_append, List.length_singleton]
      exact Nat.lt_succ_self _
    · rw [tree_append rfl, if_pos rfl]
      rfl
    · rw [tree_append rfl, if_pos rfl]
      intro counts
      obtain ⟨last, beyond, row⟩ := grounded.row
      refine ⟨last, ?_, (row.rebuilt grounded.closed inRange plain
        counts).evolves grown.evolves⟩
      have behind := behind_root grounded.closed inRange plain
      rw [grown.evolves.owner]
      refine beyond (fun none_ => behind ?_)
      rw [List.drop_eq_nil_iff]
      have short := congrArg List.length none_
      rw [List.length_dropLast, List.length_nil] at short
      omega
    · rw [tree_append rfl, if_pos rfl]
      intro counts tree member
      exact (grounded.rebuilt inRange counts tree
        (List.dropLast_subset _ member)).evolves grown.evolves
  obtain ⟨addedCarries, crowned⟩ := both
  obtain ⟨old, _, asked, ran⟩ := Program.bind_eq_ok.mp ran
  simp only [asks, Program.gets_apply, Except.ok.injEq,
    Prod.mk.injEq] at asked
  obtain ⟨_, rfl⟩ := asked
  obtain ⟨better, chosen, chooses, ran⟩ := Program.bind_eq_ok.mp ran
  have chosenTends :=
    (carries_prefer (recovers _ _) _ _ _ _ _ _ addedCarries chooses).tends
  have onward :=
    (carries_prefer (recovers _ _) _ _ _ _ _ _ addedCarries.start
      chooses).evolves
  have sameChosen : finishedOf chosen = finishedOf added :=
    keeps_prefer observes _ _ _ _ _ _ chooses
  have same : chosen.spec.finished = before.spec.finished :=
    sameChosen.trans (sameAdded.trans (sameCounted.trans sameReserved))
  have chosenThrives := thrives.later chosenTends same
  cases better with
  | false =>
      cases ran
      exact ⟨chosenThrives, chosenTends.evolves⟩
  | true =>
      cases ran
      have aside :
          Evolves chosen.spec
            { chosen.spec with finished := some candidate } :=
        .of_same rfl rfl rfl
      have tends :
          Tends chosen.spec
            { chosen.spec with finished := some candidate } := by
        refine (chosenTends.grafting.carries.aside ?_).tends
        exact ⟨rfl, rfl, rfl, rfl, rfl, rfl, rfl, rfl, rfl⟩
      refine ⟨⟨tends.grafting, ?_⟩, aside.trans chosenTends.evolves⟩
      intro root isRoot
      cases isRoot
      exact (crowned.evolves onward).evolves aside

/-- Rebuilding the root of a whole stack does. -/
theorem thrives_acceptPath
    {path : List Nat}
    {before after : TFSpecState}
    (thrives : Thrives before.spec)
    (grounded : Grounded before.spec path)
    (ran : acceptPath env path before = .ok ((), after)) :
    Thrives after.spec ∧ Evolves before.spec after.spec := by
  rw [acceptPath_eq] at ran
  obtain ⟨found, _, asked, ran⟩ := Program.bind_eq_ok.mp ran
  simp only [asks, Program.gets_apply, Except.ok.injEq,
    Prod.mk.injEq] at asked
  obtain ⟨isFound, rfl⟩ := asked
  cases found with
  | none =>
      cases ran
      exact ⟨thrives, .refl _⟩
  | some index =>
      obtain ⟨inRange, plain⟩ := lastStructural_spec isFound
      have member : path.getD index 0 ∈ path := by
        rw [List.getD_eq_getElem _ _ inRange]
        exact List.getElem_mem inRange
      obtain ⟨unknown, _, asked, ran⟩ := Program.bind_eq_ok.mp ran
      simp only [asks, Program.gets_apply, Except.ok.injEq,
        Prod.mk.injEq] at asked
      obtain ⟨_, rfl⟩ := asked
      split at ran
      · obtain ⟨_, recovered, recovering, ran⟩ := Program.bind_eq_ok.mp ran
        have tends :=
          (recovers _ _ _ _ _ thrives.grafting.carries recovering).tends
        have evolves := tends.evolves
        have thrivesNow :=
          thrives.later tends (observes _ _ _ recovering)
        obtain ⟨result, later⟩ :=
          thrives_rebuildRoot recovers observes thrivesNow
            (grounded.evolves evolves) inRange
            (by
              rw [(evolves.tree _ (grounded.grafted _ member).within).extra]
              exact plain)
            ran
        exact ⟨result, later.trans evolves⟩
      · exact thrives_rebuildRoot recovers observes thrives grounded inRange
          plain ran

/-- And so does rebuilding the roots of several. -/
theorem thrives_acceptPaths
    {slices : List TFSpecSlice}
    {before after : TFSpecState}
    (thrives : Thrives before.spec)
    (grounded :
      ∀ slice ∈ slices, Grounded before.spec slice.children)
    (ran :
      Program.forEach (fun slice : TFSpecSlice =>
          acceptPath env slice.children) slices before =
        .ok ((), after)) :
    Thrives after.spec := by
  induction slices generalizing before with
  | nil =>
      cases ran
      exact thrives
  | cons slice rest inductionHypothesis =>
      obtain ⟨_, middle, accepts, ran⟩ := Program.bind_eq_ok.mp ran
      obtain ⟨thrivesNow, evolves⟩ :=
        thrives_acceptPath recovers observes thrives
          (grounded slice (List.mem_cons_self ..)) accepts
      exact inductionHypothesis thrivesNow
        (fun other member =>
          (grounded other (List.mem_cons_of_mem _ member)).evolves evolves)
        ran

omit recovers observes in
/-- Unrolling so many cells leaves so many fewer. -/
theorem extends_left
    {count : Nat}
    {before after : TFSpecState}
    (ran :
      Program.forEach (fun _ => extend) (List.replicate count ()) before =
        .ok ((), after)) :
    after.spec.prefixLeft = before.spec.prefixLeft - count := by
  induction count generalizing before with
  | zero =>
      cases ran
      rfl
  | succ count inductionHypothesis =>
      rw [List.replicate_succ] at ran
      obtain ⟨_, unrolled, extends_, ran⟩ := Program.bind_eq_ok.mp ran
      have unrolls := extend_unrolls extends_
      rw [inductionHypothesis ran, unrolls.prefixLeft]
      omega

omit recovers observes in
/-- A pop of whole stacks below the end token leaves whole stacks. -/
theorem Strolling.grounded
    {lang : TFLanguage}
    {ends roots : Nat → Prop}
    {base graph : TFSpec}
    {origin below node : Nat}
    {heads : List TFSpecHead}
    {iterators : List TFSpecIterator}
    {slice : TFSpecSlice}
    (strolling :
      Strolling lang ends roots base origin none heads iterators graph)
    (stacked : Stacked lang ends roots base)
    (isEnd : ends origin)
    (unrolled : base.prefixLeft = 0)
    (beyond : topByte base.owner.cells ≤ (base.node below).byte)
    (isSlice : slice ∈ graph.slices)
    (beneath : Beneath ends base origin below graph node slice.children)
    (grafted : ∀ tree ∈ slice.children, Grafted graph tree) :
    Grounded graph slice.children := by
  have isPath :
      ((graph.head slice.version).node, slice.children) ∈
        graph.slicePaths :=
    List.mem_map.mpr ⟨slice, isSlice, rfl⟩
  obtain ⟨strolls, _, ordinary⟩ := strolling.landed _ isPath
  have bottom := (strolling.whole rfl).2 _ isPath
  have some_ : slice.children ≠ [] := by
    rcases strolls.place with ⟨here, _⟩ | ⟨_, some_⟩
    · rw [← here] at isEnd
      exact absurd isEnd ordinary
    · exact some_
  obtain ⟨last, row⟩ := strolls.front isEnd some_
  have evolves := strolling.stays.evolves
  refine ⟨strolls.closed isEnd, ⟨last, ?_, ?_⟩, grafted⟩
  · intro someBelow
    rcases beneath with ⟨_, none_⟩ | ⟨_, _, whole⟩
    · exact absurd none_ some_
    have tiled : Tiling graph _ slice.children.dropLast _ := row.tiling
    have same := tiled.last_same (whole.evolves evolves).tiling someBelow
    rw [evolves.owner, same]
    exact beyond
  have unrolling := stacked.unrolling
  have atBottom :
      (graph.node (graph.head slice.version).node).byte = 0 := by
    change (graph.head slice.version).node = base.frontier at bottom
    rw [bottom, evolves.byte _ unrolling.frontier,
      unrolling.byte, unrolled]
    rfl
  dsimp only at row
  rw [atBottom] at row
  exact row

/-- Accepting keeps to graphs of grafted trees. -/
theorem accept_thrives
    {ends roots : Nat → Prop}
    {version : Nat}
    {eof : TFToken}
    {before after : TFSpecState}
    (settled : ¬ Rebuilding roots)
    (stacked : Stacked env.lang ends roots before.spec)
    (abreast : Abreast before.spec)
    (inRange : version < before.spec.heads.length)
    (going : (before.spec.head version).halted = false)
    (thrives : Thrives before.spec)
    (ran : accept env version eof before = .ok ((), after)) :
    Thrives after.spec := by
  have below := stacked.head settled going
  have beyond := abreast.head inRange going
  have originWithin := stacked.headWithin version
  let rebuilt : Nat → Prop :=
    fun tree => roots tree ∨ before.spec.trees.length ≤ tree
  have rebuilding : Rebuilding rebuilt :=
    ⟨before.spec.trees.length, fun _ high => Or.inr high⟩
  have stackedNow : Stacked env.lang ends rebuilt before.spec := by
    refine stacked.reroot (fun _ _ isRoot => Or.inl isRoot) ?_
    exact fun head member goes isEnd =>
      settled (stacked.heads head member goes isEnd)
  unfold accept at ran
  obtain ⟨left, _, asked, ran⟩ := Program.bind_eq_ok.mp ran
  simp only [asks, Program.gets_apply, Except.ok.injEq,
    Prod.mk.injEq] at asked
  obtain ⟨rfl, rfl⟩ := asked
  obtain ⟨_, unrolled, extends_, ran⟩ := Program.bind_eq_ok.mp ran
  obtain ⟨unrolledStays, unrolledHeads⟩ :=
    extends_stays stackedNow (Nat.le_refl _) extends_
  have isUnrolled : unrolled.spec.prefixLeft = 0 := by
    rw [extends_left extends_, Nat.sub_self]
  have unrolledTends : Tends before.spec unrolled.spec := by
    have each :
        Maintains
          (fun state : TFSpecState =>
            Carries (Grafted before.spec) before.spec state.spec)
          (Program.forEach (fun _ : Unit => extend)
            (List.replicate before.spec.prefixLeft ())) :=
      Ensures.forEach (fun _ _ => carries_extend)
    exact (each _ _ _ thrives.grafting.carries extends_).tends
  have unrolledFinished : finishedOf unrolled = finishedOf before :=
    Keeps.forEach (fun _ => keeps_extend) _ _ _ extends_
  obtain ⟨head, _, asked, ran⟩ := Program.bind_eq_ok.mp ran
  simp only [asks, Program.gets_apply, Except.ok.injEq,
    Prod.mk.injEq] at asked
  obtain ⟨rfl, rfl⟩ := asked
  obtain ⟨paddingStart, _, asked, ran⟩ := Program.bind_eq_ok.mp ran
  simp only [asks, Program.gets_apply, Except.ok.injEq,
    Prod.mk.injEq] at asked
  obtain ⟨rfl, rfl⟩ := asked
  have sameHead :
      unrolled.spec.head version = before.spec.head version := by
    unfold TFSpec.head
    rw [unrolledHeads]
  rw [sameHead] at ran
  have beyondNow :
      topByte unrolled.spec.owner.cells ≤
        (unrolled.spec.node (before.spec.head version).node).byte := by
    rw [unrolledTends.evolves.owner,
      unrolledTends.evolves.byte _ originWithin]
    exact beyond
  obtain ⟨leaf, grown, added, ran⟩ := Program.bind_eq_ok.mp ran
  obtain ⟨grownStays, leafed⟩ := newLeaf_stays unrolledStays.stacked added
  obtain ⟨grownTends, graftedLeaf⟩ :=
    newLeaf_tends unrolledTends.grafting beyondNow added
  have grownLeft : grown.spec.prefixLeft = 0 := by
    obtain ⟨capacity, heap, _, rfl⟩ := newTree_ran added
    exact isUnrolled
  have grownFinished : finishedOf grown = finishedOf unrolled :=
    keeps_newTree _ _ _ _ added
  have evolves := grownStays.evolves.trans unrolledStays.evolves
  have topWithin := Nat.lt_of_lt_of_le originWithin evolves.nodes
  obtain ⟨top, pushed, pushes, ran⟩ := Program.bind_eq_ok.mp ran
  obtain ⟨isTop, topWithinNow, pushedHeads, pushedStays⟩ :=
    pushEnd_stays grownStays.stacked ⟨topWithin, leafed.within, below⟩
      (congrArg TFSpecTree.extra leafed.isTree) pushes
  have pushedCarries :=
    carries_push grownTends.grafting.carries (Or.inl graftedLeaf) pushes
  have pushedLeft : pushed.spec.prefixLeft = 0 := by
    obtain ⟨_, capacity, heap, rfl⟩ := push_ran pushes
    exact grownLeft
  have pushedFinished : finishedOf pushed = finishedOf grown :=
    keeps_push _ _ _ _ _ _ pushes
  let apart : Nat → Prop := fun node => ends node ∨ node = top
  obtain ⟨_, moved, moves, ran⟩ := Program.bind_eq_ok.mp ran
  have movedStays :
      Stays env.lang apart rebuilt pushed.spec moved.spec := by
    cases moves
    exact pushedStays.stacked.moveHead version topWithinNow
      (fun _ => rebuilding)
  have movedCarries :
      Carries (Grafted grown.spec) grown.spec moved.spec := by
    cases moves
    refine pushedCarries.aside ?_
    exact ⟨rfl, rfl, rfl, rfl, rfl, rfl, rfl, rfl, rfl⟩
  have isOrigin : (moved.spec.head version).node = top := by
    cases moves
    unfold TFSpec.head modifyHead
    dsimp only
    rw [List.getD_eq_getElem _ _ (by
      simpa [pushedHeads, leafed.heads, unrolledHeads] using inRange),
      List.getElem_modify, if_pos rfl]
  have isBelow :
      ∀ link ∈ (moved.spec.node (moved.spec.head version).node).links,
        link.node = (before.spec.head version).node := by
    rw [isOrigin, isTop]
    obtain ⟨_, capacity, heap, rfl⟩ := push_ran pushes
    cases moves
    unfold TFSpec.node modifyHead
    dsimp only
    rw [List.getD_eq_getElem?_getD, List.getElem?_concat_length]
    intro link isLink
    rw [List.mem_singleton.mp isLink]
  have movedEvolves := movedStays.evolves.trans pushedStays.evolves
  have beyondMoved :
      topByte moved.spec.owner.cells ≤
        (moved.spec.node (before.spec.head version).node).byte := by
    rw [movedEvolves.owner, movedEvolves.byte _ topWithin, evolves.owner,
      evolves.byte _ originWithin]
    exact beyond
  have movedLeft : moved.spec.prefixLeft = 0 := by
    cases moves
    exact pushedLeft
  have movedFinished : finishedOf moved = finishedOf pushed := by
    cases moves
    rfl
  obtain ⟨_, popped, pops, ran⟩ := Program.bind_eq_ok.mp ran
  have strolling := strolling_pop movedStays.stacked (Or.inr rfl) pops
  have movedWithin := movedStays.stacked.headWithin version
  have picks :=
    picks_pop (walkable_known (Grafted grown.spec) grown.spec none)
      movedStays.stacked.linked movedWithin movedCarries
      (fun _ _ _ member => absurd member List.not_mem_nil) pops
  have descents :=
    picks_pop (walkable_beneath movedStays.stacked isBelow)
      movedStays.stacked.linked movedWithin rfl
      (fun _ _ => Or.inl ⟨rfl, rfl⟩) pops
  have poppedFinished : finishedOf popped = finishedOf moved :=
    keeps_pop _ _ _ _ _ _ pops
  have poppedTends : Tends before.spec popped.spec :=
    picks.held.tends.trans
      (grownTends.evolves.trans unrolledTends.evolves)
  have poppedThrives : Thrives popped.spec :=
    thrives.later poppedTends
      (poppedFinished.trans (movedFinished.trans
        (pushedFinished.trans (grownFinished.trans unrolledFinished))))
  obtain ⟨slices, _, asked, ran⟩ := Program.bind_eq_ok.mp ran
  simp only [asks, Program.gets_apply, Except.ok.injEq,
    Prod.mk.injEq] at asked
  obtain ⟨rfl, rfl⟩ := asked
  obtain ⟨_, accepted, accepts, ran⟩ := Program.bind_eq_ok.mp ran
  have acceptedThrives :=
    thrives_acceptPaths recovers observes poppedThrives
      (fun slice isSlice => by
        obtain ⟨_, known⟩ := picks.slices slice isSlice
        obtain ⟨_, beneath⟩ := descents.slices slice isSlice
        exact strolling.grounded movedStays.stacked (Or.inr isOrigin)
          movedLeft beyondMoved isSlice beneath
          (fun tree member => picks.held.grafted (known tree member)))
      accepts
  have settles :
      ∀ {middle : TFSpecState},
        SameGraph accepted.spec middle.spec →
          middle.spec.finished = accepted.spec.finished →
            Thrives middle.spec :=
    fun same finished =>
      acceptedThrives.later
        (acceptedThrives.grafting.carries.aside same).tends finished
  cases isSlices : popped.spec.slices with
  | nil =>
      rw [isSlices] at ran
      cases ran
      exact settles ⟨rfl, rfl, rfl, rfl, rfl, rfl, rfl, rfl, rfl⟩ rfl
  | cons slice rest =>
      rw [isSlices] at ran
      obtain ⟨_, removed, removes, ran⟩ := Program.bind_eq_ok.mp ran
      cases removes
      cases ran
      exact settles ⟨rfl, rfl, rfl, rfl, rfl, rfl, rfl, rfl, rfl⟩ rfl

end Accepting

end TFSpec

end TreeFeller
