import TreeFeller.StackReductions

namespace TreeFeller

open StatefulProgram

/-!
# Roots that are accepted in a graph of LR stacks

A root takes in everything below it and the end token above it.  What it takes
in is gone over in one row, as the root's own children were: so that a replay of
it begins no higher than the owner's stack ends.
-/

namespace TFSpec

open Program

/-! ## Rows of whole stacks -/

/-- Trees that a replay over the owner's stack goes over. -/
def Rowed (graph : TFSpec) (trees : List Nat) : Prop :=
  ∃ first last,
    first ≤ topByte graph.owner.cells ∧ Replayable graph first trees last

/-- A whole stack, with an extra on top of what is gone over. -/
structure Whole (graph : TFSpec) (path : List Nat) : Prop where
  within : ∀ tree ∈ path, tree < graph.trees.length
  closed :
    ∀ tree, path.getLast? = some tree → (graph.tree tree).extra = true
  rowed : Rowed graph path.dropLast

/-- A root that was accepted, with the end token as its last child. -/
structure Finished (graph : TFSpec) (root : Nat) : Prop where
  within : root < graph.trees.length
  own : (graph.tree root).inherited = false
  rowed :
    (graph.tree root).structuralCount ≠ 0 →
      Rowed graph (graph.tree root).children.dropLast

section Rows

variable {graph before after : TFSpec}
variable {trees path : List Nat}
variable {root index : Nat}

/-- A row goes on being one. -/
theorem Rowed.evolves
    (rowed : Rowed before trees)
    (evolves : Evolves before after) :
    Rowed after trees := by
  obtain ⟨first, last, low, grown⟩ := rowed
  refine ⟨first, last, ?_, grown.evolves evolves⟩
  rw [evolves.owner]
  exact low

/-- A whole stack goes on being one. -/
theorem Whole.evolves
    (whole : Whole before path)
    (evolves : Evolves before after) :
    Whole after path where
  within := fun tree member =>
    Nat.lt_of_lt_of_le (whole.within tree member) evolves.trees
  closed := by
    intro tree isLast
    have within := whole.within tree (List.mem_of_getLast? isLast)
    rw [(evolves.tree tree within).extra]
    exact whole.closed tree isLast
  rowed := whole.rowed.evolves evolves

/-- An accepted root goes on being one. -/
theorem Finished.evolves
    (finished : Finished before root)
    (evolves : Evolves before after) :
    Finished after root := by
  have same := evolves.tree root finished.within
  refine ⟨Nat.lt_of_lt_of_le finished.within evolves.trees, ?_, ?_⟩
  · rw [same.inherited]
    exact finished.own
  · intro counts
    rw [same.structuralCount] at counts
    rw [same.children finished.own]
    exact (finished.rowed counts).evolves evolves

/-- The last structural tree of a path is no extra. -/
theorem lastStructural_spec
    (found : graph.lastStructural path = some index) :
    index < path.length ∧ (graph.tree (path.getD index 0)).extra = false := by
  unfold lastStructural at found
  split at found
  · rename_i fromTop isAt
    obtain ⟨inRange, plain, _⟩ :=
      List.findIdx?_eq_some_iff_getElem.mp isAt
    rw [List.length_reverse] at inRange
    cases found
    have below : path.length - 1 - fromTop < path.length := by omega
    refine ⟨below, ?_⟩
    rw [List.getElem_reverse] at plain
    rw [List.getD_eq_getElem _ _ below]
    simpa using plain
  · cases found

/-- Behind the tree that a root takes the place of, there is another. -/
theorem behind_root
    (closed :
      ∀ tree, path.getLast? = some tree → (graph.tree tree).extra = true)
    (inRange : index < path.length)
    (plain : (graph.tree (path.getD index 0)).extra = false) :
    path.drop (index + 1) ≠ [] := by
  rw [List.getD_eq_getElem _ _ inRange] at plain
  intro none_
  have isLast : path.getLast? = some path[index] := by
    rw [List.getLast?_eq_getElem?, List.getElem?_eq_getElem (by
      omega)]
    have short := List.drop_eq_nil_iff.mp none_
    have same : path.length - 1 = index := by omega
    simp only [same]
  have isExtra := closed _ isLast
  rw [plain] at isExtra
  cases isExtra

/-- What a rebuilt root takes in is gone over from where its stack is. -/
theorem Replayable.rebuilt
    {first last : Nat}
    (row : Replayable graph first path.dropLast last)
    (closed :
      ∀ tree, path.getLast? = some tree → (graph.tree tree).extra = true)
    (inRange : index < path.length)
    (plain : (graph.tree (path.getD index 0)).extra = false)
    (counts : (graph.tree (path.getD index 0)).structuralCount ≠ 0) :
    Replayable graph first
      (path.take index ++ (graph.tree (path.getD index 0)).children ++
        path.drop (index + 1)).dropLast last := by
  have behind := behind_root closed inRange plain
  have isRoot : path.getD index 0 = path[index] :=
    List.getD_eq_getElem _ _ inRange
  rw [isRoot] at plain counts ⊢
  have parts :
      path.dropLast =
        path.take index ++ ([path[index]] ++
          (path.drop (index + 1)).dropLast) := by
    have whole : path =
        path.take index ++ (path[index] :: path.drop (index + 1)) := by
      rw [List.getElem_cons_drop, List.take_append_drop]
    conv_lhs => rw [whole]
    rw [List.dropLast_append_of_ne_nil (List.cons_ne_nil _ _),
      List.dropLast_cons_of_ne_nil behind]
    rfl
  rw [parts] at row
  obtain ⟨middle, front, row⟩ := row.split
  obtain ⟨upper, alone, back⟩ := row.split
  have children :
      Replayable graph middle (graph.tree path[index]).children upper := by
    cases alone with
    | inherited _ _ _ _ uncounted => exact absurd uncounted counts
    | leaf _ _ _ _ _ uncounted => exact absurd uncounted counts
    | parent _ _ _ _ _ _ children later =>
        cases later
        exact children
  rw [List.dropLast_append_of_ne_nil behind]
  exact (front.append children).append back

/-- What a rebuilt root takes in is gone over in one row. -/
theorem Whole.rebuilt
    (whole : Whole graph path)
    (inRange : index < path.length)
    (plain : (graph.tree (path.getD index 0)).extra = false)
    (counts : (graph.tree (path.getD index 0)).structuralCount ≠ 0) :
    Rowed graph
      (path.take index ++ (graph.tree (path.getD index 0)).children ++
        path.drop (index + 1)).dropLast := by
  obtain ⟨first, last, low, row⟩ := whole.rowed
  exact ⟨first, last, low, row.rebuilt whole.closed inRange plain counts⟩

end Rows

/-! ## Rebuilding a root -/

section Rebuilding

variable {env : TFSpecEnv}
variable {ends roots : Nat → Prop}
variable {base : TFSpec}
variable
  (recovers :
    ∀ {ends roots : Nat → Prop} {before after : TFSpecState},
      Stacked env.lang ends roots before.spec →
        env.materialize before = .ok ((), after) →
          Stays env.lang ends roots before.spec after.spec)

include recovers

omit recovers in
/-- The root that is rebuilt is set apart. -/
theorem stays_root
    (high : ∀ tree, base.trees.length ≤ tree → roots tree)
    (symbol : TSSymbol)
    (production structural : Nat)
    (children : List Nat)
    (bottom : Nat) :
    Maintains
      (fun state : TFSpecState =>
        Stays env.lang ends roots base state.spec)
      (parent symbol production structural children bottom) := by
  intro before value after stays ran
  unfold parent at ran
  obtain ⟨tree, _, asked, ran⟩ := Program.bind_eq_ok.mp ran
  simp only [asks, Program.gets_apply, Except.ok.injEq,
    Prod.mk.injEq] at asked
  obtain ⟨isTree, rfl⟩ := asked
  obtain ⟨capacity, heap, rfl, rfl⟩ := newTree_ran ran
  have known : tree.isOpaque = false := by
    rw [← isTree]
    rfl
  have added :=
    stays.stacked.addTree known
      (fun _ _ _ ordinary => absurd (high _ stays.evolves.trees) ordinary)
  refine Stays.trans (added.stacked.beside ?_ rfl)
    (added.evolves.trans stays.evolves)
  exact ⟨rfl, rfl, rfl, rfl, rfl, rfl, rfl, rfl, rfl⟩

/-- A graph in which the root kept so far is an accepted one. -/
structure Keeping
    (lang : TFLanguage)
    (ends roots : Nat → Prop)
    (base graph : TFSpec) : Prop where
  stays : Stays lang ends roots base graph
  finished : ∀ root, graph.finished = some root → Finished graph root

omit recovers in
/-- What keeps the stacks and the root keeps the root an accepted one. -/
theorem Keeping.later
    {before after : TFSpec}
    (keeping : Keeping env.lang ends roots base before)
    (stays : Stays env.lang ends roots before after)
    (same : after.finished = before.finished) :
    Keeping env.lang ends roots base after := by
  refine ⟨stays.trans keeping.stays.evolves, ?_⟩
  intro root isRoot
  rw [same] at isRoot
  exact (keeping.finished root isRoot).evolves stays.evolves

/-- The last part of rebuilding a root: the candidate, and the choice. -/
def rebuildRoot (env : TFSpecEnv) (path : List Nat) (index : Nat) :
    SpecM Unit := do
  let root ← asks (fun s => s.tree (path.getD index 0))
  let children :=
    path.take index ++ root.children ++ path.drop (index + 1)
  reserve .children ((← asks TFSpec.childCount) + children.length)
  update (fun s =>
    { s with childCount := s.childCount + children.length })
  let candidate ←
    parent root.token.symbol root.productionId
      root.structuralCount children 0
  if ← prefer env.materialize env.fuel (← asks TFSpec.finished)
      candidate then
    update (fun s => { s with finished := some candidate })

omit recovers in
/-- Rebuilding a root recovers its shape first, if it must. -/
theorem acceptPath_eq
    (path : List Nat) :
    acceptPath env path = (do
      match ← asks (fun s => s.lastStructural path) with
      | none => pure ()
      | some index =>
          if ← asks (fun s => (s.tree (path.getD index 0)).isOpaque) then
            env.materialize
          rebuildRoot env path index) :=
  rfl

variable (observes : Keeps finishedOf env.materialize)

include observes

/-- The candidate is an accepted root. -/
theorem keeping_rebuildRoot
    {path : List Nat}
    {index : Nat}
    {before after : TFSpecState}
    (high : ∀ tree, base.trees.length ≤ tree → roots tree)
    (whole : Whole before.spec path)
    (inRange : index < path.length)
    (plain : (before.spec.tree (path.getD index 0)).extra = false)
    (keeping : Keeping env.lang ends roots base before.spec)
    (ran : rebuildRoot env path index before = .ok ((), after)) :
    Keeping env.lang ends roots base after.spec := by
  unfold rebuildRoot at ran
  obtain ⟨root, _, asked, ran⟩ := Program.bind_eq_ok.mp ran
  simp only [asks, Program.gets_apply, Except.ok.injEq,
    Prod.mk.injEq] at asked
  obtain ⟨isRoot, rfl⟩ := asked
  subst isRoot
  obtain ⟨count, _, asked, ran⟩ := Program.bind_eq_ok.mp ran
  simp only [asks, Program.gets_apply, Except.ok.injEq,
    Prod.mk.injEq] at asked
  obtain ⟨_, rfl⟩ := asked
  obtain ⟨_, reserved, reserves, ran⟩ := Program.bind_eq_ok.mp ran
  have sameReserved : finishedOf reserved = finishedOf before :=
    keeps_reserve _ _ _ _ _ reserves
  have roomy :=
    keeping.later
      (stays_reserve _ _ _ _ _ (.start keeping.stays.stacked) reserves)
      sameReserved
  have rowed := whole.rebuilt inRange plain
  obtain ⟨capacity, heap, isReserved⟩ := reserve_eq_ok reserves
  obtain ⟨_, counted, counts, ran⟩ := Program.bind_eq_ok.mp ran
  have ready : Keeping env.lang ends roots base counted.spec := by
    cases counts
    refine roomy.later (roomy.stays.stacked.beside ?_ rfl) rfl
    exact ⟨rfl, rfl, rfl, rfl, rfl, rfl, rfl, rfl, rfl⟩
  have readied : Evolves before.spec counted.spec := by
    cases counts
    rw [isReserved]
    exact .of_same rfl rfl rfl
  obtain ⟨candidate, added, adds, ran⟩ := Program.bind_eq_ok.mp ran
  have highNow :
      ∀ tree, counted.spec.trees.length ≤ tree → roots tree :=
    fun tree above_ =>
      high tree (Nat.le_trans ready.stays.evolves.trees above_)
  have addedStays :=
    stays_root highNow _ _ _ _ _ _ _ _ (.start ready.stays.stacked) adds
  have sameAdded : finishedOf added = finishedOf counted :=
    keeps_parent _ _ _ _ _ _ _ _ adds
  have keepingNow := ready.later addedStays sameAdded
  have isFinished : Finished added.spec candidate := by
    unfold parent at adds
    obtain ⟨tree, _, asked, adds⟩ := Program.bind_eq_ok.mp adds
    simp only [asks, Program.gets_apply, Except.ok.injEq,
      Prod.mk.injEq] at asked
    obtain ⟨rfl, rfl⟩ := asked
    obtain ⟨capacity, heap, rfl, rfl⟩ := newTree_ran adds
    refine ⟨?_, ?_, ?_⟩
    · simp only [List.length_append, List.length_singleton]
      exact Nat.lt_succ_self _
    · rw [tree_append rfl, if_pos rfl]
      rfl
    · rw [tree_append rfl, if_pos rfl]
      exact fun counts =>
        ((rowed counts).evolves readied).evolves addedStays.evolves
  obtain ⟨old, _, asked, ran⟩ := Program.bind_eq_ok.mp ran
  simp only [asks, Program.gets_apply, Except.ok.injEq,
    Prod.mk.injEq] at asked
  obtain ⟨_, rfl⟩ := asked
  obtain ⟨better, chosen, chooses, ran⟩ := Program.bind_eq_ok.mp ran
  have chosenStays :=
    stays_prefer recovers _ _ _ _ _ _
      (.start keepingNow.stays.stacked) chooses
  have sameChosen : finishedOf chosen = finishedOf added :=
    keeps_prefer observes _ _ _ _ _ _ chooses
  have chosenNow := keepingNow.later chosenStays sameChosen
  cases better with
  | false =>
      cases ran
      exact chosenNow
  | true =>
      cases ran
      refine ⟨?_, ?_⟩
      · refine Stays.trans
          (chosenNow.stays.stacked.beside ?_ rfl) chosenNow.stays.evolves
        exact ⟨rfl, rfl, rfl, rfl, rfl, rfl, rfl, rfl, rfl⟩
      · intro root isRoot
        cases isRoot
        exact (isFinished.evolves chosenStays.evolves).evolves
          (.of_same rfl rfl rfl)

/-- Rebuilding the root of a whole stack keeps to accepted roots. -/
theorem keeping_acceptPath
    {path : List Nat}
    (high : ∀ tree, base.trees.length ≤ tree → roots tree)
    (whole : Whole base path) :
    Maintains
      (fun state : TFSpecState =>
        Keeping env.lang ends roots base state.spec)
      (acceptPath env path) := by
  intro before value after keeping ran
  rw [acceptPath_eq] at ran
  obtain ⟨found, _, asked, ran⟩ := Program.bind_eq_ok.mp ran
  simp only [asks, Program.gets_apply, Except.ok.injEq,
    Prod.mk.injEq] at asked
  obtain ⟨isFound, rfl⟩ := asked
  cases found with
  | none =>
      cases ran
      exact keeping
  | some index =>
      obtain ⟨inRange, plain⟩ := lastStructural_spec isFound
      have isWhole := whole.evolves keeping.stays.evolves
      have member : path.getD index 0 ∈ path := by
        rw [List.getD_eq_getElem _ _ inRange]
        exact List.getElem_mem inRange
      obtain ⟨unknown, _, asked, ran⟩ := Program.bind_eq_ok.mp ran
      simp only [asks, Program.gets_apply, Except.ok.injEq,
        Prod.mk.injEq] at asked
      obtain ⟨_, rfl⟩ := asked
      split at ran
      · obtain ⟨_, recovered, recovering, ran⟩ := Program.bind_eq_ok.mp ran
        have stays := recovers keeping.stays.stacked recovering
        refine keeping_rebuildRoot recovers observes high
          (isWhole.evolves stays.evolves) inRange ?_
          (keeping.later stays (observes _ _ _ recovering)) ran
        rw [(stays.evolves.tree _ (isWhole.within _ member)).extra]
        exact plain
      · exact keeping_rebuildRoot recovers observes high isWhole inRange
          plain keeping ran

omit recovers observes in
/-- Rebuilding the root of a stack leaves the heads. -/
theorem headsOf_acceptPath
    (materializes : Keeps headsOf env.materialize)
    (path : List Nat) :
    Keeps headsOf (acceptPath env path) := by
  have rebuilds :
      ∀ index, Keeps headsOf (rebuildRoot env path index) := by
    intro index
    refine Keeps.bind headsOf_asks (fun root => ?_)
    refine Keeps.bind headsOf_asks (fun count => ?_)
    refine Keeps.bind (headsOf_reserve _ _) (fun _ => ?_)
    refine Keeps.bind (headsOf_update (fun _ => rfl)) (fun _ => ?_)
    refine Keeps.bind (headsOf_parent _ _ _ _ _) (fun candidate => ?_)
    refine Keeps.bind headsOf_asks (fun finished => ?_)
    refine Keeps.bind (headsOf_prefer materializes _ _ _) (fun better => ?_)
    exact Keeps.ite (headsOf_update (fun _ => rfl)) Keeps.pure
  rw [acceptPath_eq]
  refine Keeps.bind headsOf_asks (fun found => ?_)
  cases found with
  | none =>
      exact Keeps.pure
  | some index =>
      refine Keeps.bind headsOf_asks (fun unknown => ?_)
      exact Keeps.ite
        (Keeps.bind materializes (fun _ => rebuilds index))
        (rebuilds index)

end Rebuilding

end TFSpec

end TreeFeller
