import TreeFeller.StackPops

namespace TreeFeller

open StatefulProgram

/-!
# Programs that leave the heads alone

Building parents, pushing them and adding links are all done below the heads.
Which heads there are changes only where a program adds, moves or removes one.
-/

namespace TFSpec

open Program

/-- The heads of a split's graph. -/
def headsOf (state : TFSpecState) : List TFSpecHead :=
  state.spec.heads

/-- Updating other parts of the graph. -/
theorem headsOf_update
    {change : TFSpec → TFSpec}
    (same : ∀ graph, (change graph).heads = graph.heads) :
    Keeps headsOf (update change) :=
  Keeps.modify (fun state => same state.spec)

/-- Reading the graph. -/
theorem headsOf_asks
    {α : Type}
    {project : TFSpec → α} :
    Keeps headsOf (asks project) :=
  Keeps.gets

/-- Making room. -/
theorem headsOf_reserve
    (arena : TFSpecArena)
    (needed : Nat) :
    Keeps headsOf (reserve arena needed) := by
  unfold reserve
  refine Keeps.bind headsOf_asks (fun capacity => ?_)
  apply Keeps.ite Keeps.pure
  apply Keeps.ite Keeps.stop
  refine Keeps.bind (Keeps.modifyGet (fun _ => rfl)) (fun served => ?_)
  exact Keeps.ite (headsOf_update (fun _ => rfl)) Keeps.stop

/-- Adding a tree. -/
theorem headsOf_newTree
    (tree : TFSpecTree) :
    Keeps headsOf (newTree tree) := by
  unfold newTree
  refine Keeps.bind headsOf_asks (fun count => ?_)
  apply Keeps.ite Keeps.stop
  refine Keeps.bind (headsOf_reserve _ _) (fun _ => ?_)
  exact Keeps.bind (headsOf_update (fun _ => rfl)) (fun _ => Keeps.pure)

/-- Taking link slots. -/
theorem headsOf_newLinks
    (count : Nat) :
    Keeps headsOf (newLinks count) := by
  unfold newLinks
  refine Keeps.bind headsOf_asks (fun used => ?_)
  exact Keeps.bind (headsOf_reserve _ _)
    (fun _ => headsOf_update (fun _ => rfl))

/-- Pushing a tree. -/
theorem headsOf_push
    (previous tree : Nat)
    (state : TSStateId) :
    Keeps headsOf (push previous tree state) := by
  unfold push addNode
  refine Keeps.bind headsOf_asks (fun count => ?_)
  refine Keeps.bind (headsOf_reserve _ _) (fun _ => ?_)
  refine Keeps.bind (headsOf_newLinks _) (fun _ => ?_)
  refine Keeps.bind headsOf_asks (fun node => ?_)
  refine Keeps.bind headsOf_asks (fun count => ?_)
  exact Keeps.bind (headsOf_update (fun _ => rfl)) (fun _ => Keeps.pure)

/-- Unrolling below a node. -/
theorem headsOf_unroll
    (node : Nat) :
    Keeps headsOf (unroll node) := by
  unfold unroll
  refine Keeps.bind headsOf_asks (fun atFrontier => ?_)
  refine Keeps.ite ?_ Keeps.pure
  intro before value after ran
  exact (extend_unrolls ran).heads

/-- Adding the tree of a reduction. -/
theorem headsOf_parent
    (symbol : TSSymbol)
    (production structural : Nat)
    (children : List Nat)
    (base : Nat) :
    Keeps headsOf (parent symbol production structural children base) :=
  Keeps.bind headsOf_asks (fun tree => headsOf_newTree tree)

/-- Pushing the extras on top. -/
theorem headsOf_pushExtras
    (state : TSStateId)
    (extras : List Nat)
    (top : Nat) :
    Keeps headsOf (pushExtras state extras top) := by
  induction extras generalizing top with
  | nil =>
      exact Keeps.pure
  | cons tree rest inductionHypothesis =>
      exact Keeps.bind (headsOf_push _ _ _)
        (fun next => inductionHypothesis _)

section Shapes

variable {materialize : SpecM Unit}
variable (materializes : Keeps headsOf materialize)

include materializes

/-- Comparing two trees for interchange. -/
theorem headsOf_equivalent
    (a b : Nat) :
    Keeps headsOf (equivalent materialize a b) := by
  unfold equivalent
  apply Keeps.ite Keeps.pure
  refine Keeps.bind headsOf_asks (fun x => ?_)
  refine Keeps.bind headsOf_asks (fun y => ?_)
  apply Keeps.ite Keeps.pure
  exact Keeps.ite (Keeps.bind materializes (fun _ => headsOf_asks))
    headsOf_asks

/-- Looking for a link. -/
theorem headsOf_findLink
    (link : TFSpecLink)
    (index : Nat)
    (links : List TFSpecLink) :
    Keeps headsOf (findLink materialize link index links) := by
  induction links generalizing index with
  | nil =>
      exact Keeps.pure
  | cons existing rest inductionHypothesis =>
      unfold findLink
      refine Keeps.bind (headsOf_equivalent materializes _ _)
        (fun same => ?_)
      apply Keeps.ite (inductionHypothesis _)
      refine Keeps.bind headsOf_asks (fun merges => ?_)
      exact Keeps.ite Keeps.pure (inductionHypothesis _)

omit materializes in
/-- Appending a link. -/
theorem headsOf_appendLink
    (target : Nat)
    (link : TFSpecLink) :
    Keeps headsOf (appendLink target link) := by
  unfold appendLink
  refine Keeps.bind headsOf_asks (fun node => ?_)
  refine Keeps.ite (headsOf_update (fun _ => rfl)) ?_
  have appends :
      Keeps headsOf (do
        update (fun s =>
          s.modifyNode target (fun node =>
            { node with links := node.links ++ [link] }))
        update (fun s => s.raisePrecedence target link)) :=
    Keeps.bind (headsOf_update (fun _ => rfl))
      (fun _ => headsOf_update (fun _ => rfl))
  refine Keeps.ite ?_ appends
  refine Keeps.bind (headsOf_newLinks _) (fun _ => ?_)
  exact Keeps.bind (headsOf_update (fun _ => rfl)) (fun _ => appends)

omit materializes in
/-- Replacing a link's tree. -/
theorem heads_replaceTree
    (self : TFSpec)
    (target index : Nat)
    (existing link : TFSpecLink) :
    (self.replaceTree target index existing link).heads = self.heads := by
  unfold replaceTree
  split
  · rfl
  · rfl

/-- Adding a link. -/
theorem headsOf_addLink
    (fuel target : Nat)
    (link : TFSpecLink) :
    Keeps headsOf (addLink materialize fuel target link) := by
  induction fuel generalizing target link with
  | zero =>
      exact Keeps.stop
  | succ fuel inductionHypothesis =>
      unfold addLink
      apply Keeps.ite Keeps.pure
      refine Keeps.bind (headsOf_unroll _) (fun _ => ?_)
      refine Keeps.bind headsOf_asks (fun links => ?_)
      refine Keeps.bind (headsOf_findLink materializes _ _ _)
        (fun found => ?_)
      cases found with
      | none =>
          exact headsOf_appendLink _ _
      | some place =>
          apply Keeps.ite
          · exact headsOf_update
              (fun graph => heads_replaceTree graph _ _ _ _)
          · refine Keeps.bind ?_ (fun _ => headsOf_update (fun _ => rfl))
            refine Keeps.bind headsOf_asks (fun links => ?_)
            exact Keeps.forEach (fun link => inductionHypothesis _ _)

/-- Merging removes the head that was merged, and no other. -/
theorem heads_merge
    {fuel a b : Nat}
    {merged : Bool}
    {before after : TFSpecState}
    (ran : merge materialize fuel a b before = .ok (merged, after)) :
    after.spec.heads =
      if merged then before.spec.heads.eraseIdx b else before.spec.heads := by
  unfold merge at ran
  obtain ⟨agrees, _, asked, ran⟩ := Program.bind_eq_ok.mp ran
  simp only [asks, Program.gets_apply, Except.ok.injEq,
    Prod.mk.injEq] at asked
  obtain ⟨_, rfl⟩ := asked
  cases agrees with
  | false =>
      cases ran
      rfl
  | true =>
      rw [if_pos rfl] at ran
      obtain ⟨into, _, asked, ran⟩ := Program.bind_eq_ok.mp ran
      cases asked
      obtain ⟨source, _, asked, ran⟩ := Program.bind_eq_ok.mp ran
      cases asked
      obtain ⟨_, absorbed, absorbs, ran⟩ := Program.bind_eq_ok.mp ran
      obtain ⟨_, _, removed, ran⟩ := Program.bind_eq_ok.mp ran
      cases removed
      cases ran
      have same : absorbed.spec.heads = before.spec.heads := by
        refine Keeps.bind headsOf_asks (fun links => ?_) _ _ _ absorbs
        exact Keeps.forEach (fun link => headsOf_addLink materializes _ _ _)
      rw [if_pos rfl]
      exact congrArg (fun heads => heads.eraseIdx b) same

/-- Comparing shapes. -/
theorem headsOf_preferShapes
    (fuel : Nat)
    (pairs : List (Nat × Nat)) :
    Keeps headsOf (preferShapes materialize fuel pairs) := by
  refine Keeps.iterate (fun pairs => ?_) _ _
  cases pairs with
  | nil =>
      exact Keeps.pure
  | cons pair rest =>
      apply Keeps.ite Keeps.pure
      refine Keeps.bind headsOf_asks (fun x => ?_)
      refine Keeps.bind headsOf_asks (fun y => ?_)
      apply Keeps.ite Keeps.pure
      have compares :
          Keeps headsOf (do
            let x ← asks (fun s => s.tree pair.1)
            let y ← asks (fun s => s.tree pair.2)
            if x.children.length ≠ y.children.length then
              pure (.inr
                (decide (y.children.length < x.children.length)))
            else
              reserve .scratch
                (2 * rest.length + 2 * x.children.length)
              pure (.inl (x.children.zip y.children ++ rest)) :
            SpecM (List (Nat × Nat) ⊕ Bool)) := by
        refine Keeps.bind headsOf_asks (fun x => ?_)
        refine Keeps.bind headsOf_asks (fun y => ?_)
        apply Keeps.ite Keeps.pure
        exact Keeps.bind (headsOf_reserve _ _) (fun _ => Keeps.pure)
      exact Keeps.ite (Keeps.bind materializes (fun _ => compares)) compares

/-- Comparing two trees for preference. -/
theorem headsOf_prefer
    (fuel : Nat)
    (a : Option Nat)
    (b : Nat) :
    Keeps headsOf (prefer materialize fuel a b) := by
  cases a with
  | none =>
      exact Keeps.pure
  | some a =>
      refine Keeps.bind headsOf_asks (fun x => ?_)
      refine Keeps.bind headsOf_asks (fun y => ?_)
      apply Keeps.ite Keeps.pure
      exact Keeps.bind (headsOf_reserve _ _)
        (fun _ => headsOf_preferShapes materializes _ _)

end Shapes

section Parents

variable {env : TFSpecEnv}
variable (materializes : Keeps headsOf env.materialize)

include materializes

/-- Choosing a parent. -/
theorem headsOf_selectParent
    (symbol : TSSymbol)
    (childCount productionId base : Nat)
    (paths : List (List Nat))
    (chosen : Option (Nat × List Nat)) :
    Keeps headsOf
      (selectParent env symbol childCount productionId base paths
        chosen) := by
  induction paths generalizing chosen with
  | nil =>
      exact Keeps.pure
  | cons path rest inductionHypothesis =>
      refine Keeps.bind headsOf_asks (fun trimmed => ?_)
      refine Keeps.bind (headsOf_parent _ _ _ _ _) (fun candidate => ?_)
      refine Keeps.bind (headsOf_prefer materializes _ _ _)
        (fun better => ?_)
      exact Keeps.ite (inductionHypothesis _) (inductionHypothesis _)

/-- Merging a new head below removes it or changes no head. -/
theorem heads_mergeBelow
    {version created : Nat}
    {others : List Nat}
    {merged : Bool}
    {before after : TFSpecState}
    (ran :
      mergeBelow env version created others before = .ok (merged, after)) :
    after.spec.heads =
      if merged then before.spec.heads.eraseIdx created
      else before.spec.heads := by
  induction others generalizing before with
  | nil =>
      cases ran
      rfl
  | cons other rest inductionHypothesis =>
      unfold mergeBelow at ran
      split at ran
      · exact inductionHypothesis ran
      · obtain ⟨taken, middle, merges, ran⟩ := Program.bind_eq_ok.mp ran
        have heads := heads_merge materializes merges
        cases taken with
        | true =>
            cases ran
            exact heads
        | false =>
            rw [if_neg Bool.false_ne_true] at ran heads
            rw [inductionHypothesis ran, heads]

end Parents

end TFSpec

end TreeFeller
