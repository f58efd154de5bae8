import TreeFeller.StackRecovery

namespace TreeFeller

open StatefulProgram

/-!
# Merging in a graph of LR stacks

A link is added where it fits: at its own node, or at a node of the same state
and byte that takes that node's links in.  An existing link that takes another
in leads to the same node, or to one of the same state and byte, whose links
fit in turn.
-/

namespace TFSpec

open Program

section Merging

variable {lang : TFLanguage}
variable {ends roots : Nat → Prop}
variable {base : TFSpec}

/-! ### Programs that edit nothing -/

/-- Updating what is not the graph. -/
theorem stays_update
    {change : TFSpec → TFSpec}
    (same : ∀ graph, SameGraph graph (change graph))
    (heads : ∀ graph, (change graph).heads = graph.heads) :
    Maintains
      (fun state : TFSpecState => Stays lang ends roots base state.spec)
      (update change) := by
  intro before value after stays ran
  cases ran
  exact (stays.stacked.beside (same _) (heads _)).trans stays.evolves

/-- Reading the graph. -/
theorem stays_asks
    {α : Type}
    {project : TFSpec → α} :
    Maintains
      (fun state : TFSpecState => Stays lang ends roots base state.spec)
      (asks project) := by
  intro before value after stays ran
  cases ran
  exact stays

/-- Reserving. -/
theorem stays_reserve
    (arena : TFSpecArena)
    (needed : Nat) :
    Maintains
      (fun state : TFSpecState => Stays lang ends roots base state.spec)
      (reserve arena needed) := by
  intro before value after stays ran
  obtain ⟨capacity, heap, rfl⟩ := reserve_eq_ok ran
  refine Stays.trans (stays.stacked.beside ?_ rfl) stays.evolves
  exact ⟨rfl, rfl, rfl, rfl, rfl, rfl, rfl, rfl, rfl⟩

/-- Unrolling below a node. -/
theorem stays_unroll
    (node : Nat) :
    Maintains
      (fun state : TFSpecState => Stays lang ends roots base state.spec)
      (unroll node) := by
  intro before value after stays ran
  exact (unroll_stays stays.stacked ran).trans stays.evolves

/-- Removing a head. -/
theorem stays_removeHead
    (version : Nat) :
    Maintains
      (fun state : TFSpecState => Stays lang ends roots base state.spec)
      (removeHead version) := by
  intro before value after stays ran
  cases ran
  refine Stays.trans (stays.stacked.aside ?_ ?_) stays.evolves
  · exact ⟨rfl, rfl, rfl, rfl, rfl, rfl, rfl, rfl, rfl⟩
  · intro head member
    exact stays.stacked.ownHeads head (List.mem_of_mem_eraseIdx member)

/-! ### Editing links -/

/-- Raising a precedence. -/
theorem Stacked.raisePrecedence
    {before : TFSpec}
    (stacked : Stacked lang ends roots before)
    (target : Nat)
    (link : TFSpecLink) :
    Stays lang ends roots before (before.raisePrecedence target link) := by
  unfold TFSpec.raisePrecedence
  exact stacked.modifyNode (fun _ => rfl) (fun _ => rfl)
    (fun _ linked => linked) (fun _ _ isLink => Or.inl isLink)
    (fun _ => stacked.room target)

/-- Appending a link that fits, where there is room for it. -/
theorem Stacked.append
    {before : TFSpec}
    (stacked : Stacked lang ends roots before)
    {target : Nat}
    {link : TFSpecLink}
    (offers : Offers lang ends before target link)
    {widen : TFSpecNode → TFSpecNode}
    (state : ∀ node, (widen node).state = node.state)
    (byte : ∀ node, (widen node).byte = node.byte)
    (links : ∀ node, (widen node).links = node.links)
    (room :
      (before.node target).links.length <
          (widen (before.node target)).linkCapacity ∧
        (widen (before.node target)).linkCapacity ≤ tfSpecLinks) :
    Stays lang ends roots before
      ((before.modifyNode target widen).modifyNode target (fun node =>
        { node with links := node.links ++ [link] })) := by
  rw [modifyNode_modifyNode]
  refine stacked.modifyNode state byte ?_ ?_ ?_
  · intro node _
    simp
  · intro _ other isLink
    simp only [Function.comp_apply, links] at isLink
    rcases List.mem_append.mp isLink with old | new
    · exact Or.inl old
    · rw [List.mem_singleton.mp new]
      exact Or.inr offers
  · intro _
    simp only [Function.comp_apply, links, List.length_append,
      List.length_singleton]
    exact room

/-- Appending a link, in a longer run when its own is full. -/
theorem appendLink_stays
    {target : Nat}
    {link : TFSpecLink}
    {before after : TFSpecState}
    (stacked : Stacked lang ends roots before.spec)
    (offers : Offers lang ends before.spec target link)
    (ran : appendLink target link before = .ok ((), after)) :
    Stays lang ends roots before.spec after.spec := by
  obtain ⟨fewer, limit⟩ := stacked.room target
  have links : tfSpecLinks = 8 := rfl
  unfold appendLink at ran
  obtain ⟨node, _, asked, ran⟩ := Program.bind_eq_ok.mp ran
  cases asked
  split at ran
  · cases ran
    refine stacked.beside ?_ rfl
    exact ⟨rfl, rfl, rfl, rfl, rfl, rfl, rfl, rfl, rfl⟩
  · rename_i notAll
    dsimp only at ran
    split at ran
    · rename_i full
      obtain ⟨_, _, taken, ran⟩ := Program.bind_eq_ok.mp ran
      obtain ⟨capacity, heap, rfl⟩ := newLinks_eq_ok taken
      obtain ⟨_, _, widened, ran⟩ := Program.bind_eq_ok.mp ran
      cases widened
      obtain ⟨_, _, appended, ran⟩ := Program.bind_eq_ok.mp ran
      cases appended
      cases ran
      let want :=
        min tfSpecLinks
          (if (before.spec.node target).linkCapacity = 0 then
            1
          else
            (before.spec.node target).linkCapacity * 2)
      let roomy : TFSpec :=
        { before.spec with
          linkCount := before.spec.linkCount + want
          capacity := capacity }
      have aside : Stays lang ends roots before.spec roomy :=
        stacked.beside ⟨rfl, rfl, rfl, rfl, rfl, rfl, rfl, rfl, rfl⟩ rfl
      have more :
          (before.spec.node target).links.length < want ∧
            want ≤ tfSpecLinks := by
        refine ⟨?_, Nat.min_le_left _ _⟩
        rw [full] at notAll ⊢
        refine Nat.lt_min.mpr ⟨by omega, ?_⟩
        split
        · omega
        · omega
      have appends :=
        aside.stacked.append (offers.evolves aside.evolves)
          (fun _ => rfl :
            ∀ node : TFSpecNode,
              ({ node with linkCapacity := want } : TFSpecNode).state =
                node.state)
          (fun _ => rfl) (fun _ => rfl) more
      exact (appends.stacked.raisePrecedence target link).trans
        (appends.evolves.trans aside.evolves)
    · rename_i notFull
      obtain ⟨_, _, appended, ran⟩ := Program.bind_eq_ok.mp ran
      cases appended
      cases ran
      have appends :=
        stacked.append offers
          (fun _ => rfl : ∀ node : TFSpecNode, (id node).state = node.state)
          (fun _ => rfl) (fun _ => rfl)
          ⟨Nat.lt_of_le_of_ne fewer notFull, limit⟩
      have unchanged : before.spec.modifyNode target id = before.spec := by
        unfold TFSpec.modifyNode
        rw [List.modify_id]
      rw [unchanged] at appends
      exact (appends.stacked.raisePrecedence target link).trans
        appends.evolves

/-- Keeping the better tree on a link over the same node. -/
theorem Stacked.replaceTree
    {before : TFSpec}
    (stacked : Stacked lang ends roots before)
    {target index : Nat}
    {existing link : TFSpecLink}
    (offers : Offers lang ends before target link)
    (same : existing.node = link.node) :
    Stays lang ends roots before
      (before.replaceTree target index existing link) := by
  unfold TFSpec.replaceTree
  split
  · refine stacked.modifyNode (fun _ => rfl) (fun _ => rfl) ?_ ?_ ?_
    · intro node linked isNil
      apply linked
      have length := congrArg List.length isNil
      rw [List.length_set] at length
      exact List.eq_nil_of_length_eq_zero length
    · intro _ other isLink
      rcases List.mem_or_eq_of_mem_set isLink with old | rfl
      · exact Or.inl old
      · rw [same]
        exact Or.inr offers
    · intro _
      dsimp only
      rw [List.length_set]
      exact stacked.room target
  · exact .start stacked

/-! ### Comparing -/

variable {materialize : SpecM Unit}
variable
  (recovers :
    ∀ {before after : TFSpecState},
      Stacked lang ends roots before.spec →
        materialize before = .ok ((), after) →
          Stays lang ends roots before.spec after.spec)

include recovers

/-- Recovering shapes. -/
theorem stays_recovers :
    Maintains
      (fun state : TFSpecState => Stays lang ends roots base state.spec)
      materialize := by
  intro before value after stays ran
  exact (recovers stays.stacked ran).trans stays.evolves

/-- Comparing trees. -/
theorem stays_equivalent
    (a b : Nat) :
    Maintains
      (fun state : TFSpecState => Stays lang ends roots base state.spec)
      (equivalent materialize a b) := by
  unfold equivalent
  refine Maintains.ite Maintains.pure ?_
  refine Maintains.bind stays_asks (fun x => ?_)
  refine Maintains.bind stays_asks (fun y => ?_)
  refine Maintains.ite Maintains.pure ?_
  exact Maintains.ite
    (Maintains.bind (stays_recovers recovers) (fun _ => stays_asks))
    stays_asks

/-- A link that takes another in leads to the same node, or to one like it. -/
theorem stays_findLink
    (link : TFSpecLink)
    (index : Nat)
    (links : List TFSpecLink) :
    Ensures
      (fun state : TFSpecState => Stays lang ends roots base state.spec)
      (findLink materialize link index links)
      (fun found state =>
        Stays lang ends roots base state.spec ∧
          ∀ place existing, found = some (place, existing) →
            existing ∈ links ∧
              (existing.node = link.node ∨
                Alike state.spec existing.node link.node)) := by
  induction links generalizing index with
  | nil =>
      intro before value after stays ran
      cases ran
      exact ⟨stays, nofun⟩
  | cons first rest inductionHypothesis =>
      have further :
          Ensures
            (fun state : TFSpecState =>
              Stays lang ends roots base state.spec)
            (findLink materialize link (index + 1) rest)
            (fun found state =>
              Stays lang ends roots base state.spec ∧
                ∀ place existing, found = some (place, existing) →
                  existing ∈ first :: rest ∧
                    (existing.node = link.node ∨
                      Alike state.spec existing.node link.node)) := by
        refine (inductionHypothesis (index + 1)).weaken ?_
        intro found state known
        refine ⟨known.1, ?_⟩
        intro place existing isFound
        obtain ⟨member, alike⟩ := known.2 place existing isFound
        exact ⟨List.mem_cons_of_mem _ member, alike⟩
      unfold findLink
      refine Ensures.bind (stays_equivalent recovers _ _) (fun same => ?_)
      split
      · exact further
      · intro before value after stays ran
        obtain ⟨merges, _, asked, ran⟩ := Program.bind_eq_ok.mp ran
        simp only [asks, Program.gets_apply, Except.ok.injEq,
          Prod.mk.injEq] at asked
        obtain ⟨isMerges, rfl⟩ := asked
        split at ran
        · rename_i takes
          cases ran
          refine ⟨stays, ?_⟩
          intro place existing isFound
          cases isFound
          refine ⟨List.mem_cons_self .., ?_⟩
          rw [← isMerges] at takes
          simp only [Bool.or_eq_true, Bool.and_eq_true, beq_iff_eq,
            decide_eq_true_eq] at takes
          rcases takes with same | ⟨state, byte⟩
          · exact Or.inl same
          · exact Or.inr ⟨state, byte⟩
        · exact further _ _ _ stays ran

/-- Adding a link that fits, by taking it in or by appending it. -/
theorem addLink_stays
    {fuel target : Nat}
    {link : TFSpecLink}
    {before after : TFSpecState}
    (stacked : Stacked lang ends roots before.spec)
    (offers : Offers lang ends before.spec target link)
    (ran :
      addLink materialize fuel target link before = .ok ((), after)) :
    Stays lang ends roots before.spec after.spec := by
  induction fuel generalizing target link before after with
  | zero =>
      cases ran
  | succ fuel inductionHypothesis =>
      unfold addLink at ran
      split at ran
      · cases ran
        exact .start stacked
      · obtain ⟨_, unrolled, settles, ran⟩ := Program.bind_eq_ok.mp ran
        have unrolls := unroll_stays stacked settles
        obtain ⟨links, _, asked, ran⟩ := Program.bind_eq_ok.mp ran
        simp only [asks, Program.gets_apply, Except.ok.injEq,
          Prod.mk.injEq] at asked
        obtain ⟨rfl, rfl⟩ := asked
        obtain ⟨found, middle, looked, ran⟩ := Program.bind_eq_ok.mp ran
        obtain ⟨looks, known⟩ :=
          stays_findLink recovers _ _ _ _ _ _ (.start unrolls.stacked)
            looked
        have evolves := looks.evolves.trans unrolls.evolves
        have offersMiddle := offers.evolves evolves
        suffices last : Stays lang ends roots middle.spec after.spec from
          last.trans evolves
        cases found with
        | none =>
            exact appendLink_stays looks.stacked offersMiddle ran
        | some place =>
            obtain ⟨index, existing⟩ := place
            obtain ⟨isExisting, fits⟩ := known index existing rfl
            dsimp only at ran
            split at ran
            · rename_i same
              cases ran
              exact looks.stacked.replaceTree offersMiddle same
            · rename_i apart
              obtain ⟨_, absorbed, absorbs, ran⟩ :=
                Program.bind_eq_ok.mp ran
              cases ran
              have alike :
                  Alike middle.spec existing.node link.node := by
                rcases fits with same | alike
                · exact absurd same apart
                · exact alike
              have existingWithin :
                  existing.node < middle.spec.nodes.length :=
                Nat.lt_of_lt_of_le
                  (unrolls.stacked.linked.link isExisting).1
                  looks.evolves.nodes
              have ordinary : ¬ ends existing.node :=
                unrolls.stacked.apart target existing isExisting
              unfold absorbWith at absorbs
              obtain ⟨sources, _, asked, absorbs⟩ :=
                Program.bind_eq_ok.mp absorbs
              simp only [asks, Program.gets_apply, Except.ok.injEq,
                Prod.mk.injEq] at asked
              obtain ⟨rfl, rfl⟩ := asked
              have each :
                  Maintains
                    (fun state : TFSpecState =>
                      Stays lang ends roots middle.spec state.spec)
                    (Program.forEach
                      (addLink materialize fuel existing.node)
                      (middle.spec.node link.node).links) := by
                refine Ensures.forEach ?_
                intro source member start value final stays ran
                have given :=
                  (looks.stacked.offers offersMiddle.below member).alike
                    existingWithin ordinary alike.state alike.byte
                exact (inductionHypothesis stays.stacked
                  (given.evolves stays.evolves) ran).trans stays.evolves
              have takes :=
                each _ _ _ (.start looks.stacked) absorbs
              exact (takes.stacked.raisePrecedence target link).trans
                takes.evolves

/-- Merging a head into another, where neither is halted. -/
theorem merge_stays
    {fuel a b : Nat}
    {merged : Bool}
    {before after : TFSpecState}
    (settled : ¬ Rebuilding roots)
    (stacked : Stacked lang ends roots before.spec)
    (ran : merge materialize fuel a b before = .ok (merged, after)) :
    Stays lang ends roots before.spec after.spec := by
  unfold merge at ran
  obtain ⟨agrees, _, asked, ran⟩ := Program.bind_eq_ok.mp ran
  simp only [asks, Program.gets_apply, Except.ok.injEq,
    Prod.mk.injEq] at asked
  obtain ⟨isAgrees, rfl⟩ := asked
  cases agrees with
  | false =>
      cases ran
      exact .start stacked
  | true =>
      rw [if_pos rfl] at ran
      obtain ⟨into, _, asked, ran⟩ := Program.bind_eq_ok.mp ran
      cases asked
      obtain ⟨source, _, asked, ran⟩ := Program.bind_eq_ok.mp ran
      cases asked
      obtain ⟨_, absorbed, absorbs, ran⟩ := Program.bind_eq_ok.mp ran
      obtain ⟨_, removedState, removed, ran⟩ := Program.bind_eq_ok.mp ran
      cases ran
      unfold mergeable at isAgrees
      simp only [Bool.and_eq_true, Bool.not_eq_true', beq_iff_eq]
        at isAgrees
      obtain ⟨⟨⟨aGoes, bGoes⟩, state⟩, byte⟩ := isAgrees
      have belowA := stacked.head settled aGoes
      have belowB := stacked.head settled bGoes
      unfold absorb absorbWith at absorbs
      obtain ⟨sources, _, asked, absorbs⟩ := Program.bind_eq_ok.mp absorbs
      simp only [asks, Program.gets_apply, Except.ok.injEq,
        Prod.mk.injEq] at asked
      obtain ⟨rfl, rfl⟩ := asked
      have each :
          Maintains
            (fun state : TFSpecState =>
              Stays lang ends roots before.spec state.spec)
            (Program.forEach
              (addLink materialize fuel (before.spec.head a).node)
              (before.spec.node (before.spec.head b).node).links) := by
        refine Ensures.forEach ?_
        intro source member start value final stays ran
        have given :=
          (stacked.offers belowB member).alike (stacked.headWithin a)
            belowA state byte
        exact (addLink_stays recovers stays.stacked
          (given.evolves stays.evolves) ran).trans stays.evolves
      have takes := each _ _ _ (.start stacked) absorbs
      exact stays_removeHead b _ _ _ takes removed

end Merging

end TFSpec

end TreeFeller
