import TreeFeller.PopEnds
import TreeFeller.StackRounds
import Mathlib.Algebra.Order.BigOperators.Group.List
import Mathlib.Algebra.Order.Group.Nat

namespace TreeFeller

open StatefulProgram

/-!
# The recursions of a graph of LR stacks end

Every link leads to a node that ends earlier.  So the graph has no cycle, and
adding a link, looking for a second path and popping all go down from byte to
byte: none of them runs out of fuel, but for a private replay that does.
-/

namespace TFSpec

open Program

/-! ## The graph has no cycle -/

/-- How far along the nodes below a node are, counted together. -/
def below (graph : TFSpec) (node : Nat) : Nat :=
  ((graph.node node).links.map
    (fun link => (graph.node link.node).byte)).sum

open Classical in
/-- A graph of LR stacks has no cycle. -/
theorem Stacked.acyclic
    {lang : TFLanguage}
    {ends roots : Nat → Prop}
    {graph : TFSpec}
    (stacked : Stacked lang ends roots graph) :
    graph.Acyclic := by
  refine ⟨fun node =>
    if ends node then graph.below node + 1 else (graph.node node).byte, ?_⟩
  intro node link isLink
  have ordinary := stacked.apart node link isLink
  dsimp only
  rw [if_neg ordinary]
  by_cases isEnd : ends node
  · rw [if_pos isEnd]
    refine Nat.lt_succ_of_le ?_
    exact List.le_sum_of_mem
      (List.mem_map.mpr ⟨link, isLink, rfl⟩)
  · rw [if_neg isEnd]
    exact (stacked.fits node isEnd link isLink).spans

/-! ## Programs that are stuck where a replay is -/

/-- A program that is stuck only where a replay is, from a state in a class. -/
def StuckIn
    {α : Type}
    (holds : TFSpecState → Prop)
    (replay : SpecM Unit)
    (program : SpecM α) : Prop :=
  ∀ state, holds state → program state = .error .stuck →
    ∃ later, holds later ∧ replay later = .error .stuck

namespace StuckIn

variable {α β : Type}
variable {holds : TFSpecState → Prop}
variable {replay : SpecM Unit}

/-- A program that is never stuck. -/
theorem of_avoids
    {program : SpecM α}
    (avoids : Avoids .stuck program) :
    StuckIn holds replay program :=
  fun state _ stuck => absurd stuck (avoids state)

/-- The replay itself. -/
theorem replays : StuckIn holds replay replay :=
  fun state known stuck => ⟨state, known, stuck⟩

/-- One program after another, if the first one keeps to the class. -/
theorem bind
    {after : α → TFSpecState → Prop}
    {first : SpecM α}
    {next : α → SpecM β}
    (maintains : Ensures holds first after)
    (firstStuck : StuckIn holds replay first)
    (nextStuck :
      ∀ value state, after value state → next value state = .error .stuck →
        ∃ later, holds later ∧ replay later = .error .stuck) :
    StuckIn holds replay (first >>= next) := by
  intro state known stuck
  cases ran : first state with
  | error error =>
      rw [bind_of_error ran] at stuck
      rw [Except.error.inj stuck] at ran
      exact firstStuck state known ran
  | ok pair =>
      obtain ⟨value, middle⟩ := pair
      rw [bind_of_ok ran] at stuck
      exact nextStuck value middle (maintains _ _ _ known ran) stuck

/-- A choice between two programs. -/
theorem ite
    {condition : Prop}
    [Decidable condition]
    {first second : SpecM α}
    (firstStuck : StuckIn holds replay first)
    (secondStuck : StuckIn holds replay second) :
    StuckIn holds replay (if condition then first else second) := by
  split
  · exact firstStuck
  · exact secondStuck

/-- One program for every item. -/
theorem forEach
    {action : α → SpecM Unit}
    {items : List α}
    (maintains : ∀ item ∈ items, Maintains holds (action item))
    (stuck : ∀ item ∈ items, StuckIn holds replay (action item)) :
    StuckIn holds replay (Program.forEach action items) := by
  induction items with
  | nil =>
      exact of_avoids Avoids.pure
  | cons item rest inductionHypothesis =>
      exact bind (maintains item (List.mem_cons_self ..))
        (stuck item (List.mem_cons_self ..))
        (fun _ => inductionHypothesis
          (fun other member =>
            maintains other (List.mem_cons_of_mem _ member))
          (fun other member => stuck other (List.mem_cons_of_mem _ member)))

end StuckIn

section Links

variable {lang : TFLanguage}
variable {ends roots : Nat → Prop}
variable {base : TFSpec}
variable {materialize : SpecM Unit}
variable
  (recovers :
    ∀ {before after : TFSpecState},
      Stacked lang ends roots before.spec →
        materialize before = .ok ((), after) →
          Stays lang ends roots before.spec after.spec)

/-- Comparing trees is stuck where a replay is. -/
theorem equivalent_stuckIn
    {holds : TFSpecState → Prop}
    (maintains : Maintains holds materialize)
    (a b : Nat) :
    StuckIn holds materialize (equivalent materialize a b) := by
  have reads {γ : Type} {project : TFSpec → γ} :
      Maintains holds (asks project) := by
    intro before value after known ran
    cases ran
    exact known
  have asking {γ : Type} {project : TFSpec → γ} :
      StuckIn holds materialize (asks project) :=
    StuckIn.of_avoids Avoids.gets
  unfold equivalent
  refine StuckIn.ite (StuckIn.of_avoids Avoids.pure) ?_
  refine StuckIn.bind reads asking (fun x => ?_)
  refine StuckIn.bind reads asking (fun y => ?_)
  refine StuckIn.ite (StuckIn.of_avoids Avoids.pure) ?_
  exact StuckIn.ite
    (StuckIn.bind maintains StuckIn.replays (fun _ => asking)) asking

include recovers

/-- Looking for a link to merge with is stuck where a replay is. -/
theorem findLink_stuckIn
    (link : TFSpecLink)
    (index : Nat)
    (links : List TFSpecLink) :
    StuckIn
      (fun state : TFSpecState => Stays lang ends roots base state.spec)
      materialize (findLink materialize link index links) := by
  induction links generalizing index with
  | nil =>
      exact StuckIn.of_avoids Avoids.pure
  | cons first rest inductionHypothesis =>
      unfold findLink
      refine StuckIn.bind (stays_equivalent recovers _ _)
        (equivalent_stuckIn (stays_recovers recovers) _ _) (fun same => ?_)
      refine StuckIn.ite (inductionHypothesis _) ?_
      refine StuckIn.bind stays_asks (StuckIn.of_avoids Avoids.gets)
        (fun merges => ?_)
      exact StuckIn.ite (StuckIn.of_avoids Avoids.pure)
        (inductionHypothesis _)

omit recovers in
/-- Appending a link is never stuck. -/
theorem appendLink_avoids
    (target : Nat)
    (link : TFSpecLink) :
    Avoids .stuck (appendLink target link) := by
  have appends :
      Avoids .stuck (do
        update (fun s =>
          s.modifyNode target (fun node =>
            { node with links := node.links ++ [link] }))
        update (fun s => s.raisePrecedence target link) : SpecM Unit) :=
    Avoids.bind Avoids.modify (fun _ => Avoids.modify)
  unfold appendLink
  refine Avoids.bind Avoids.gets (fun node => ?_)
  refine Avoids.ite Avoids.modify ?_
  refine Avoids.ite ?_ appends
  refine Avoids.bind ?_ (fun _ => Avoids.bind Avoids.modify (fun _ => appends))
  unfold newLinks
  refine Avoids.bind Avoids.gets (fun used => ?_)
  exact Avoids.bind (reserve_avoids _ _) (fun _ => Avoids.modify)

omit recovers in
/-- Reading a node's links. -/
theorem reads_links
    (target : Nat) :
    Ensures
      (fun state : TFSpecState => Stays lang ends roots base state.spec)
      (asks (fun s => (s.node target).links))
      (fun links state =>
        Stays lang ends roots base state.spec ∧
          links = (state.spec.node target).links) := by
  intro before value after stays ran
  cases ran
  exact ⟨stays, rfl⟩

/-- Taking in the links of a node is stuck where a replay is. -/
theorem absorbWith_ends
    {fuel into source : Nat}
    {before : TFSpecState}
    (adds :
      ∀ {link : TFSpecLink} {start : TFSpecState},
        Stacked lang ends roots start.spec →
          Offers lang ends start.spec into link →
            (start.spec.node into).byte < fuel →
              addLink materialize fuel into link start = .error .stuck →
                ∃ later : TFSpecState,
                  Stays lang ends roots start.spec later.spec ∧
                    materialize later = .error .stuck)
    (stacked : Stacked lang ends roots before.spec)
    (within : into < before.spec.nodes.length)
    (ordinary : ¬ ends into)
    (sourceOrdinary : ¬ ends source)
    (alike : Alike before.spec into source)
    (enough : (before.spec.node into).byte < fuel)
    (stuck :
      absorbWith (addLink materialize fuel) into source before =
        .error .stuck) :
    ∃ later : TFSpecState,
      Stays lang ends roots before.spec later.spec ∧
        materialize later = .error .stuck := by
  let Holds : TFSpecState → Prop :=
    fun state => Stays lang ends roots before.spec state.spec
  have offered :
      ∀ link ∈ (before.spec.node source).links, ∀ state : TFSpecState,
        Holds state → Offers lang ends state.spec into link := by
    intro link member state stays
    exact ((stacked.offers sourceOrdinary member).alike within ordinary
      alike.state alike.byte).evolves stays.evolves
  have each :
      StuckIn Holds materialize
        (Program.forEach (addLink materialize fuel into)
          (before.spec.node source).links) := by
    refine StuckIn.forEach ?_ ?_
    · intro link member start value after stays ran
      exact (addLink_stays recovers stays.stacked
        (offered link member start stays) ran).trans stays.evolves
    · intro link member start stays stuck
      have enoughNow : (start.spec.node into).byte < fuel := by
        rw [stays.evolves.byte into within]
        exact enough
      obtain ⟨later, staysLater, stops⟩ :=
        adds stays.stacked (offered link member start stays) enoughNow stuck
      exact ⟨later, staysLater.trans stays.evolves, stops⟩
  exact each before (.start stacked) stuck

/--
Adding a link goes down from byte to byte: with more fuel than the target's
byte, it is stuck only where a private replay is.
-/
theorem addLink_ends
    {fuel target : Nat}
    {link : TFSpecLink}
    {before : TFSpecState}
    (stacked : Stacked lang ends roots before.spec)
    (offers : Offers lang ends before.spec target link)
    (enough : (before.spec.node target).byte < fuel)
    (stuck :
      addLink materialize fuel target link before = .error .stuck) :
    ∃ later : TFSpecState,
      Stays lang ends roots before.spec later.spec ∧
        materialize later = .error .stuck := by
  induction fuel generalizing target link before with
  | zero =>
      exact absurd enough (Nat.not_lt_zero _)
  | succ fuel inductionHypothesis =>
      let Holds : TFSpecState → Prop :=
        fun state => Stays lang ends roots before.spec state.spec
      have goal :
          StuckIn Holds materialize
            (addLink materialize (fuel + 1) target link) := by
        unfold addLink
        refine StuckIn.ite (StuckIn.of_avoids Avoids.pure) ?_
        refine StuckIn.bind (stays_unroll target)
          (StuckIn.of_avoids (unroll_avoids target)) (fun _ => ?_)
        refine StuckIn.bind (reads_links target)
          (StuckIn.of_avoids Avoids.gets) ?_
        rintro links unrolled ⟨unrolls, rfl⟩
        intro stuck
        cases looked :
            findLink materialize link 0 (unrolled.spec.node target).links
              unrolled with
        | error error =>
            rw [bind_of_error looked] at stuck
            rw [Except.error.inj stuck] at looked
            exact findLink_stuckIn recovers _ _ _ unrolled unrolls looked
        | ok pair =>
            obtain ⟨found, middle⟩ := pair
            rw [bind_of_ok looked] at stuck
            obtain ⟨looks, known⟩ :=
              stays_findLink recovers _ _ _ _ _ _ (.start unrolls.stacked)
                looked
            have evolves := looks.evolves.trans unrolls.evolves
            have offersMiddle := offers.evolves evolves
            cases found with
            | none =>
                exact absurd stuck (appendLink_avoids target link middle)
            | some place =>
                obtain ⟨index, existing⟩ := place
                obtain ⟨isExisting, fits⟩ := known index existing rfl
                dsimp only at stuck
                split at stuck
                · cases stuck
                · rename_i apart
                  have alike :
                      Alike middle.spec existing.node link.node := by
                    rcases fits with same | alike
                    · exact absurd same apart
                    · exact alike
                  have within :=
                    (unrolls.stacked.linked.link isExisting).1
                  have ordinary : ¬ ends existing.node :=
                    unrolls.stacked.apart target existing isExisting
                  have lower :
                      (middle.spec.node existing.node).byte < fuel := by
                    have down :=
                      (unrolls.stacked.fits target offers.ordinary existing
                        isExisting).spans
                    rw [unrolls.evolves.byte target offers.targetWithin]
                      at down
                    rw [looks.evolves.byte _ within]
                    omega
                  cases absorbs :
                      absorbWith (addLink materialize fuel) existing.node
                        link.node middle with
                  | error error =>
                      rw [bind_of_error absorbs] at stuck
                      rw [Except.error.inj stuck] at absorbs
                      obtain ⟨later, stays, stops⟩ :=
                        absorbWith_ends recovers
                          (fun stacked offers enough stuck =>
                            inductionHypothesis stacked offers enough stuck)
                          looks.stacked
                          (Nat.lt_of_lt_of_le within looks.evolves.nodes)
                          ordinary offersMiddle.below alike lower absorbs
                      exact ⟨later, stays.trans evolves, stops⟩
                  | ok pair =>
                      rw [bind_of_ok absorbs] at stuck
                      cases stuck
      exact goal before (.start stacked) stuck

end Links

/-- Looking for a second path ends in a graph without a cycle. -/
theorem unique_ends
    {state : TFSpecState}
    (acyclic : state.spec.Acyclic)
    (node : Nat) :
    ∃ height, ∀ fuel, height < fuel →
      unique fuel node state ≠ .error .stuck := by
  obtain ⟨rank, down⟩ := acyclic
  refine ⟨rank node, fun fuel enough => ?_⟩
  let measured : Nat → Nat → TFSpecState → Prop :=
    fun measure node current => current = state ∧ rank node = measure
  have holds : measured (rank node) node state := ⟨rfl, rfl⟩
  unfold unique
  refine Avoids.iterate ?_ ?_ holds enough
  · intro current
    refine Avoids.bind Avoids.gets (fun links => ?_)
    split
    · exact Avoids.pure
    · exact Avoids.pure
    · exact Avoids.pure
  · rintro measure current before next after ⟨rfl, rfl⟩ ran
    obtain ⟨links, _, asked, ran⟩ := Program.bind_eq_ok.mp ran
    simp only [asks, Program.gets_apply, Except.ok.injEq,
      Prod.mk.injEq] at asked
    obtain ⟨isLinks, rfl⟩ := asked
    split at ran
    · cases ran
    · rename_i link
      cases ran
      refine ⟨rank link.node, down current link ?_, rfl, rfl⟩
      rw [isLinks]
      exact List.mem_singleton_self _
    · cases ran

end TFSpec

end TreeFeller
