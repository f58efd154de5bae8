import TreeFeller.Popping

namespace TreeFeller

open StatefulProgram

/-!
# Popping comes to an end

Every link followed leads lower, and so does every stack cell unrolled, so a
walk is over once it has gone down as far as the head is high.
-/

namespace TFSpec

open Program

/-- Giving up for want of memory is not running out of fuel. -/
theorem outOfMemory_avoids {α : Type} :
    Avoids .stuck (outOfMemory : SpecM α) :=
  Avoids.stop (by decide)

/-- Making room does not run out of fuel. -/
theorem reserve_avoids (arena : TFSpecArena) (needed : Nat) :
    Avoids .stuck (reserve arena needed) := by
  unfold reserve
  refine Avoids.bind Avoids.gets (fun capacity => ?_)
  apply Avoids.ite Avoids.pure
  apply Avoids.ite outOfMemory_avoids
  refine Avoids.bind Avoids.modifyGet (fun served => ?_)
  exact Avoids.ite Avoids.modify outOfMemory_avoids

/-- Adding a tree does not run out of fuel. -/
theorem newTree_avoids (tree : TFSpecTree) :
    Avoids .stuck (newTree tree) := by
  unfold newTree
  refine Avoids.bind Avoids.gets (fun count => ?_)
  apply Avoids.ite outOfMemory_avoids
  refine Avoids.bind (reserve_avoids _ _) (fun _ => ?_)
  exact Avoids.bind Avoids.modify (fun _ => Avoids.pure)

/-- Adding a head does not run out of fuel. -/
theorem newHead_avoids (node : Nat) :
    Avoids .stuck (newHead node) := by
  unfold newHead
  refine Avoids.bind Avoids.gets (fun count => ?_)
  refine Avoids.bind (reserve_avoids _ _) (fun _ => ?_)
  exact Avoids.bind Avoids.modify (fun _ => Avoids.pure)

/-- Unrolling does not run out of fuel. -/
theorem unroll_avoids (node : Nat) :
    Avoids .stuck (unroll node) := by
  have extends_ : Avoids .stuck extend := by
    unfold extend
    refine Avoids.bind Avoids.gets (fun index => ?_)
    refine Avoids.bind Avoids.gets (fun cells => ?_)
    refine Avoids.bind (newTree_avoids _) (fun tree => ?_)
    refine Avoids.bind Avoids.gets (fun taken => ?_)
    refine Avoids.bind (reserve_avoids _ _) (fun _ => ?_)
    refine Avoids.bind Avoids.gets (fun taken => ?_)
    refine Avoids.bind (reserve_avoids _ _) (fun _ => ?_)
    refine Avoids.bind Avoids.modify (fun _ => ?_)
    refine Avoids.bind ?_ (fun _ => ?_)
    · unfold newLinks
      refine Avoids.bind Avoids.gets (fun used => ?_)
      exact Avoids.bind (reserve_avoids _ _) (fun _ => Avoids.modify)
    · refine Avoids.bind ?_ (fun bottom => ?_)
      · unfold addNode
        refine Avoids.bind Avoids.gets (fun count => ?_)
        exact Avoids.bind Avoids.modify (fun _ => Avoids.pure)
      · refine Avoids.bind Avoids.modify (fun _ => ?_)
        refine Avoids.bind Avoids.gets (fun known => ?_)
        exact Avoids.ite Avoids.modify Avoids.pure
  unfold unroll
  refine Avoids.bind Avoids.gets (fun atFrontier => ?_)
  exact Avoids.ite extends_ Avoids.pure

/-- Taking room for a slice does not run out of fuel. -/
theorem reserveSlice_avoids (length slices : Nat) :
    Avoids .stuck (reserveSlice length slices) := by
  unfold reserveSlice
  refine Avoids.bind Avoids.gets (fun used => ?_)
  refine Avoids.bind (reserve_avoids _ _) (fun _ => ?_)
  exact Avoids.bind (reserve_avoids _ _) (fun _ => Avoids.modify)

/-- Recording a path does not run out of fuel. -/
theorem addSlice_avoids (current : TFSpecIterator) :
    Avoids .stuck (addSlice current) := by
  unfold addSlice
  refine Avoids.bind Avoids.gets (fun slices => ?_)
  refine Avoids.bind (reserveSlice_avoids _ _) (fun _ => ?_)
  refine Avoids.bind Avoids.gets (fun slot => ?_)
  cases slot with
  | none =>
      exact Avoids.bind (newHead_avoids _) (fun version => Avoids.modify)
  | some place =>
      exact Avoids.modify

/-- Following a link does not run out of fuel. -/
theorem followLink_avoids
    (current : TFSpecIterator)
    (link : TFSpecLink) :
    Avoids .stuck (followLink current link) := by
  unfold followLink
  refine Avoids.bind Avoids.gets (fun used => ?_)
  refine Avoids.bind (reserve_avoids _ _) (fun _ => ?_)
  exact Avoids.bind Avoids.modify (fun _ => Avoids.gets)

/-- Forking does not run out of fuel. -/
theorem forkIterators_avoids
    (current : TFSpecIterator)
    (others : Nat)
    (links : List TFSpecLink)
    (appended : List TFSpecIterator) :
    Avoids .stuck (forkIterators current others links appended) := by
  induction links generalizing appended with
  | nil =>
      exact Avoids.pure
  | cons link rest inductionHypothesis =>
      apply Avoids.ite
      · exact Avoids.bind Avoids.modify (fun _ => inductionHypothesis _)
      · exact Avoids.bind (followLink_avoids _ _)
          (fun forked => inductionHypothesis _)

/-- Settling a node does not run out of fuel. -/
theorem settleFor_avoids
    (goal : Option Nat)
    (current : TFSpecIterator) :
    Avoids .stuck (settleFor goal current) := by
  unfold settleFor
  exact Avoids.ite (unroll_avoids _) Avoids.pure

/-- A round does not run out of fuel. -/
theorem popRound_avoids
    (goal : Option Nat)
    (todo done appended : List TFSpecIterator) :
    Avoids .stuck (popRound goal todo done appended) := by
  induction todo generalizing done appended with
  | nil =>
      exact Avoids.pure
  | cons current todo inductionHypothesis =>
      rw [popRound_cons]
      refine Avoids.bind (settleFor_avoids _ _) (fun _ => ?_)
      unfold walkFrom
      refine Avoids.bind Avoids.gets (fun links => ?_)
      refine Avoids.bind Avoids.gets (fun ends => ?_)
      apply Avoids.ite
      · exact Avoids.bind (addSlice_avoids _)
          (fun _ => inductionHypothesis _ _)
      · cases links with
        | nil =>
            exact inductionHypothesis _ _
        | cons first further =>
            refine Avoids.bind (forkIterators_avoids _ _ _ _)
              (fun appended => ?_)
            exact Avoids.bind (followLink_avoids _ _)
              (fun moved => inductionHypothesis _ _)

/-- How far down the links of each node of a graph can lead. -/
structure Ranked (spec : TFSpec) (rank : Nat → Nat) : Prop where
  down :
    ∀ node link,
      link ∈ (spec.node node).links → rank link.node < rank node
  /-- What is still to be unrolled lies below every node. -/
  above : ∀ node < spec.nodes.length, spec.prefixLeft ≤ rank node

/-- Unrolling keeps a graph ranked; the new node comes lowest. -/
theorem Ranked.unrolls
    {before after : TFSpec}
    {rank : Nat → Nat}
    (ranked : Ranked before rank)
    (linked : before.Linked)
    (left : before.prefixLeft ≠ 0)
    (inRange : before.frontier < before.nodes.length)
    (unrolls : Unrolls before after) :
    ∃ rank', Ranked after rank' ∧
      ∀ node < before.nodes.length, rank' node = rank node := by
  let rank' : Nat → Nat := fun node =>
    if node < before.nodes.length then rank node
    else before.prefixLeft - 1
  have old : ∀ node < before.nodes.length, rank' node = rank node :=
    fun node within => if_pos within
  have new : rank' before.nodes.length = before.prefixLeft - 1 :=
    if_neg (Nat.lt_irrefl _)
  refine ⟨rank', ⟨?_, ?_⟩, old⟩
  · intro node link member
    by_cases within : node < before.nodes.length
    · rw [unrolls.links within] at member
      rw [old node within]
      split at member
      · rw [List.mem_singleton.mp member, new]
        have high := ranked.above node within
        omega
      · rw [old _ (linked.link member).1]
        exact ranked.down node link member
    · obtain ⟨bottom, noLinks, nodes⟩ := unrolls.nodes
      have nothing : (after.node node).links = [] := by
        by_cases last : node = before.nodes.length
        · unfold TFSpec.node
          have apart : before.frontier ≠ node := by omega
          rw [nodes, List.getD_eq_getElem?_getD, List.getElem?_modify]
          simp only [if_neg apart]
          rw [last]
          simpa using noLinks
        · refine links_of_not_lt ?_
          rw [unrolls.length]
          omega
      rw [nothing] at member
      cases member
  · intro node within
    rw [unrolls.length] at within
    rw [unrolls.prefixLeft]
    by_cases earlier : node < before.nodes.length
    · rw [old node earlier]
      exact Nat.le_trans (Nat.sub_le _ _) (ranked.above node earlier)
    · have last : node = before.nodes.length := by omega
      exact Nat.le_of_eq (by rw [last, new])

/-- Settling a node keeps a graph ranked. -/
theorem Ranked.settleFor
    {goal : Option Nat}
    {current : TFSpecIterator}
    {before after : TFSpecState}
    {rank : Nat → Nat}
    (ranked : Ranked before.spec rank)
    (linked : before.spec.Linked)
    (within : current.node < before.spec.nodes.length)
    (ran : TFSpec.settleFor goal current before = .ok ((), after)) :
    ∃ rank', Ranked after.spec rank' ∧
      ∀ node < before.spec.nodes.length, rank' node = rank node := by
  unfold TFSpec.settleFor unroll at ran
  split at ran
  · obtain ⟨atFrontier, _, asked, ran⟩ := Program.bind_eq_ok.mp ran
    cases asked
    split at ran
    · rename_i atFrontier
      simp only [Bool.and_eq_true, decide_eq_true_eq] at atFrontier
      obtain ⟨same, left⟩ := atFrontier
      rw [same] at within
      exact ranked.unrolls linked left within (extend_unrolls ran)
    · cases ran
      exact ⟨rank, ranked, fun _ _ => rfl⟩
  · cases ran
    exact ⟨rank, ranked, fun _ _ => rfl⟩

/-- The same nodes have the same ranks. -/
theorem Ranked.same
    {before after : TFSpec}
    {rank : Nat → Nat}
    (ranked : Ranked before rank)
    (nodes : after.nodes = before.nodes)
    (prefixLeft : after.prefixLeft = before.prefixLeft) :
    Ranked after rank := by
  refine ⟨?_, ?_⟩
  · unfold TFSpec.node
    rw [nodes]
    exact ranked.down
  · rw [nodes, prefixLeft]
    exact ranked.above

/-- Iterators at nodes of a graph below some height. -/
def Below
    (spec : TFSpec)
    (rank : Nat → Nat)
    (height : Nat)
    (iterators : List TFSpecIterator) : Prop :=
  ∀ iterator ∈ iterators,
    iterator.node < spec.nodes.length ∧ rank iterator.node < height

/-- Forks lead where links do, whether or not some are dropped. -/
theorem forkIterators_leads
    {current : TFSpecIterator}
    {others : Nat}
    {links : List TFSpecLink}
    {appended forked : List TFSpecIterator}
    {before after : TFSpecState}
    (ran :
      forkIterators current others links appended before =
        .ok (forked, after)) :
    (after.spec.nodes = before.spec.nodes ∧
        after.spec.prefixLeft = before.spec.prefixLeft ∧
        (before.spec.Linked → after.spec.Linked)) ∧
      ∀ iterator ∈ forked,
        iterator ∈ appended ∨
          ∃ link ∈ links, iterator.node = link.node := by
  induction links generalizing appended before with
  | nil =>
      cases ran
      exact ⟨⟨rfl, rfl, id⟩, fun iterator member => Or.inl member⟩
  | cons link rest inductionHypothesis =>
      unfold forkIterators at ran
      split at ran
      · obtain ⟨_, _, flagged, ran⟩ := Program.bind_eq_ok.mp ran
        cases flagged
        obtain ⟨⟨nodes, prefixLeft, keepsLinked⟩, leads⟩ :=
          inductionHypothesis ran
        refine ⟨⟨nodes, prefixLeft, fun linked =>
          keepsLinked ⟨linked.links, linked.heads⟩⟩, ?_⟩
        intro iterator member
        rcases leads iterator member with old | ⟨other, isOther, same⟩
        · exact Or.inl old
        · exact Or.inr ⟨other, List.mem_cons_of_mem _ isOther, same⟩
      · obtain ⟨moved, _, followed, ran⟩ := Program.bind_eq_ok.mp ran
        obtain ⟨rfl, same⟩ := followLink_eq_ok followed
        obtain ⟨⟨nodes, prefixLeft, keepsLinked⟩, leads⟩ :=
          inductionHypothesis ran
        refine ⟨⟨nodes.trans same.nodes, prefixLeft.trans same.prefixLeft,
          keepsLinked ∘ same.linked⟩, ?_⟩
        intro iterator member
        rcases leads iterator member with old | ⟨other, isOther, sameNode⟩
        · rcases List.mem_append.mp old with older | new
          · exact Or.inl older
          · rw [List.mem_singleton.mp new]
            exact Or.inr ⟨link, List.mem_cons_self .., rfl⟩
        · exact Or.inr ⟨other, List.mem_cons_of_mem _ isOther, sameNode⟩

/-- A round takes every iterator lower. -/
theorem popRound_descends
    {goal : Option Nat}
    {todo done appended next : List TFSpecIterator}
    {before after : TFSpecState}
    {rank : Nat → Nat}
    {height : Nat}
    (ran : popRound goal todo done appended before = .ok (next, after))
    (linked : before.spec.Linked)
    (ranked : Ranked before.spec rank)
    (todoBelow : Below before.spec rank (height + 1) todo)
    (restBelow : Below before.spec rank height (done ++ appended)) :
    ∃ rank', after.spec.Linked ∧ Ranked after.spec rank' ∧
      Below after.spec rank' height next := by
  induction todo generalizing done appended before rank with
  | nil =>
      cases ran
      exact ⟨rank, linked, ranked, restBelow⟩
  | cons current todo inductionHypothesis =>
      rw [popRound_cons] at ran
      obtain ⟨_, read, settled, ran⟩ := Program.bind_eq_ok.mp ran
      obtain ⟨within, high⟩ := todoBelow current (List.mem_cons_self ..)
      have reads := settleFor_reads settled within
      obtain ⟨rankRead, rankedRead, same⟩ :=
        ranked.settleFor linked within settled
      have linkedRead := reads.linked linked
      have kept :
          ∀ {height : Nat} {iterators : List TFSpecIterator},
            Below before.spec rank height iterators →
              Below read.spec rankRead height iterators := by
        intro height iterators below iterator member
        obtain ⟨inRange, low⟩ := below iterator member
        refine ⟨Nat.lt_of_lt_of_le inRange reads.grows.nodes, ?_⟩
        rw [same _ inRange]
        exact low
      have laterBelow : Below read.spec rankRead (height + 1) todo :=
        kept (fun iterator member =>
          todoBelow iterator (List.mem_cons_of_mem _ member))
      have restRead := kept restBelow
      unfold walkFrom at ran
      obtain ⟨links, _, asked, ran⟩ := Program.bind_eq_ok.mp ran
      simp only [asks, Program.gets_apply, Except.ok.injEq,
        Prod.mk.injEq] at asked
      obtain ⟨isLinks, rfl⟩ := asked
      obtain ⟨ends_, _, asked, ran⟩ := Program.bind_eq_ok.mp ran
      cases asked
      have unchanged :
          ∀ {spec : TFSpec} {height : Nat}
            {iterators : List TFSpecIterator},
            spec.nodes = read.spec.nodes →
              Below read.spec rankRead height iterators →
              Below spec rankRead height iterators := by
        intro spec height iterators nodes below iterator member
        rw [nodes]
        exact below iterator member
      split at ran
      · obtain ⟨_, recorded, added, ran⟩ := Program.bind_eq_ok.mp ran
        obtain ⟨sameNodes, keepsLinked⟩ := addSlice_sameNodes added
        exact inductionHypothesis ran
          (keepsLinked
            (Nat.lt_of_lt_of_le within reads.grows.nodes) linkedRead)
          (rankedRead.same sameNodes.nodes sameNodes.prefixLeft)
          (unchanged sameNodes.nodes laterBelow)
          (unchanged sameNodes.nodes restRead)
      · cases links with
        | nil =>
            exact inductionHypothesis ran linkedRead rankedRead laterBelow
              restRead
        | cons first further =>
            obtain ⟨forked, forkedState, forks, ran⟩ :=
              Program.bind_eq_ok.mp ran
            obtain ⟨moved, movedState, moves, ran⟩ :=
              Program.bind_eq_ok.mp ran
            obtain ⟨rfl, sameMoved⟩ := followLink_eq_ok moves
            obtain ⟨⟨nodes, prefixLeft, keepsLinked⟩, leads⟩ :=
              forkIterators_leads forks
            have sameNodes := sameMoved.nodes.trans nodes
            have linkBelow :
                ∀ link ∈ first :: further,
                  link.node < read.spec.nodes.length ∧
                    rankRead link.node < height := by
              intro link member
              rw [← isLinks] at member
              refine ⟨(linkedRead.link member).1, ?_⟩
              have lower := rankedRead.down _ link member
              rw [same _ within] at lower
              omega
            refine inductionHypothesis ran
              (sameMoved.linked (keepsLinked linkedRead))
              (rankedRead.same sameNodes
                (sameMoved.prefixLeft.trans prefixLeft))
              (unchanged sameNodes laterBelow)
              (unchanged sameNodes ?_)
            intro iterator member
            simp only [List.mem_append, List.mem_singleton] at member
            rcases member with (old | rfl) | new
            · exact restRead iterator (List.mem_append_left _ old)
            · exact linkBelow first (List.mem_cons_self ..)
            · rcases leads iterator new with old | ⟨link, isLink, node⟩
              · exact restRead iterator (List.mem_append_right _ old)
              · rw [node]
                exact linkBelow link (List.mem_cons_of_mem _ isLink)

/-- A graph whose links lead down. -/
def Acyclic (spec : TFSpec) : Prop :=
  ∃ rank : Nat → Nat,
    ∀ node link,
      link ∈ (spec.node node).links → rank link.node < rank node

/-- An acyclic graph is ranked, with the stack that is left below it. -/
theorem Acyclic.ranked
    {spec : TFSpec}
    (acyclic : spec.Acyclic) :
    ∃ rank, Ranked spec rank := by
  obtain ⟨rank, down⟩ := acyclic
  refine ⟨fun node => rank node + spec.prefixLeft, ?_, ?_⟩
  · intro node link member
    have lower := down node link member
    omega
  · intro node _
    omega

/-- A walk whose iterators stand below some height. -/
def Walking
    (height : Nat)
    (iterators : List TFSpecIterator)
    (state : TFSpecState) : Prop :=
  state.spec.Linked ∧
    ∃ rank, Ranked state.spec rank ∧ Below state.spec rank height iterators

/-- The breadth-first walk ends with fuel for the height it starts from. -/
theorem popTurns_ends
    {goal : Option Nat}
    {iterators : List TFSpecIterator}
    {before : TFSpecState}
    {height fuel : Nat}
    (walking : Walking height iterators before)
    (enough : height < fuel) :
    Program.iterate .stuck (popTurn goal) fuel iterators before ≠
      .error .stuck := by
  have avoids : ∀ iterators, Avoids .stuck (popTurn goal iterators) := by
    intro iterators
    cases iterators with
    | nil =>
        exact Avoids.pure
    | cons first rest =>
        exact Avoids.bind (popRound_avoids _ _ _ _)
          (fun next => Avoids.pure)
  have turn :
      ∀ height iterators state next after,
        Walking height iterators state →
          popTurn goal iterators state = .ok (.inl next, after) →
          ∃ lower < height, Walking lower next after := by
    rintro height iterators state next after ⟨linked, rank, ranked, below⟩
      turned
    cases iterators with
    | nil =>
        cases turned
    | cons first rest =>
        obtain ⟨found, _, rounded, ended⟩ := Program.bind_eq_ok.mp turned
        cases ended
        have low := (below first (List.mem_cons_self ..)).2
        obtain ⟨lower, rfl⟩ : ∃ lower, height = lower + 1 :=
          ⟨height - 1, by omega⟩
        obtain ⟨rank', linkedAfter, rankedAfter, belowAfter⟩ :=
          popRound_descends rounded linked ranked below
            (fun iterator member => by cases member)
        exact ⟨lower, Nat.lt_succ_self _, linkedAfter, rank', rankedAfter,
          belowAfter⟩
  exact Avoids.iterate avoids turn walking enough

/-- The walk down a chain ends with fuel for the height it starts from. -/
theorem chainTurns_ends
    {goal : Option Nat}
    {current : TFSpecIterator}
    {before : TFSpecState}
    {height fuel : Nat}
    (walking : Walking height [current] before)
    (enough : height < fuel) :
    Program.iterate .stuck (chainTurn goal) fuel current before ≠
      .error .stuck := by
  have follows : ∀ current, Avoids .stuck (chainOn current) := by
    intro current
    unfold chainOn
    refine Avoids.bind Avoids.gets (fun links => ?_)
    split
    · exact Avoids.bind Avoids.gets (fun next => Avoids.pure)
    · exact Avoids.pure
  have avoids : ∀ current, Avoids .stuck (chainTurn goal current) := by
    intro current
    unfold chainTurn
    refine Avoids.bind Avoids.gets (fun ends => ?_)
    apply Avoids.ite
    · refine Avoids.bind (reserveSlice_avoids _ _) (fun _ => ?_)
      refine Avoids.bind (newHead_avoids _) (fun head => ?_)
      exact Avoids.bind Avoids.modify (fun _ => Avoids.pure)
    · exact Avoids.ite
        (Avoids.bind (unroll_avoids _) (fun _ => follows current))
        (follows current)
  have turn :
      ∀ height current state next after,
        Walking height [current] state →
          chainTurn goal current state = .ok (.inl next, after) →
          ∃ lower < height, Walking lower [next] after := by
    rintro height current state next after ⟨linked, rank, ranked, below⟩
      turned
    obtain ⟨within, low⟩ := below current (List.mem_singleton_self _)
    cases goes : state.spec.popEnds goal current.node current.count with
    | true =>
        unfold chainTurn at turned
        rw [Program.bind_of_ok
          (show asks _ state = .ok (_, state) from rfl),
          if_pos goes] at turned
        obtain ⟨_, _, _, turned⟩ := Program.bind_eq_ok.mp turned
        obtain ⟨_, _, _, turned⟩ := Program.bind_eq_ok.mp turned
        obtain ⟨_, _, _, turned⟩ := Program.bind_eq_ok.mp turned
        cases turned
    | false =>
        rw [chainTurn_goes goes] at turned
        obtain ⟨_, read, settled, turned⟩ := Program.bind_eq_ok.mp turned
        have reads := settleFor_reads settled within
        obtain ⟨rankRead, rankedRead, same⟩ :=
          ranked.settleFor linked within settled
        unfold chainOn at turned
        obtain ⟨links, _, asked, turned⟩ := Program.bind_eq_ok.mp turned
        simp only [asks, Program.gets_apply, Except.ok.injEq,
          Prod.mk.injEq] at asked
        obtain ⟨isLinks, rfl⟩ := asked
        split at turned
        · rename_i link
          obtain ⟨moved, _, asked, turned⟩ := Program.bind_eq_ok.mp turned
          cases asked
          obtain ⟨isNext, sameState⟩ :=
            Prod.mk.inj (Except.ok.inj turned)
          cases isNext
          subst sameState
          have isLink : link ∈ (read.spec.node current.node).links := by
            rw [isLinks]
            exact List.mem_singleton_self _
          have lower := rankedRead.down _ link isLink
          rw [same _ within] at lower
          refine ⟨rank current.node, low, reads.linked linked, rankRead,
            rankedRead, ?_⟩
          intro iterator member
          rw [List.mem_singleton.mp member]
          exact ⟨((reads.linked linked).link isLink).1, lower⟩
        · cases turned
  exact Avoids.iterate avoids turn walking enough

/-- A walk down a chain that meets a fork leaves the graph ranked. -/
theorem chainTurns_ranked
    {goal : Option Nat}
    {current : TFSpecIterator}
    {before after : TFSpecState}
    {rank : Nat → Nat}
    {fuel : Nat}
    (ran :
      Program.iterate .stuck (chainTurn goal) fuel current before =
        .ok (false, after))
    (linked : before.spec.Linked)
    (ranked : Ranked before.spec rank)
    (within : current.node < before.spec.nodes.length) :
    ∃ rank', Ranked after.spec rank' ∧
      ∀ node < before.spec.nodes.length, rank' node = rank node := by
  induction fuel generalizing current before rank with
  | zero =>
      cases ran
  | succ fuel inductionHypothesis =>
      obtain ⟨outcome, turnedState, turned, ran⟩ :=
        Program.bind_eq_ok.mp ran
      cases goes : before.spec.popEnds goal current.node current.count with
      | true =>
          unfold chainTurn at turned
          rw [Program.bind_of_ok
            (show asks _ before = .ok (_, before) from rfl),
            if_pos goes] at turned
          obtain ⟨_, _, _, turned⟩ := Program.bind_eq_ok.mp turned
          obtain ⟨_, _, _, turned⟩ := Program.bind_eq_ok.mp turned
          obtain ⟨_, _, _, turned⟩ := Program.bind_eq_ok.mp turned
          cases turned
          cases ran
      | false =>
          rw [chainTurn_goes goes] at turned
          obtain ⟨_, read, settled, turned⟩ := Program.bind_eq_ok.mp turned
          have reads := settleFor_reads settled within
          obtain ⟨rankRead, rankedRead, same⟩ :=
            ranked.settleFor linked within settled
          unfold chainOn at turned
          obtain ⟨links, _, asked, turned⟩ := Program.bind_eq_ok.mp turned
          simp only [asks, Program.gets_apply, Except.ok.injEq,
            Prod.mk.injEq] at asked
          obtain ⟨isLinks, rfl⟩ := asked
          split at turned
          · rename_i link
            obtain ⟨moved, _, asked, turned⟩ := Program.bind_eq_ok.mp turned
            cases asked
            obtain ⟨isNext, sameState⟩ :=
              Prod.mk.inj (Except.ok.inj turned)
            subst isNext sameState
            have isLink : link ∈ (read.spec.node current.node).links := by
              rw [isLinks]
              exact List.mem_singleton_self _
            obtain ⟨rankAfter, rankedAfter, sameAfter⟩ :=
              inductionHypothesis ran (reads.linked linked) rankedRead
                ((reads.linked linked).link isLink).1
            refine ⟨rankAfter, rankedAfter, ?_⟩
            intro node inRange
            rw [sameAfter node
              (Nat.lt_of_lt_of_le inRange reads.grows.nodes)]
            exact same node inRange
          · obtain ⟨isNext, sameState⟩ :=
              Prod.mk.inj (Except.ok.inj turned)
            subst isNext sameState
            cases ran
            exact ⟨rankRead, rankedRead, same⟩

/-- A head of the graph stands at one of its nodes. -/
theorem Linked.head
    {spec : TFSpec}
    (linked : spec.Linked)
    {version : Nat}
    (inRange : version < spec.heads.length) :
    (spec.head version).node < spec.nodes.length := by
  unfold TFSpec.head
  rw [List.getD_eq_getElem _ _ inRange]
  exact linked.heads _ (List.getElem_mem inRange)

/-- With fuel for its height, a pop of an acyclic graph is never stuck. -/
theorem pop_ends
    {goal : Option Nat}
    {version : Nat}
    {before : TFSpecState}
    (linked : before.spec.Linked)
    (acyclic : before.spec.Acyclic)
    (inRange : version < before.spec.heads.length) :
    ∃ height, ∀ fuel, height < fuel →
      pop fuel version goal before ≠ .error .stuck := by
  obtain ⟨rank, ranked⟩ := acyclic.ranked
  have within := linked.head inRange
  refine ⟨rank (before.spec.head version).node + 1, ?_⟩
  intro fuel enough stopped
  let start : TFSpecState :=
    { before with
      spec := { before.spec with slices := [], edgeCount := 0 } }
  have linkedStart : start.spec.Linked := ⟨linked.links, linked.heads⟩
  have rankedStart : Ranked start.spec rank :=
    ⟨ranked.down, ranked.above⟩
  unfold pop at stopped
  rw [Program.bind_of_ok (show update _ before = .ok ((), start) from rfl),
    popChain_eq] at stopped
  cases chained :
      Program.iterate .stuck (chainTurn goal) fuel
        ⟨(before.spec.head version).node, 0, []⟩ start with
  | error other =>
      have run :
          (asks (fun s => s.head version) >>= fun head =>
            Program.iterate .stuck (chainTurn goal) fuel
              ⟨head.node, 0, []⟩) start = .error other := by
        rw [Program.bind_of_ok
          (show asks _ start = .ok (before.spec.head version, start)
            from rfl)]
        exact chained
      rw [Program.bind_of_error run] at stopped
      cases stopped
      refine chainTurns_ends ?_ enough chained
      refine ⟨linkedStart, rank, rankedStart, ?_⟩
      intro iterator member
      rw [List.mem_singleton.mp member]
      exact ⟨within, Nat.lt_succ_self _⟩
  | ok pair =>
      obtain ⟨answer, after⟩ := pair
      have run :
          (asks (fun s => s.head version) >>= fun head =>
            Program.iterate .stuck (chainTurn goal) fuel
              ⟨head.node, 0, []⟩) start = .ok (answer, after) := by
        rw [Program.bind_of_ok
          (show asks _ start = .ok (before.spec.head version, start)
            from rfl)]
        exact chained
      rw [Program.bind_of_ok run] at stopped
      cases answer with
      | true =>
          cases stopped
      | false =>
          rw [if_neg Bool.false_ne_true, popPaths_eq,
            Program.bind_of_ok
              (show asks _ after = .ok (after.spec.head version, after)
                from rfl)] at stopped
          have spec := chainTurns_spec chained linkedStart within
          obtain ⟨rankAfter, rankedAfter, same⟩ :=
            chainTurns_ranked chained linkedStart rankedStart within
          have sameHead :
              after.spec.head version = before.spec.head version := by
            unfold TFSpec.head
            rw [(spec.forked rfl).1]
          refine popTurns_ends ?_ enough stopped
          refine ⟨spec.linked, rankAfter, rankedAfter, ?_⟩
          intro iterator member
          rw [List.mem_singleton.mp member, sameHead]
          refine ⟨Nat.lt_of_lt_of_le within spec.nodes, ?_⟩
          rw [same _ within]
          exact Nat.lt_succ_self _

end TFSpec

end TreeFeller
