import TreeFeller.PopEnds

namespace TreeFeller

open StatefulProgram

/-!
# The fast path of a pop

Where the walk down from a head meets no fork, the breadth-first walk has one
iterator all along.  It takes the same turns as the walk down the chain and
leaves the same graph, but for the edges it accounts for.
-/

namespace TFSpec

open Program BreadthFirst

/-- A graph without the accounts in which the two walks differ. -/
def bare (self : TFSpec) : TFSpec :=
  { self with capacity := fun _ => 0, edgeCount := 0 }

/-- Unrolling does not look at the accounts. -/
theorem bare_unrolled (self : TFSpec) :
    self.unrolled.bare = self.bare.unrolled.bare := by
  unfold unrolled bare
  dsimp only
  split <;> rfl

section Alike

variable {first second : TFSpec}

/-- Graphs that agree but for the accounts agree on their nodes. -/
theorem nodes_of_bare
    (alike : first.bare = second.bare) :
    first.nodes = second.nodes :=
  show first.bare.nodes = second.bare.nodes from
    congrArg TFSpec.nodes alike

/-- Graphs that agree but for the accounts agree on their trees. -/
theorem trees_of_bare
    (alike : first.bare = second.bare) :
    first.trees = second.trees :=
  show first.bare.trees = second.bare.trees from
    congrArg TFSpec.trees alike

/-- Graphs that agree but for the accounts agree on their heads. -/
theorem heads_of_bare
    (alike : first.bare = second.bare) :
    first.heads = second.heads :=
  show first.bare.heads = second.bare.heads from
    congrArg TFSpec.heads alike

/-- Graphs that agree but for the accounts end a walk alike. -/
theorem popEnds_of_bare
    {goal : Option Nat}
    {node count : Nat}
    (alike : first.bare = second.bare) :
    first.popEnds goal node count = second.popEnds goal node count := by
  unfold popEnds TFSpec.node
  rw [nodes_of_bare alike]

/-- Graphs that agree but for the accounts step over links alike. -/
theorem stepIterator_of_bare
    (alike : first.bare = second.bare) :
    first.stepIterator = second.stepIterator := by
  unfold TFSpec.stepIterator TFSpec.tree
  rw [trees_of_bare alike]

/-- Graphs that agree but for the accounts unroll alike. -/
theorem unrolled_of_bare
    (alike : first.bare = second.bare) :
    first.unrolled.bare = second.unrolled.bare := by
  rw [bare_unrolled, alike, ← bare_unrolled]

end Alike

/-- Settling a node unrolls at the frontier, and does nothing elsewhere. -/
theorem settleFor_eq_ok
    {goal : Option Nat}
    {current : TFSpecIterator}
    {before after : TFSpecState}
    (ran : settleFor goal current before = .ok ((), after)) :
    after.spec.bare =
      if goal.isSome && goal != some current.count &&
          (decide (current.node = before.spec.frontier) &&
            decide (before.spec.prefixLeft ≠ 0)) then
        before.spec.unrolled.bare
      else
        before.spec.bare := by
  unfold settleFor unroll at ran
  split at ran
  · rename_i reads
    obtain ⟨atFrontier, _, asked, ran⟩ := Program.bind_eq_ok.mp ran
    simp only [asks, Program.gets_apply, Except.ok.injEq,
      Prod.mk.injEq] at asked
    obtain ⟨isThere, rfl⟩ := asked
    rw [reads, Bool.true_and, isThere]
    split at ran
    · rename_i there
      obtain ⟨capacity, heap, rfl⟩ := extend_eq_ok ran
      rw [if_pos there]
      rfl
    · rename_i elsewhere
      cases ran
      rw [if_neg elsewhere]
  · rename_i stays
    cases ran
    rw [if_neg]
    simp only [Bool.not_eq_true] at stays
    simp [stays]

/-- Graphs that agree but for the accounts settle alike. -/
theorem settleFor_alike
    {goal : Option Nat}
    {current : TFSpecIterator}
    {first second first' second' : TFSpecState}
    (alike : first.spec.bare = second.spec.bare)
    (ran : settleFor goal current first = .ok ((), first'))
    (ran' : settleFor goal current second = .ok ((), second')) :
    first'.spec.bare = second'.spec.bare := by
  have frontier : first.spec.frontier = second.spec.frontier :=
    show first.spec.bare.frontier = second.spec.bare.frontier from
      congrArg TFSpec.frontier alike
  have left : first.spec.prefixLeft = second.spec.prefixLeft :=
    show first.spec.bare.prefixLeft = second.spec.bare.prefixLeft from
      congrArg TFSpec.prefixLeft alike
  rw [settleFor_eq_ok ran, settleFor_eq_ok ran', frontier, left, alike,
    unrolled_of_bare alike]

/-- Taking room for a slice. -/
theorem reserveSlice_eq_ok
    {length slices : Nat}
    {before after : TFSpecState}
    (ran : reserveSlice length slices before = .ok ((), after)) :
    ∃ capacity heap,
      after =
        { before with
          spec := { before.spec with
            childCount := before.spec.childCount + length
            capacity := capacity }
          heap := heap } := by
  unfold reserveSlice at ran
  obtain ⟨used, _, asked, ran⟩ := Program.bind_eq_ok.mp ran
  cases asked
  obtain ⟨_, _, room, ran⟩ := Program.bind_eq_ok.mp ran
  obtain ⟨capacity, heap, rfl⟩ := reserve_eq_ok room
  obtain ⟨_, _, room, ran⟩ := Program.bind_eq_ok.mp ran
  obtain ⟨capacity, heap, rfl⟩ := reserve_eq_ok room
  cases ran
  exact ⟨capacity, heap, rfl⟩

/-- The first path is recorded in the only slot. -/
theorem addSlice_first
    {current : TFSpecIterator}
    {before after : TFSpecState}
    (ran : addSlice current before = .ok ((), after))
    (slices : before.spec.slices = []) :
    ∃ capacity heap,
      after =
        { before with
          spec := { before.spec with
            childCount := before.spec.childCount + current.path.length
            heads := before.spec.heads ++ [⟨current.node, false, false⟩]
            slices := [⟨before.spec.heads.length, current.path⟩]
            capacity := capacity }
          heap := heap } := by
  unfold addSlice at ran
  obtain ⟨count, _, asked, ran⟩ := Program.bind_eq_ok.mp ran
  cases asked
  obtain ⟨_, _, room, ran⟩ := Program.bind_eq_ok.mp ran
  obtain ⟨capacity, heap, rfl⟩ := reserveSlice_eq_ok room
  obtain ⟨found, roomy, asked, ran⟩ := Program.bind_eq_ok.mp ran
  simp only [asks, Program.gets_apply, Except.ok.injEq,
    Prod.mk.injEq] at asked
  obtain ⟨found, rfl⟩ := asked
  simp only [sliceSlot, slices, List.reverse_nil, List.findIdx?_nil]
    at found
  subst found
  obtain ⟨version, _, made, ran⟩ := Program.bind_eq_ok.mp ran
  obtain ⟨capacity, heap, rfl, rfl⟩ := newHead_eq_ok made
  cases ran
  refine ⟨capacity, heap, ?_⟩
  simp [slices]

/-- What the walk down a chain records at its end. -/
theorem chainTurn_ends
    {goal : Option Nat}
    {current : TFSpecIterator}
    {before after : TFSpecState}
    {outcome : TFSpecIterator ⊕ Bool}
    (ends : before.spec.popEnds goal current.node current.count = true)
    (ran : chainTurn goal current before = .ok (outcome, after)) :
    outcome = .inr true ∧
      ∃ capacity heap,
        after =
          { before with
            spec := { before.spec with
              childCount := before.spec.childCount + current.path.length
              heads := before.spec.heads ++ [⟨current.node, false, false⟩]
              slices := [⟨before.spec.heads.length, current.path⟩]
              capacity := capacity }
            heap := heap } := by
  unfold chainTurn at ran
  rw [Program.bind_of_ok (show asks _ before = .ok (_, before) from rfl),
    if_pos ends] at ran
  obtain ⟨_, _, room, ran⟩ := Program.bind_eq_ok.mp ran
  obtain ⟨capacity, heap, rfl⟩ := reserveSlice_eq_ok room
  obtain ⟨head, _, made, ran⟩ := Program.bind_eq_ok.mp ran
  obtain ⟨capacity, heap, rfl, rfl⟩ := newHead_eq_ok made
  obtain ⟨_, _, recorded, ran⟩ := Program.bind_eq_ok.mp ran
  cases recorded
  cases ran
  exact ⟨rfl, capacity, heap, rfl⟩

/-- What the breadth-first walk records for a lone iterator at its end. -/
theorem popTurn_ends
    {goal : Option Nat}
    {fuel : Nat}
    {current : TFSpecIterator}
    {before after : TFSpecState}
    (ends : before.spec.popEnds goal current.node current.count = true)
    (slices : before.spec.slices = [])
    (settles : settleFor goal current before = .ok ((), before))
    (ran :
      Program.iterate .stuck (popTurn goal) fuel [current] before =
        .ok ((), after)) :
    ∃ capacity heap,
      after =
        { before with
          spec := { before.spec with
            childCount := before.spec.childCount + current.path.length
            heads := before.spec.heads ++ [⟨current.node, false, false⟩]
            slices := [⟨before.spec.heads.length, current.path⟩]
            capacity := capacity }
          heap := heap } := by
  cases fuel with
  | zero =>
      cases ran
  | succ fuel =>
      obtain ⟨_, _, walks, ran⟩ := Program.bind_eq_ok.mp ran
      obtain ⟨next, _, rounded, ended⟩ := Program.bind_eq_ok.mp walks
      cases ended
      rw [popRound_cons, Program.bind_of_ok settles] at rounded
      unfold walkFrom at rounded
      obtain ⟨links, _, asked, rounded⟩ := Program.bind_eq_ok.mp rounded
      simp only [asks, Program.gets_apply, Except.ok.injEq,
        Prod.mk.injEq] at asked
      obtain ⟨_, rfl⟩ := asked
      rw [Program.bind_of_ok
        (show asks _ before = .ok (_, before) from rfl),
        if_pos ends] at rounded
      obtain ⟨_, recorded, added, rounded⟩ := Program.bind_eq_ok.mp rounded
      have isRecorded := addSlice_first added slices
      cases rounded
      cases fuel with
      | zero =>
          cases ran
      | succ fuel =>
          cases ran
          exact isRecorded

/-- Where the walk down a chain goes on, over the only link. -/
theorem chainOn_goes
    {current next : TFSpecIterator}
    {before after : TFSpecState}
    (ran : chainOn current before = .ok (.inl next, after)) :
    after = before ∧
      ∃ link,
        (before.spec.node current.node).links = [link] ∧
          next = before.spec.stepIterator current link := by
  unfold chainOn at ran
  obtain ⟨links, _, asked, ran⟩ := Program.bind_eq_ok.mp ran
  simp only [asks, Program.gets_apply, Except.ok.injEq,
    Prod.mk.injEq] at asked
  obtain ⟨isLinks, rfl⟩ := asked
  split at ran
  · rename_i link
    cases ran
    exact ⟨rfl, link, isLinks, rfl⟩
  · cases ran

/-- A lone iterator at a node with one link moves over it. -/
theorem walkFrom_only
    {goal : Option Nat}
    {current : TFSpecIterator}
    {link : TFSpecLink}
    {next : List TFSpecIterator}
    {before after : TFSpecState}
    (goes : before.spec.popEnds goal current.node current.count = false)
    (links : (before.spec.node current.node).links = [link])
    (ran : walkFrom goal current [] [] [] before = .ok (next, after)) :
    next = [before.spec.stepIterator current link] ∧
      after.spec.bare = before.spec.bare ∧
      after.spec.slices = before.spec.slices := by
  unfold walkFrom at ran
  obtain ⟨found, _, asked, ran⟩ := Program.bind_eq_ok.mp ran
  simp only [asks, Program.gets_apply, Except.ok.injEq,
    Prod.mk.injEq] at asked
  obtain ⟨isLinks, rfl⟩ := asked
  rw [links] at isLinks
  subst isLinks
  rw [Program.bind_of_ok (show asks _ before = .ok (_, before) from rfl),
    if_neg (by simp [goes])] at ran
  obtain ⟨forked, _, forks, ran⟩ := Program.bind_eq_ok.mp ran
  cases forks
  obtain ⟨moved, _, moves, ran⟩ := Program.bind_eq_ok.mp ran
  unfold followLink at moves
  obtain ⟨used, _, asked, moves⟩ := Program.bind_eq_ok.mp moves
  simp only [asks, Program.gets_apply, Except.ok.injEq,
    Prod.mk.injEq] at asked
  obtain ⟨_, rfl⟩ := asked
  obtain ⟨_, _, room, moves⟩ := Program.bind_eq_ok.mp moves
  obtain ⟨capacity, heap, rfl⟩ := reserve_eq_ok room
  obtain ⟨_, _, counted, moves⟩ := Program.bind_eq_ok.mp moves
  cases counted
  cases moves
  cases ran
  exact ⟨rfl, rfl, rfl⟩

/-- A walk for no more trees reads no links, so it unrolls nothing. -/
theorem settleFor_ends
    {goal : Option Nat}
    {current : TFSpecIterator}
    {before : TFSpecState}
    (ends : before.spec.popEnds goal current.node current.count = true) :
    settleFor goal current before = .ok ((), before) := by
  unfold settleFor
  cases goal with
  | none =>
      rfl
  | some goal =>
      simp only [popEnds, decide_eq_true_eq] at ends
      rw [if_neg (by simp [ends])]
      rfl

/-- Settling a node that a walk passes through does not end the walk. -/
theorem settleFor_goes
    {goal : Option Nat}
    {current : TFSpecIterator}
    {before after : TFSpecState}
    (goes : before.spec.popEnds goal current.node current.count = false)
    (ran : settleFor goal current before = .ok ((), after)) :
    after.spec.popEnds goal current.node current.count = false := by
  rw [← goes]
  cases goal with
  | none =>
      cases ran
      rfl
  | some goal =>
      rfl

/-- Settling a node touches no slices. -/
theorem settleFor_slices
    {goal : Option Nat}
    {current : TFSpecIterator}
    {before after : TFSpecState}
    (ran : settleFor goal current before = .ok ((), after)) :
    after.spec.slices = before.spec.slices := by
  unfold settleFor unroll at ran
  split at ran
  · obtain ⟨_, _, asked, ran⟩ := Program.bind_eq_ok.mp ran
    cases asked
    split at ran
    · exact (extend_unrolls ran).slices
    · cases ran
      rfl
  · cases ran
    rfl

/-- Recording the same slice keeps graphs alike but for the accounts. -/
theorem recorded_of_bare
    {first second : TFSpec}
    {current : TFSpecIterator}
    {capacity capacity' : TFSpecArena → Nat}
    (alike : first.bare = second.bare) :
    TFSpec.bare { first with
        childCount := first.childCount + current.path.length
        heads := first.heads ++ [⟨current.node, false, false⟩]
        slices := [⟨first.heads.length, current.path⟩]
        capacity := capacity } =
      TFSpec.bare { second with
        childCount := second.childCount + current.path.length
        heads := second.heads ++ [⟨current.node, false, false⟩]
        slices := [⟨second.heads.length, current.path⟩]
        capacity := capacity' } := by
  have count : first.childCount = second.childCount :=
    show first.bare.childCount = second.bare.childCount from
      congrArg TFSpec.childCount alike
  rw [heads_of_bare alike, count]
  exact congrArg
    (fun spec : TFSpec =>
      { spec with
        childCount := second.childCount + current.path.length
        heads := second.heads ++ [TFSpecHead.mk current.node false false]
        slices := [TFSpecSlice.mk second.heads.length current.path] })
    alike

/-- A walk down a chain that gives up stands where there is not one link. -/
theorem chainOn_stops
    {current : TFSpecIterator}
    {answer : Bool}
    {before after : TFSpecState}
    (ran : chainOn current before = .ok (.inr answer, after)) :
    after = before ∧ answer = false ∧
      ∀ link, (before.spec.node current.node).links ≠ [link] := by
  unfold chainOn at ran
  obtain ⟨links, _, asked, ran⟩ := Program.bind_eq_ok.mp ran
  simp only [asks, Program.gets_apply, Except.ok.injEq,
    Prod.mk.injEq] at asked
  obtain ⟨isLinks, rfl⟩ := asked
  split at ran
  · cases ran
  · rename_i several
    cases ran
    refine ⟨rfl, rfl, ?_⟩
    intro link single
    exact several link (isLinks.symm.trans single)

/-- A lone iterator at a node without links is dropped, and the walk ends. -/
theorem popTurns_dropped
    {goal : Option Nat}
    {fuel : Nat}
    {current : TFSpecIterator}
    {next : List TFSpecIterator}
    {before rounded after : TFSpecState}
    (goes : before.spec.popEnds goal current.node current.count = false)
    (links : (before.spec.node current.node).links = [])
    (round : walkFrom goal current [] [] [] before = .ok (next, rounded))
    (ran :
      Program.iterate .stuck (popTurn goal) fuel next rounded =
        .ok ((), after)) :
    after = before := by
  unfold walkFrom at round
  obtain ⟨found, _, asked, round⟩ := Program.bind_eq_ok.mp round
  simp only [asks, Program.gets_apply, Except.ok.injEq,
    Prod.mk.injEq] at asked
  obtain ⟨isLinks, rfl⟩ := asked
  rw [links] at isLinks
  subst isLinks
  rw [Program.bind_of_ok (show asks _ before = .ok (_, before) from rfl),
    if_neg (by simp [goes])] at round
  cases round
  cases fuel with
  | zero =>
      cases ran
  | succ fuel =>
      cases ran
      rfl

section Search

variable {goal : Option Nat}
variable {base : TFSpec}
variable {start : Nat}
variable {path : List Hop}

/-- A lone link leads to the path with one step more. -/
theorem onward_only
    {spec : TFSpec}
    {link : TFSpecLink}
    (linked : spec.Linked)
    (hops : base.steps goal start path = spec.linkHops (endOf start path))
    (links : (spec.node (endOf start path)).links = [link]) :
    ∃ next,
      onward (base.steps goal start) path = [next] ∧
        iteratorOf start next =
          spec.stepIterator (iteratorOf start path) link ∧
        endOf start next < spec.nodes.length := by
  have onwards :
      (onward (base.steps goal start) path).map (iteratorOf start) =
        [spec.stepIterator (iteratorOf start path) link] := by
    rw [onward_iterators hops, links]
    rfl
  obtain ⟨next, isOnward, isNext⟩ := List.map_eq_singleton_iff.mp onwards
  have isEnd : endOf start next = link.node :=
    congrArg TFSpecIterator.node isNext
  have isLink : link ∈ (spec.node (endOf start path)).links := by
    rw [links]
    exact List.mem_singleton_self _
  refine ⟨next, isOnward, isNext, ?_⟩
  rw [isEnd]
  exact (linked.link isLink).1

/-- The walk down a chain records the one path there is. -/
theorem chainTurns_paths
    {fuel n : Nat}
    {answer : Bool}
    {before after : TFSpecState}
    (ran :
      Program.iterate .stuck (chainTurn goal) fuel (iteratorOf start path)
          before =
        .ok (answer, after))
    (unwound : Unwound goal base before.spec)
    (linked : before.spec.Linked)
    (within : endOf start path < before.spec.nodes.length)
    (only : layers (base.steps goal start) n = [path])
    (none_ :
      found (base.steps goal start) (base.arrived goal start) n = []) :
    Unwound goal base after.spec ∧
      (answer = true →
        ∃ m,
          layers (base.steps goal start) m = [] ∧
            after.spec.slicePaths =
              (found (base.steps goal start) (base.arrived goal start)
                m).map (entryOf start)) := by
  induction fuel generalizing path n before with
  | zero =>
      cases ran
  | succ fuel inductionHypothesis =>
      obtain ⟨outcome, turnedState, turned, ran⟩ :=
        Program.bind_eq_ok.mp ran
      have isEnd :=
        (popEnds_iteratorOf before.spec start path).trans
          (unwound.arrived start path)
      cases ends : base.arrived goal start path with
      | true =>
          rw [ends] at isEnd
          obtain ⟨rfl, capacity, heap, isTurned⟩ :=
            chainTurn_ends isEnd turned
          cases ran
          have same : Unwound goal before.spec after.spec :=
            .of_ground (by rw [isTurned]; rfl)
          refine ⟨same.trans unwound, fun _ => ?_⟩
          subst isTurned
          refine ⟨n + 1, layers_last only (by rw [steps, if_pos ends]), ?_⟩
          rw [found_succ, none_, only, List.filter_cons_of_pos ends]
          simp [slicePaths, TFSpec.head, entryOf, iteratorOf]
      | false =>
          rw [ends] at isEnd
          rw [chainTurn_goes isEnd] at turned
          obtain ⟨_, read, settled, turned⟩ := Program.bind_eq_ok.mp turned
          obtain ⟨unwoundRead, hops⟩ :=
            steps_settled settled unwound linked within ends
          have linkedRead := (settleFor_reads settled within).linked linked
          cases outcome with
          | inr answer =>
              obtain ⟨rfl, rfl, _⟩ := chainOn_stops turned
              cases ran
              refine ⟨unwoundRead, fun reached => ?_⟩
              cases reached
          | inl onward =>
              obtain ⟨rfl, link, links, rfl⟩ := chainOn_goes turned
              obtain ⟨next, isOnward, isNext, nextWithin⟩ :=
                onward_only linkedRead hops links
              rw [← isNext] at ran
              refine inductionHypothesis ran unwoundRead linkedRead
                nextWithin (layers_only only isOnward) ?_
              rw [found_succ, none_, only,
                List.filter_cons_of_neg (by simp [ends])]
              rfl

/-- Where no fork is met both walks leave the same graph, heads and slices. -/
theorem chainTurns_popTurns
    {fuel fuel' : Nat}
    {answer : Bool}
    {first second first' second' : TFSpecState}
    (chained :
      Program.iterate .stuck (chainTurn goal) fuel (iteratorOf start path)
          first =
        .ok (answer, first'))
    (walked :
      Program.iterate .stuck (popTurn goal) fuel' [iteratorOf start path]
          second =
        .ok ((), second'))
    (alike : first.spec.bare = second.spec.bare)
    (slices : second.spec.slices = [])
    (unwound : Unwound goal base first.spec)
    (linked : first.spec.Linked)
    (within : endOf start path < first.spec.nodes.length)
    (follows : Follows (base.steps goal start) path)
    (unforked : Unforked (base.steps goal start)) :
    first'.spec.bare = second'.spec.bare := by
  induction fuel generalizing path first second fuel' with
  | zero =>
      cases chained
  | succ fuel inductionHypothesis =>
      obtain ⟨outcome, turnedState, turned, chained⟩ :=
        Program.bind_eq_ok.mp chained
      have isEnd :=
        (popEnds_iteratorOf first.spec start path).trans
          (unwound.arrived start path)
      have isEnd' :
          second.spec.popEnds goal (endOf start path)
              (structuralCount path) =
            base.arrived goal start path :=
        (popEnds_of_bare alike).symm.trans isEnd
      cases ends : base.arrived goal start path with
      | true =>
          rw [ends] at isEnd isEnd'
          obtain ⟨rfl, capacity, heap, isTurned⟩ :=
            chainTurn_ends isEnd turned
          cases chained
          obtain ⟨capacity', heap', isWalked⟩ :=
            popTurn_ends isEnd' slices (settleFor_ends isEnd') walked
          rw [isTurned, isWalked]
          exact recorded_of_bare alike
      | false =>
          rw [ends] at isEnd isEnd'
          cases fuel' with
          | zero =>
              cases walked
          | succ fuel' =>
              obtain ⟨_, _, walks, walked⟩ := Program.bind_eq_ok.mp walked
              obtain ⟨next, roundedState, rounded, ended⟩ :=
                Program.bind_eq_ok.mp walks
              cases ended
              rw [popRound_cons] at rounded
              obtain ⟨_, read', settled', rounded⟩ :=
                Program.bind_eq_ok.mp rounded
              rw [chainTurn_goes isEnd] at turned
              obtain ⟨_, read, settled, turned⟩ :=
                Program.bind_eq_ok.mp turned
              have alikeRead := settleFor_alike alike settled settled'
              have goesRead' := settleFor_goes isEnd' settled'
              have sameNode :
                  ∀ node, read'.spec.node node = read.spec.node node := by
                intro node
                unfold TFSpec.node
                rw [nodes_of_bare alikeRead]
              have linkedRead :=
                (settleFor_reads settled within).linked linked
              obtain ⟨unwoundRead, hops⟩ :=
                steps_settled settled unwound linked within ends
              cases outcome with
              | inr answer =>
                  obtain ⟨rfl, rfl, several⟩ := chainOn_stops turned
                  cases chained
                  have few := unforked path follows
                  rw [hops] at few
                  unfold linkHops at few
                  rw [List.length_mapIdx] at few
                  have links :
                      (first'.spec.node (endOf start path)).links = [] := by
                    cases found_ :
                        (first'.spec.node (endOf start path)).links with
                    | nil =>
                        rfl
                    | cons link rest =>
                        rw [found_, List.length_cons] at few
                        have alone : rest = [] :=
                          List.length_eq_zero_iff.mp (by omega)
                        rw [alone] at found_
                        exact absurd found_ (several link)
                  have links' := links
                  rw [← sameNode] at links'
                  rw [popTurns_dropped goesRead' links' rounded walked]
                  exact alikeRead
              | inl onward =>
                  obtain ⟨rfl, link, links, rfl⟩ := chainOn_goes turned
                  obtain ⟨next, isOnward, isNext, nextWithin⟩ :=
                    onward_only linkedRead hops links
                  have links' := links
                  rw [← sameNode] at links'
                  obtain ⟨rfl, alikeMoved, slicesMoved⟩ :=
                    walkFrom_only goesRead' links' rounded
                  rw [← stepIterator_of_bare alikeRead, ← isNext] at walked
                  rw [← isNext] at chained
                  refine inductionHypothesis chained walked
                    (alikeRead.trans alikeMoved.symm)
                    (slicesMoved.trans
                      ((settleFor_slices settled').trans slices))
                    unwoundRead linkedRead nextWithin ?_
                  have member :
                      next ∈
                        BreadthFirst.onward (base.steps goal start)
                          path := by
                    rw [isOnward]
                    exact List.mem_singleton_self _
                  obtain ⟨hop, may, rfl⟩ := mem_onward.mp member
                  exact follows_concat.mpr ⟨follows, may⟩

end Search

end TFSpec

end TreeFeller
