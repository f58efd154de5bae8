import TreeFeller.StackHeads
import Mathlib.Data.List.Sort
import Mathlib.Data.List.TakeWhile

namespace TreeFeller

open StatefulProgram

/-!
# Reducing in a graph of LR stacks

The parent of a popped path spans its trees up to the last one that is not an
extra; the extras above it are pushed again behind the parent.  The heads that
a reduction leaves are the new ones that took part in no merge, and stand where
the reduced head stood.
-/

namespace TFSpec

open Program

section Parents

variable {lang : TFLanguage}
variable {ends roots : Nat → Prop}

/-! ### The parent of a path -/

/-- The extras on top of a path are cut off. -/
theorem trimExtras_append
    (self : TFSpec)
    (path : List Nat) :
    ∃ extras,
      path = self.trimExtras path ++ extras ∧
        (∀ tree ∈ extras, (self.tree tree).extra = true) ∧
        ∀ tree, (self.trimExtras path).getLast? = some tree →
          (self.tree tree).extra = false := by
  let isExtra : Nat → Bool := fun tree => (self.tree tree).extra
  refine ⟨(path.reverse.takeWhile isExtra).reverse, ?_, ?_, ?_⟩
  · unfold trimExtras
    rw [← List.reverse_append, List.takeWhile_append_dropWhile,
      List.reverse_reverse]
  · intro tree member
    rw [List.mem_reverse] at member
    have holds : isExtra tree = true := List.mem_takeWhile_imp member
    exact holds
  · intro tree isLast
    unfold trimExtras at isLast
    rw [List.getLast?_reverse] at isLast
    have notExtra := List.head?_dropWhile_not isExtra path.reverse
    change (path.reverse.dropWhile isExtra).head? = some tree at isLast
    rw [isLast] at notExtra
    simpa using notExtra

/-- Extras count for nothing. -/
theorem structuralOf_append_extras
    {self : TFSpec}
    (trees : List Nat)
    {extras : List Nat}
    (isExtra : ∀ tree ∈ extras, (self.tree tree).extra = true) :
    self.structuralOf (trees ++ extras) = self.structuralOf trees := by
  unfold structuralOf
  rw [List.countP_append]
  have none_ :
      extras.countP (fun tree => !(self.tree tree).extra) = 0 := by
    rw [List.countP_eq_zero]
    intro tree member
    rw [isExtra tree member]
    decide
  omega

/-- What the reduction of a path leaves to be pushed. -/
structure Proposed
    (graph : TFSpec)
    (base last : Nat)
    (symbol : TSSymbol)
    (tree : Nat)
    (trailing : List Nat) : Prop where
  within : tree < graph.trees.length
  isSymbol : (graph.tree tree).token.symbol = symbol
  structural : (graph.tree tree).extra = false
  padding : (graph.tree tree).paddingStart = (graph.node base).byte
  spans :
    (graph.node base).byte < (graph.tree tree).token.endByte
  grown :
    Replayable graph (graph.node base).byte [tree]
      (graph.tree tree).token.endByte
  later :
    Replayable graph (graph.tree tree).token.endByte trailing last
  extras : ∀ other ∈ trailing, (graph.tree other).extra = true

/-- What is to be pushed stays so. -/
theorem Proposed.evolves
    {before after : TFSpec}
    {base last : Nat}
    {symbol : TSSymbol}
    {tree : Nat}
    {trailing : List Nat}
    (proposed : Proposed before base last symbol tree trailing)
    (evolves : Evolves before after)
    (baseWithin : base < before.nodes.length) :
    Proposed after base last symbol tree trailing := by
  have same := evolves.tree tree proposed.within
  refine ⟨Nat.lt_of_lt_of_le proposed.within evolves.trees, ?_, ?_, ?_, ?_,
    ?_, ?_, ?_⟩
  · rw [same.token]
    exact proposed.isSymbol
  · rw [same.extra]
    exact proposed.structural
  · rw [same.paddingStart, evolves.byte base baseWithin]
    exact proposed.padding
  · rw [same.token, evolves.byte base baseWithin]
    exact proposed.spans
  · rw [same.token, evolves.byte base baseWithin]
    exact proposed.grown.evolves evolves
  · rw [same.token]
    exact proposed.later.evolves evolves
  · intro other member
    rw [(evolves.tree other (proposed.later.tiling.within member)).extra]
    exact proposed.extras other member

/-- The parent of a path that lies over a node spans the path's trees. -/
theorem Landed.parent
    {graph : TFSpec}
    {origin base childCount : Nat}
    {path : List Nat}
    (landed : Landed ends graph origin (some childCount) base path)
    (plain : ¬ ends origin)
    (positive : 0 < childCount)
    (symbol : TSSymbol)
    (production : Nat) :
    let trimmed := graph.trimExtras path
    let tree := graph.parentTree symbol production childCount trimmed base
    Tiled graph tree ∧
      tree.paddingStart = (graph.node base).byte ∧
      (graph.node base).byte < tree.token.endByte ∧
      Replayable graph (graph.node base).byte trimmed tree.token.endByte ∧
      Replayable graph tree.token.endByte (path.drop trimmed.length)
        (graph.node origin).byte ∧
      ∀ other ∈ path.drop trimmed.length,
        (graph.tree other).extra = true := by
  intro trimmed tree
  obtain ⟨extras, isPath, isExtra, notExtra⟩ := graph.trimExtras_append path
  have isTrimmed : path = trimmed ++ extras := isPath
  have rest : path.drop trimmed.length = extras := by
    rw [isTrimmed]
    exact List.drop_left
  have counts : graph.structuralOf trimmed = childCount := by
    rw [← structuralOf_append_extras trimmed isExtra, ← isTrimmed]
    exact landed.met childCount rfl
  have grown := landed.strolls.grown plain
  dsimp only at grown
  rw [isTrimmed] at grown
  obtain ⟨middle, frontGrown, back⟩ := grown.split
  have front := frontGrown.tiling
  have some_ : trimmed ≠ [] := by
    intro none_
    rw [none_] at counts
    simp only [structuralOf, List.countP_nil] at counts
    omega
  obtain ⟨first, isFirst⟩ :=
    Option.isSome_iff_exists.mp (List.isSome_head?.mpr some_)
  obtain ⟨last, isLast⟩ :=
    Option.isSome_iff_exists.mp (List.getLast?_isSome.mpr some_)
  have isPadding : tree.paddingStart = (graph.node base).byte := by
    change ((trimmed.head?.map graph.tree).map (·.paddingStart)).getD _ = _
    rw [isFirst]
    exact front.head? isFirst
  have isEnd : tree.token.endByte = middle := by
    change
      ((trimmed.getLast?.map graph.tree).map (·.token.endByte)).getD _ = _
    rw [isLast]
    exact front.getLast? isLast
  refine ⟨⟨?_, ?_, ?_, counts⟩, isPadding, ?_, ?_, ?_, ?_⟩
  · rw [isPadding, isEnd]
    exact front
  · intro child isChild
    refine landed.strolls.deepest child ?_ ?_
    · dsimp only
      rw [isTrimmed, List.head?_append]
      change trimmed.head? = some child at isChild
      rw [isChild]
      rfl
    · rw [landed.met childCount rfl]
  · exact notExtra
  · rw [isEnd]
    exact front.lt some_
  · rw [isEnd]
    exact frontGrown
  · rw [isEnd, rest]
    exact back
  · rw [rest]
    exact isExtra

/-! ### Choosing a parent -/

variable {materialize : SpecM Unit}
variable
  (recovers :
    ∀ {before after : TFSpecState},
      Stacked lang ends roots before.spec →
        materialize before = .ok ((), after) →
          Stays lang ends roots before.spec after.spec)

include recovers

/-- Comparing shapes. -/
theorem stays_preferShapes
    {base : TFSpec}
    (fuel : Nat)
    (pairs : List (Nat × Nat)) :
    Maintains
      (fun state : TFSpecState => Stays lang ends roots base state.spec)
      (preferShapes materialize fuel pairs) := by
  unfold preferShapes
  refine Maintains.iterate (fun current => ?_) fuel pairs
  cases current with
  | nil =>
      exact Maintains.pure
  | cons pair rest =>
      obtain ⟨left, right⟩ := pair
      have compares :
          Maintains
            (fun state : TFSpecState => Stays lang ends roots base state.spec)
            (do
              let x ← asks (fun s => s.tree left)
              let y ← asks (fun s => s.tree right)
              if x.children.length ≠ y.children.length then
                pure (.inr
                  (decide (y.children.length < x.children.length)))
              else
                reserve .scratch
                  (2 * rest.length + 2 * x.children.length)
                pure (.inl (x.children.zip y.children ++ rest)) :
              SpecM (List (Nat × Nat) ⊕ Bool)) := by
        refine Maintains.bind stays_asks (fun x => ?_)
        refine Maintains.bind stays_asks (fun y => ?_)
        refine Maintains.ite Maintains.pure ?_
        exact Maintains.bind (stays_reserve _ _) (fun _ => Maintains.pure)
      refine Maintains.ite Maintains.pure ?_
      refine Maintains.bind stays_asks (fun x => ?_)
      refine Maintains.bind stays_asks (fun y => ?_)
      refine Maintains.ite Maintains.pure ?_
      exact Maintains.ite
        (Maintains.bind (stays_recovers recovers) (fun _ => compares))
        compares

/-- Preferring one tree to another. -/
theorem stays_prefer
    {base : TFSpec}
    (fuel : Nat)
    (a : Option Nat)
    (b : Nat) :
    Maintains
      (fun state : TFSpecState => Stays lang ends roots base state.spec)
      (prefer materialize fuel a b) := by
  unfold prefer
  cases a with
  | none =>
      exact Maintains.pure
  | some a =>
      refine Maintains.bind stays_asks (fun x => ?_)
      refine Maintains.bind stays_asks (fun y => ?_)
      refine Maintains.ite Maintains.pure ?_
      exact Maintains.bind (stays_reserve _ _)
        (fun _ => stays_preferShapes recovers _ _)

end Parents

/-! ### Pushing -/

/-- Pushing adds one node over a link of its own. -/
theorem push_ran
    {previous tree node : Nat}
    {state : TSStateId}
    {before after : TFSpecState}
    (ran : push previous tree state before = .ok (node, after)) :
    node = before.spec.nodes.length ∧
      ∃ capacity heap,
        after =
          { before with
            spec := { before.spec with
              nodes := before.spec.nodes ++
                [before.spec.pushedNode previous tree state]
              linkCount := before.spec.linkCount + 1
              capacity := capacity }
            heap := heap } := by
  unfold push at ran
  obtain ⟨count, _, asked, ran⟩ := Program.bind_eq_ok.mp ran
  cases asked
  obtain ⟨_, _, room, ran⟩ := Program.bind_eq_ok.mp ran
  obtain ⟨capacity, heap, rfl⟩ := reserve_eq_ok room
  obtain ⟨_, _, linked, ran⟩ := Program.bind_eq_ok.mp ran
  obtain ⟨capacity, heap, rfl⟩ := newLinks_eq_ok linked
  obtain ⟨added, _, asked, ran⟩ := Program.bind_eq_ok.mp ran
  cases asked
  unfold addNode at ran
  obtain ⟨count, _, asked, ran⟩ := Program.bind_eq_ok.mp ran
  cases asked
  obtain ⟨_, _, updated, ran⟩ := Program.bind_eq_ok.mp ran
  cases updated
  cases ran
  exact ⟨rfl, capacity, heap, rfl⟩

section Pushing

variable {lang : TFLanguage}
variable {ends roots : Nat → Prop}

/-- A node where a row of extras may be pushed. -/
structure Topped
    (ends : Nat → Prop)
    (graph : TFSpec)
    (top last : Nat)
    (state : TSStateId) : Prop where
  within : top < graph.nodes.length
  ordinary : ¬ ends top
  isState : (graph.node top).state = state
  byte : (graph.node top).byte = last

/-- A pushed tree stands where it ends. -/
theorem push_stays
    {previous tree node : Nat}
    {state : TSStateId}
    {before after : TFSpecState}
    (stacked : Stacked lang ends roots before.spec)
    (pushes : Pushes ends before.spec previous tree)
    (isState : state = before.spec.stateOver lang ⟨previous, tree⟩)
    (padding :
      (before.spec.tree tree).paddingStart =
        (before.spec.node previous).byte)
    (spans :
      (before.spec.node previous).byte <
        (before.spec.tree tree).token.endByte)
    (grown :
      Replayable before.spec (before.spec.node previous).byte [tree]
        (before.spec.tree tree).token.endByte)
    (ran : push previous tree state before = .ok (node, after)) :
    Stays lang ends roots before.spec after.spec ∧
      Topped ends after.spec node (before.spec.tree tree).token.endByte
        state := by
  obtain ⟨rfl, capacity, heap, rfl⟩ := push_ran ran
  have pushed := stacked.pushNode pushes isState padding spans grown
  refine ⟨Stays.trans (pushed.stacked.beside ?_ rfl) pushed.evolves, ?_⟩
  · exact ⟨rfl, rfl, rfl, rfl, rfl, rfl, rfl, rfl, rfl⟩
  · have here :
        ({ before.spec with
            nodes := before.spec.nodes ++
              [before.spec.pushedNode previous tree state] } :
          TFSpec).node before.spec.nodes.length =
          before.spec.pushedNode previous tree state := by
      rw [node_append, if_pos rfl]
    refine ⟨?_, ?_, congrArg TFSpecNode.state here,
      congrArg TFSpecNode.byte here⟩
    · simp only [List.length_append, List.length_singleton]
      exact Nat.lt_succ_self _
    · intro isEnd
      exact Nat.lt_irrefl _ (stacked.ended _ isEnd).2.1

/-- The extras on top are pushed again, all in the state below them. -/
theorem pushExtras_stays
    {state : TSStateId}
    {extras : List Nat}
    {top middle last result : Nat}
    {before after : TFSpecState}
    (stacked : Stacked lang ends roots before.spec)
    (topped : Topped ends before.spec top middle state)
    (grown : Replayable before.spec middle extras last)
    (isExtra :
      ∀ tree ∈ extras, (before.spec.tree tree).extra = true)
    (ran : pushExtras state extras top before = .ok (result, after)) :
    Stays lang ends roots before.spec after.spec ∧
      Topped ends after.spec result last state := by
  induction extras generalizing top middle before with
  | nil =>
      cases ran
      cases grown
      exact ⟨.start stacked, topped⟩
  | cons tree rest inductionHypothesis =>
      obtain ⟨pushed, pushedState, pushes, ran⟩ := Program.bind_eq_ok.mp ran
      have rows : Replayable before.spec middle ([tree] ++ rest) last := grown
      obtain ⟨next, alone, laterGrown⟩ := rows.split
      cases alone.tiling with
      | cons within padding spans ended =>
          cases ended
          have later := laterGrown.tiling
          have isTop := isExtra tree (List.mem_cons_self ..)
          obtain ⟨stays, toppedNext⟩ :=
            push_stays stacked ⟨topped.within, within, topped.ordinary⟩
              (by
                unfold stateOver
                rw [if_pos isTop]
                exact topped.isState.symm)
              (padding.trans topped.byte.symm)
              (by
                rw [topped.byte]
                exact spans)
              (by
                rw [topped.byte]
                exact alone)
              pushes
          have evolves := stays.evolves
          obtain ⟨staysRest, toppedRest⟩ :=
            inductionHypothesis stays.stacked toppedNext
              (laterGrown.evolves evolves)
              (by
                intro other member
                rw [(evolves.tree other (later.within member)).extra]
                exact isExtra other (List.mem_cons_of_mem _ member))
              ran
          exact ⟨staysRest.trans evolves, toppedRest⟩

end Pushing

/-! ### The groups of a pop's slices -/

/-- The entry behind a front is the one modified. -/
theorem modify_append
    (front : List TFSpecHead)
    (head : TFSpecHead)
    (rest : List TFSpecHead)
    (change : TFSpecHead → TFSpecHead) :
    (front ++ head :: rest).modify front.length change =
      front ++ change head :: rest := by
  induction front with
  | nil =>
      rfl
  | cons first front inductionHypothesis =>
      exact congrArg (first :: ·) inductionHypothesis

/-- The paths of a group are those of the slices of its version. -/
theorem sliceGroups_slices
    {slices : List TFSpecSlice}
    {group : Nat × List (List Nat)}
    (isGroup : group ∈ sliceGroups slices)
    {path : List Nat}
    (isPath : path ∈ group.2) :
    ∃ slice ∈ slices,
      slice.version = group.1 ∧ slice.children = path := by
  induction slices generalizing group with
  | nil =>
      cases isGroup
  | cons slice rest inductionHypothesis =>
      have behind :
          ∀ {other : Nat × List (List Nat)},
            other ∈ sliceGroups rest → path ∈ other.2 →
              ∃ known ∈ slice :: rest,
                known.version = other.1 ∧ known.children = path := by
        intro other isOther inOther
        obtain ⟨known, member, same⟩ := inductionHypothesis isOther inOther
        exact ⟨known, List.mem_cons_of_mem _ member, same⟩
      unfold sliceGroups at isGroup
      cases groups : sliceGroups rest with
      | nil =>
          rw [groups] at isGroup
          rw [List.mem_singleton.mp isGroup] at isPath ⊢
          rw [List.mem_singleton.mp isPath]
          exact ⟨slice, List.mem_cons_self .., rfl, rfl⟩
      | cons first others =>
          obtain ⟨version, paths⟩ := first
          rw [groups] at isGroup behind
          dsimp only at isGroup
          split at isGroup
          · rename_i same
            rcases List.mem_cons.mp isGroup with rfl | old
            · rcases List.mem_cons.mp isPath with rfl | older
              · exact ⟨slice, List.mem_cons_self .., same.symm, rfl⟩
              · have isFirst :
                    (version, paths) ∈ (version, paths) :: others :=
                  List.mem_cons_self ..
                have known := @behind (version, paths) isFirst older
                exact known
            · exact behind (List.mem_cons_of_mem _ old) isPath
          · rcases List.mem_cons.mp isGroup with rfl | old
            · rw [List.mem_singleton.mp isPath]
              exact ⟨slice, List.mem_cons_self .., rfl, rfl⟩
            · exact behind old isPath

/-- The versions of the groups are those of the slices. -/
theorem sliceGroups_versions
    (slices : List TFSpecSlice)
    (version : Nat) :
    version ∈ (sliceGroups slices).map Prod.fst ↔
      version ∈ slices.map TFSpecSlice.version := by
  induction slices with
  | nil =>
      exact Iff.rfl
  | cons slice rest inductionHypothesis =>
      unfold sliceGroups
      cases groups : sliceGroups rest with
      | nil =>
          rw [groups] at inductionHypothesis
          simp only [List.map_cons, List.map_nil, List.mem_cons,
            ← inductionHypothesis]
      | cons first others =>
          obtain ⟨other, paths⟩ := first
          rw [groups] at inductionHypothesis
          dsimp only
          split
          · rename_i same
            simp only [List.map_cons, List.mem_cons,
              ← inductionHypothesis, same]
            tauto
          · simp only [List.map_cons, List.mem_cons, ← inductionHypothesis]

/-- Groups of slices in order are in order, each version once. -/
theorem sliceGroups_sorted
    {slices : List TFSpecSlice}
    (sorted : (slices.map TFSpecSlice.version).Pairwise (· ≤ ·)) :
    ((sliceGroups slices).map Prod.fst).Pairwise (· < ·) := by
  induction slices with
  | nil =>
      exact List.Pairwise.nil
  | cons slice rest inductionHypothesis =>
      rw [List.map_cons, List.pairwise_cons] at sorted
      have later := inductionHypothesis sorted.2
      have versions := sliceGroups_versions rest
      unfold sliceGroups
      cases groups : sliceGroups rest with
      | nil =>
          exact List.pairwise_singleton _ _
      | cons first others =>
          obtain ⟨other, paths⟩ := first
          rw [groups] at later versions
          dsimp only
          split
          · exact later
          · rename_i apart
            rw [List.map_cons, List.pairwise_cons]
            refine ⟨?_, later⟩
            intro version member
            have atLeast :=
              sorted.1 other ((versions other).mp (List.mem_cons_self ..))
            have above : other ≤ version := by
              rcases List.mem_cons.mp member with rfl | behind
              · exact Nat.le_refl _
              · exact Nat.le_of_lt
                  ((List.pairwise_cons.mp later).1 version behind)
            dsimp only
            omega

/-- The groups of a pop take its new heads in turn. -/
theorem sliceGroups_range
    {heads : List TFSpecHead}
    {nodes : List Nat}
    {graph : TFSpec}
    (sliced : Sliced heads nodes graph) :
    (sliceGroups graph.slices).map Prod.fst =
      List.range' heads.length nodes.length := by
  refine List.Pairwise.eq_of_mem_iff (sliceGroups_sorted sliced.sorted)
    List.pairwise_lt_range' ?_
  intro version
  rw [sliceGroups_versions, sliced.versions, List.mem_range'_1]

/-! ### Whole reductions -/

section Reducing

variable {env : TFSpecEnv}
variable {ends roots : Nat → Prop}
variable
  (recovers :
    ∀ {before after : TFSpecState},
      Stacked env.lang ends roots before.spec →
        env.materialize before = .ok ((), after) →
          Stays env.lang ends roots before.spec after.spec)

include recovers

/-- Choosing a parent adds it, and leaves it and its extras to be pushed. -/
theorem selectParent_stays
    {symbol : TSSymbol}
    {childCount productionId base origin last : Nat}
    {paths : List (List Nat)}
    {chosen answer : Option (Nat × List Nat)}
    {before after : TFSpecState}
    (stacked : Stacked env.lang ends roots before.spec)
    (baseWithin : base < before.spec.nodes.length)
    (originWithin : origin < before.spec.nodes.length)
    (plain : ¬ ends origin)
    (positive : 0 < childCount)
    (isLast : (before.spec.node origin).byte = last)
    (landed :
      ∀ path ∈ paths,
        Landed ends before.spec origin (some childCount) base path)
    (chosenProposed :
      ∀ tree trailing, chosen = some (tree, trailing) →
        Proposed before.spec base last symbol tree trailing)
    (ran :
      selectParent env symbol childCount productionId base paths chosen
          before =
        .ok (answer, after)) :
    Stays env.lang ends roots before.spec after.spec ∧
      ∀ tree trailing, answer = some (tree, trailing) →
        Proposed after.spec base last symbol tree trailing := by
  induction paths generalizing chosen before with
  | nil =>
      cases ran
      exact ⟨.start stacked, chosenProposed⟩
  | cons path rest inductionHypothesis =>
      unfold selectParent at ran
      obtain ⟨trimmed, _, asked, ran⟩ := Program.bind_eq_ok.mp ran
      simp only [asks, Program.gets_apply, Except.ok.injEq,
        Prod.mk.injEq] at asked
      obtain ⟨rfl, rfl⟩ := asked
      obtain ⟨candidate, added, adds, ran⟩ := Program.bind_eq_ok.mp ran
      obtain ⟨tiled, padding, spans, children, later, isExtra⟩ :=
        (landed path (List.mem_cons_self ..)).parent plain positive symbol
          productionId
      unfold parent at adds
      obtain ⟨tree, _, asked, adds⟩ := Program.bind_eq_ok.mp adds
      simp only [asks, Program.gets_apply, Except.ok.injEq,
        Prod.mk.injEq] at asked
      obtain ⟨rfl, rfl⟩ := asked
      obtain ⟨capacity, heap, rfl, rfl⟩ := newTree_ran adds
      obtain ⟨better, compared, compares, ran⟩ :=
        Program.bind_eq_ok.mp ran
      let self := before.spec
      let trimmed := self.trimExtras path
      let tree := self.parentTree symbol productionId childCount trimmed base
      have grows :
          Stays env.lang ends roots self
            { self with trees := self.trees ++ [tree] } :=
        stacked.addTree rfl (fun _ _ _ _ => tiled)
      have isTree :
          ({ self with trees := self.trees ++ [tree] } : TFSpec).tree
              self.trees.length =
            tree := by
        rw [tree_append rfl, if_pos rfl]
      have proposed :
          Proposed { self with trees := self.trees ++ [tree] } base last
            symbol self.trees.length (path.drop trimmed.length) := by
        have within :
            self.trees.length <
              ({ self with trees := self.trees ++ [tree] } :
                TFSpec).trees.length := by
          simp only [List.length_append, List.length_singleton]
          exact Nat.lt_succ_self _
        refine ⟨within, ?_, ?_, ?_, ?_, ?_, ?_, ?_⟩
        · rw [isTree]
          rfl
        · rw [isTree]
          rfl
        · rw [isTree]
          exact padding
        · rw [isTree]
          exact spans
        · refine .parent within ?_ ?_ ?_ ?_ ?_ ?_ (.nil _)
          · rw [isTree]
            exact padding
          · rw [isTree]
            exact spans
          · rw [isTree]
            rfl
          · rw [isTree]
            rfl
          · rw [isTree]
            exact Nat.ne_of_gt positive
          · rw [isTree]
            exact children.evolves grows.evolves
        · rw [isTree, ← isLast]
          exact later.evolves grows.evolves
        · intro other member
          rw [(grows.evolves.tree other (later.tiling.within member)).extra]
          exact isExtra other member
      have aside :
          Stays env.lang ends roots self
            { self with
              trees := self.trees ++ [tree]
              capacity := capacity } :=
        Stays.trans
          (grows.stacked.beside
            ⟨rfl, rfl, rfl, rfl, rfl, rfl, rfl, rfl, rfl⟩ rfl)
          grows.evolves
      have comparedStays :
          Stays env.lang ends roots self compared.spec :=
        stays_prefer recovers _ _ _ _ _ _ aside compares
      have fromAdded :
          Evolves { self with trees := self.trees ++ [tree] }
            compared.spec := by
        have later :=
          stays_prefer recovers _ _ _ _ _ _ (.start aside.stacked) compares
        exact later.evolves.trans (.of_same rfl rfl rfl)
      have evolves := comparedStays.evolves
      have restLanded :
          ∀ other ∈ rest,
            Landed ends compared.spec origin (some childCount) base other :=
        fun other member =>
          (landed other (List.mem_cons_of_mem _ member)).evolves evolves
            originWithin
      have baseCompared := Nat.lt_of_lt_of_le baseWithin evolves.nodes
      have originCompared := Nat.lt_of_lt_of_le originWithin evolves.nodes
      have isLastCompared :
          (compared.spec.node origin).byte = last := by
        rw [evolves.byte origin originWithin]
        exact isLast
      have newProposed := proposed.evolves fromAdded baseWithin
      split at ran
      · obtain ⟨stays, result⟩ :=
          inductionHypothesis comparedStays.stacked baseCompared
            originCompared isLastCompared restLanded
            (by
              intro other trailing isChosen
              cases isChosen
              exact newProposed)
            ran
        exact ⟨stays.trans evolves, result⟩
      · obtain ⟨stays, result⟩ :=
          inductionHypothesis comparedStays.stacked baseCompared
            originCompared isLastCompared restLanded
            (fun other trailing isChosen =>
              (chosenProposed other trailing isChosen).evolves evolves
                baseWithin)
            ran
        exact ⟨stays.trans evolves, result⟩

variable (settled : ¬ Rebuilding roots)

include settled

/-- Merging a new head below. -/
theorem stays_mergeBelow
    {base : TFSpec}
    (version created : Nat)
    (others : List Nat) :
    Maintains
      (fun state : TFSpecState => Stays env.lang ends roots base state.spec)
      (mergeBelow env version created others) := by
  induction others with
  | nil =>
      exact Maintains.pure
  | cons other rest inductionHypothesis =>
      unfold mergeBelow
      refine Maintains.ite inductionHypothesis ?_
      refine Maintains.bind ?_ (fun merged => ?_)
      · intro before value after stays ran
        exact
          (merge_stays recovers settled stays.stacked ran).trans stays.evolves
      · exact Maintains.ite Maintains.pure inductionHypothesis

variable (materializes : Keeps headsOf env.materialize)

include materializes

/-- The reduction over the paths to one base moves or removes its head. -/
theorem reduceGroup_stays
    {version created : Nat}
    {symbol : TSSymbol}
    {childCount productionId origin last : Nat}
    {dynamicPrecedence : Int}
    {paths : List (List Nat)}
    {merged : Bool}
    {before after : TFSpecState}
    (stacked : Stacked env.lang ends roots before.spec)
    (originWithin : origin < before.spec.nodes.length)
    (plain : ¬ ends origin)
    (positive : 0 < childCount)
    (isLast : (before.spec.node origin).byte = last)
    (going : (before.spec.head created).halted = false)
    (landed :
      ∀ path ∈ paths,
        Landed ends before.spec origin (some childCount)
          (before.spec.head created).node path)
    (ran :
      reduceGroup env version created symbol childCount productionId
          dynamicPrecedence paths before =
        .ok (merged, after)) :
    Stays env.lang ends roots before.spec after.spec ∧
      ∃ top,
        top < after.spec.nodes.length ∧ ¬ ends top ∧
          (after.spec.node top).byte = last ∧
          after.spec.heads =
            if merged then before.spec.heads.eraseIdx created
            else before.spec.heads.modify created (fun head =>
              { head with node := top }) := by
  have baseWithin := stacked.headWithin created
  have below := stacked.head settled going
  unfold reduceGroup at ran
  obtain ⟨head, _, asked, ran⟩ := Program.bind_eq_ok.mp ran
  simp only [asks, Program.gets_apply, Except.ok.injEq,
    Prod.mk.injEq] at asked
  obtain ⟨rfl, rfl⟩ := asked
  obtain ⟨chosen, selected, selects, ran⟩ := Program.bind_eq_ok.mp ran
  obtain ⟨selectedStays, proposedBy⟩ :=
    selectParent_stays recovers stacked baseWithin originWithin plain
      positive isLast landed
      (by
        intro tree trailing isChosen
        cases isChosen)
      selects
  have selectedHeads : selected.spec.heads = before.spec.heads :=
    headsOf_selectParent materializes _ _ _ _ _ _ _ _ _ selects
  cases chosen with
  | none =>
      cases ran
  | some chosen =>
      obtain ⟨tree, trailing⟩ := chosen
      have proposed := proposedBy tree trailing rfl
      obtain ⟨_, raised, modified, ran⟩ := Program.bind_eq_ok.mp ran
      have isRaised :
          raised.spec =
            selected.spec.modifyTree tree (fun parent =>
              { parent with
                precedence := parent.precedence + dynamicPrecedence }) := by
        cases modified
        rfl
      have raisedHeads : raised.spec.heads = selected.spec.heads := by
        rw [isRaised]
        rfl
      have reweighed :=
        selectedStays.stacked.reweigh tree
          (fun parent => parent.precedence + dynamicPrecedence)
      rw [← isRaised] at reweighed
      have selectedEvolves := selectedStays.evolves
      have baseSelected :=
        Nat.lt_of_lt_of_le baseWithin selectedEvolves.nodes
      have proposedNow := proposed.evolves reweighed.evolves baseSelected
      obtain ⟨state, _, asked, ran⟩ := Program.bind_eq_ok.mp ran
      simp only [asks, Program.gets_apply, Except.ok.injEq,
        Prod.mk.injEq] at asked
      obtain ⟨rfl, rfl⟩ := asked
      obtain ⟨pushed, pushedState, pushes, ran⟩ := Program.bind_eq_ok.mp ran
      obtain ⟨pushedStays, topped⟩ :=
        push_stays reweighed.stacked
          ⟨Nat.lt_of_lt_of_le baseSelected reweighed.evolves.nodes,
            proposedNow.within, below⟩
          (by
            unfold stateOver
            rw [if_neg (by
              rw [proposedNow.structural]
              exact Bool.false_ne_true)]
            rw [proposedNow.isSymbol])
          proposedNow.padding proposedNow.spans proposedNow.grown pushes
      have pushedHeads : pushedState.spec.heads = raised.spec.heads :=
        headsOf_push _ _ _ _ _ _ pushes
      obtain ⟨top, extraState, extras, ran⟩ := Program.bind_eq_ok.mp ran
      have pushedEvolves := pushedStays.evolves
      obtain ⟨extraStays, toppedLast⟩ :=
        pushExtras_stays pushedStays.stacked topped
          (proposedNow.later.evolves pushedEvolves)
          (by
            intro other member
            rw [(pushedEvolves.tree other
              (proposedNow.later.tiling.within member)).extra]
            exact proposedNow.extras other member)
          extras
      have extraHeads : extraState.spec.heads = pushedState.spec.heads :=
        headsOf_pushExtras _ _ _ _ _ _ extras
      obtain ⟨_, _, moved, ran⟩ := Program.bind_eq_ok.mp ran
      cases moved
      have movedStays :
          Stays env.lang ends roots extraState.spec
            (extraState.spec.modifyHead created (fun head =>
              { head with node := top })) := by
        refine extraStays.stacked.aside ?_ ?_
        · exact ⟨rfl, rfl, rfl, rfl, rfl, rfl, rfl, rfl, rfl⟩
        · intro head member
          obtain ⟨place, inRange, rfl⟩ := List.mem_iff_getElem.mp member
          simp only [modifyHead, List.length_modify] at inRange
          simp only [modifyHead, List.getElem_modify]
          split
          · exact ⟨toppedLast.within,
              fun _ isEnd => absurd isEnd toppedLast.ordinary⟩
          · exact extraStays.stacked.ownHeads _ (List.getElem_mem inRange)
      have mergedStays :=
        stays_mergeBelow recovers settled version created (List.range created)
          _ _ _ (.start movedStays.stacked) ran
      have mergedHeads := heads_mergeBelow materializes ran
      have all :=
        mergedStays.trans
          (movedStays.evolves.trans
            (extraStays.evolves.trans
              (pushedEvolves.trans
                (reweighed.evolves.trans selectedEvolves))))
      have late := mergedStays.evolves.trans movedStays.evolves
      refine ⟨all, top,
        Nat.lt_of_lt_of_le toppedLast.within late.nodes,
        toppedLast.ordinary, ?_, ?_⟩
      · rw [late.byte top toppedLast.within]
        exact toppedLast.byte
      · rw [mergedHeads]
        have movedHeads :
            (extraState.spec.modifyHead created (fun head =>
                { head with node := top })).heads =
              before.spec.heads.modify created (fun head =>
                { head with node := top }) := by
          unfold modifyHead
          dsimp only
          rw [extraHeads, pushedHeads, raisedHeads, selectedHeads]
        dsimp only
        rw [movedHeads]
        cases merged with
        | false =>
            rfl
        | true =>
            exact List.eraseIdx_modify_of_eq _ _ _

/-- A head that a reduction leaves, as far along as the reduced one. -/
structure Advanced
    (ends : Nat → Prop)
    (graph : TFSpec)
    (last : Nat)
    (head : TFSpecHead) : Prop where
  going : head.halted = false
  within : head.node < graph.nodes.length
  ordinary : ¬ ends head.node
  byte : (graph.node head.node).byte = last

omit recovers settled materializes in
/-- A head stays as far along. -/
theorem Advanced.evolves
    {before after : TFSpec}
    {last : Nat}
    {head : TFSpecHead}
    (advanced : Advanced ends before last head)
    (evolves : Evolves before after) :
    Advanced ends after last head where
  going := advanced.going
  within := Nat.lt_of_lt_of_le advanced.within evolves.nodes
  ordinary := advanced.ordinary
  byte := (evolves.byte _ advanced.within).trans advanced.byte

/-- A head that stands where a path ends, until it is moved. -/
def waiting (node : Nat) : TFSpecHead :=
  ⟨node, false, false⟩

/-- The reduction over every group: each head is moved, merged or dropped. -/
theorem reduceGroups_stays
    {version halted : Nat}
    {symbol : TSSymbol}
    {childCount productionId origin last : Nat}
    {dynamicPrecedence : Int}
    {groups : List (Nat × List (List Nat))}
    {nodes : List Nat}
    {front : List TFSpecHead}
    {removed : Nat}
    {before after : TFSpecState}
    (stacked : Stacked env.lang ends roots before.spec)
    (originWithin : origin < before.spec.nodes.length)
    (plain : ¬ ends origin)
    (positive : 0 < childCount)
    (isLast : (before.spec.node origin).byte = last)
    (heads : before.spec.heads = front ++ nodes.map waiting)
    (versions :
      groups.map Prod.fst =
        List.range' (front.length + removed) nodes.length)
    (landed :
      List.Forall₂
        (fun group node =>
          ∀ path ∈ group.2,
            Landed ends before.spec origin (some childCount) node path)
        groups nodes)
    (ran :
      reduceGroups env version halted symbol childCount productionId
          dynamicPrecedence groups removed before =
        .ok ((), after)) :
    Stays env.lang ends roots before.spec after.spec ∧
      ∃ finished,
        after.spec.heads = front ++ finished ∧
          ∀ head ∈ finished, Advanced ends after.spec last head := by
  induction groups generalizing nodes front removed before with
  | nil =>
      cases landed
      cases ran
      exact ⟨.start stacked, [], heads, nofun⟩
  | cons group rest inductionHypothesis =>
      cases landed with
      | @cons _ node _ nodes isLanded restLanded =>
          obtain ⟨slice, paths⟩ := group
          simp only [List.map_cons, List.length_cons,
            List.range'_succ, List.cons.injEq] at versions
          obtain ⟨isSlice, restVersions⟩ := versions
          have created : slice - removed = front.length := by omega
          have isHead :
              before.spec.head (slice - removed) = waiting node := by
            unfold TFSpec.head
            rw [created, heads, List.getD_append_right _ _ _ _
              (Nat.le_refl _)]
            simp
          have erased :
              before.spec.heads.eraseIdx (slice - removed) =
                front ++ nodes.map waiting := by
            rw [created, heads, List.eraseIdx_append_of_length_le
              (Nat.le_refl _)]
            simp
          have later :
              ∀ {middle : TFSpec},
                Evolves before.spec middle →
                  List.Forall₂
                    (fun group node =>
                      ∀ path ∈ group.2,
                        Landed ends middle origin (some childCount) node
                          path)
                    rest nodes := by
            intro middle evolves
            refine restLanded.imp ?_
            intro group node isLanded path member
            exact (isLanded path member).evolves evolves originWithin
          unfold reduceGroups at ran
          dsimp only at ran
          split at ran
          · obtain ⟨_, dropped, drops, ran⟩ := Program.bind_eq_ok.mp ran
            have droppedStays :=
              stays_removeHead (slice - removed) _ _ _ (.start stacked)
                drops
            cases drops
            obtain ⟨_, limited, flagged, ran⟩ := Program.bind_eq_ok.mp ran
            have limitedStays :
                Stays env.lang ends roots before.spec limited.spec := by
              cases flagged
              refine Stays.trans (droppedStays.stacked.beside ?_ rfl)
                droppedStays.evolves
              exact ⟨rfl, rfl, rfl, rfl, rfl, rfl, rfl, rfl, rfl⟩
            have limitedHeads :
                limited.spec.heads = front ++ nodes.map waiting := by
              cases flagged
              exact erased
            have evolves := limitedStays.evolves
            obtain ⟨stays, finished, isFinished, advanced⟩ :=
              inductionHypothesis limitedStays.stacked
                (Nat.lt_of_lt_of_le originWithin evolves.nodes)
                ((evolves.byte _ originWithin).trans isLast) limitedHeads
                (by
                  rw [restVersions]
                  congr 1)
                (later evolves) ran
            exact ⟨stays.trans evolves, finished, isFinished, advanced⟩
          · obtain ⟨merged, grouped, groups, ran⟩ :=
              Program.bind_eq_ok.mp ran
            obtain ⟨groupedStays, top, topWithin, topOrdinary, topByte_,
              groupedHeads⟩ :=
              reduceGroup_stays recovers settled materializes stacked
                originWithin
                plain positive isLast
                (by
                  rw [isHead]
                  rfl)
                (by
                  rw [isHead]
                  exact isLanded)
                groups
            have evolves := groupedStays.evolves
            have originGrouped :=
              Nat.lt_of_lt_of_le originWithin evolves.nodes
            have lastGrouped :=
              (evolves.byte _ originWithin).trans isLast
            cases merged with
            | true =>
                rw [if_pos rfl, erased] at groupedHeads
                obtain ⟨stays, finished, isFinished, advanced⟩ :=
                  inductionHypothesis groupedStays.stacked originGrouped
                    lastGrouped groupedHeads
                    (by
                      rw [restVersions]
                      congr 1)
                    (later evolves) ran
                exact ⟨stays.trans evolves, finished, isFinished,
                  advanced⟩
            | false =>
                rw [if_neg Bool.false_ne_true] at groupedHeads ran
                have moved :
                    grouped.spec.heads =
                      (front ++ [waiting top]) ++ nodes.map waiting := by
                  rw [groupedHeads, created, heads, List.map_cons,
                    modify_append, List.append_assoc]
                  rfl
                obtain ⟨stays, finished, isFinished, advanced⟩ :=
                  inductionHypothesis groupedStays.stacked originGrouped
                    lastGrouped moved
                    (by
                      rw [restVersions, List.length_append,
                        List.length_singleton]
                      congr 1
                      omega)
                    (later evolves) ran
                refine ⟨stays.trans evolves, waiting top :: finished, ?_,
                  ?_⟩
                · rw [isFinished, List.append_assoc]
                  rfl
                · intro head member
                  rcases List.mem_cons.mp member with rfl | old
                  · have here :
                        Advanced ends grouped.spec last (waiting top) :=
                      ⟨rfl, topWithin, topOrdinary, topByte_⟩
                    exact here.evolves stays.evolves
                  · exact advanced head old

/-- A reduction adds heads as far along as the one it reduces. -/
theorem reduce_stays
    {version childCount : Nat}
    {symbol : TSSymbol}
    {dynamicPrecedence : Int}
    {productionId : Nat}
    {created : Option Nat}
    {before after : TFSpecState}
    (stacked : Stacked env.lang ends roots before.spec)
    (going : (before.spec.head version).halted = false)
    (positive : 0 < childCount)
    (ran :
      reduce env version childCount symbol dynamicPrecedence productionId
          before =
        .ok (created, after)) :
    Stays env.lang ends roots before.spec after.spec ∧
      ∃ finished,
        after.spec.heads = before.spec.heads ++ finished ∧
          (∀ head ∈ finished,
            Advanced ends after.spec
              (before.spec.node (before.spec.head version).node).byte
              head) ∧
          created =
            if before.spec.heads.length < after.spec.heads.length then
              some before.spec.heads.length
            else
              none := by
  have plain := stacked.head settled going
  unfold reduce at ran
  obtain ⟨initial, _, asked, ran⟩ := Program.bind_eq_ok.mp ran
  simp only [asks, Program.gets_apply, Except.ok.injEq,
    Prod.mk.injEq] at asked
  obtain ⟨rfl, rfl⟩ := asked
  obtain ⟨halted, _, asked, ran⟩ := Program.bind_eq_ok.mp ran
  simp only [asks, Program.gets_apply, Except.ok.injEq,
    Prod.mk.injEq] at asked
  obtain ⟨_, rfl⟩ := asked
  obtain ⟨_, popped, pops, ran⟩ := Program.bind_eq_ok.mp ran
  have strolling := strolling_pop stacked (Or.inl plain) pops
  obtain ⟨nodes, sliced⟩ := strolling.sliced
  obtain ⟨slices, _, asked, ran⟩ := Program.bind_eq_ok.mp ran
  simp only [asks, Program.gets_apply, Except.ok.injEq,
    Prod.mk.injEq] at asked
  obtain ⟨rfl, rfl⟩ := asked
  obtain ⟨_, reduced, reduces, ran⟩ := Program.bind_eq_ok.mp ran
  obtain ⟨count, _, asked, ran⟩ := Program.bind_eq_ok.mp ran
  simp only [asks, Program.gets_apply, Except.ok.injEq,
    Prod.mk.injEq] at asked
  obtain ⟨rfl, rfl⟩ := asked
  have evolves := strolling.stays.evolves
  have originWithin := strolling.originWithin
  have versions := sliceGroups_range sliced
  have landed :
      List.Forall₂
        (fun group node =>
          ∀ path ∈ group.2,
            Landed ends popped.spec (before.spec.head version).node
              (some childCount) node path)
        (sliceGroups popped.spec.slices) nodes := by
    refine List.forall₂_iff_get.mpr ⟨?_, ?_⟩
    · have lengths := congrArg List.length versions
      simpa using lengths
    · intro index inGroups inNodes path member
      have isGroup :
          (sliceGroups popped.spec.slices).get ⟨index, inGroups⟩ ∈
            sliceGroups popped.spec.slices :=
        List.get_mem _ _
      obtain ⟨slice, isSlice, isVersion, isPath⟩ :=
        sliceGroups_slices isGroup member
      have place :
          slice.version = before.spec.heads.length + index := by
        rw [isVersion]
        have entry :
            ((sliceGroups popped.spec.slices).map Prod.fst)[index]? =
              some ((sliceGroups popped.spec.slices).get
                ⟨index, inGroups⟩).1 := by
          rw [List.getElem?_map, List.getElem?_eq_getElem inGroups]
          rfl
        rw [versions, List.getElem?_range' (by simpa using inNodes)]
          at entry
        have same := Option.some.inj entry
        omega
      have inPaths :
          (nodes[index], path) ∈ popped.spec.slicePaths := by
        refine List.mem_map.mpr ⟨slice, isSlice, ?_⟩
        rw [place, sliced.node inNodes, isPath]
      exact strolling.landed _ inPaths
  obtain ⟨stays, finished, isFinished, advanced⟩ :=
    reduceGroups_stays recovers settled materializes strolling.stays.stacked
      (Nat.lt_of_lt_of_le originWithin evolves.nodes) plain positive
      (evolves.byte _ originWithin) sliced.heads
      (by
        rw [Nat.add_zero]
        exact versions)
      landed reduces
  split at ran
  · rename_i more
    cases ran
    refine ⟨stays.trans evolves, finished, isFinished, advanced, ?_⟩
    rw [if_pos more]
  · rename_i more
    cases ran
    refine ⟨stays.trans evolves, finished, isFinished, advanced, ?_⟩
    rw [if_neg more]

end Reducing

end TFSpec

end TreeFeller
