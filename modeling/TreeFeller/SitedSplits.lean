import TreeFeller.SitedTurns
import TreeFeller.StackRounds

/-!
# Positions through a whole split

A head advances over a token on the path.  Where it accepts, the end token
stands at the end of the input and closes every stack that is rebuilt, so the
root ends there as well.
-/

namespace TreeFeller

open StatefulProgram
open TFLexer

namespace TFSpec

open Program

section Accepting

variable {source : List UInt8}
variable {marks : List (Nat × TFToken × Bool)}
variable {fine : TFLexer → List TFSpecSlice → Nat → Prop}
variable {lexes : TFLexer → Prop}
variable {floor : Nat}
variable {env : TFSpecEnv}

/-- A finished root that ends at the end of the input. -/
theorem Sited.finish
    {lang : TFLanguage}
    {graph : TFSpec}
    (sited : graph.Sited lang source marks)
    {root : Nat}
    {sight : TFToken × Bool}
    (found : (graph.trees.map TFSpecTree.sight)[root]? = some sight)
    (ends : sight.1.endByte = source.length) :
    Sited lang source marks { graph with finished := some root } where
  sights := sited.sights
  marked := sited.marked
  places := sited.places
  cells := sited.cells
  cached := sited.cached
  keyword := sited.keyword
  error := sited.error
  finished := by
    intro again same
    cases same
    exact ⟨sight, found, ends⟩

/-- Fewer marks, or marks of trees that are there. -/
theorem Sites.remark
    {lang : TFLanguage}
    {others : List (Nat × TFToken × Bool)}
    {state : TFSpecState}
    (sites : Sites lang source marks fine state)
    (there :
      ∀ mark ∈ others,
        mark ∈ marks ∨
          (state.spec.trees.map TFSpecTree.sight)[mark.1]? = some mark.2) :
    Sites lang source others fine state :=
  ⟨sites.graph.remark there, sites.rest, sites.reads⟩

/-- A new tree can be marked. -/
theorem newTree_marked
    {lang : TFLanguage}
    {tree : TFSpecTree}
    (placed : tree.token.Placed source)
    {before after : TFSpecState}
    {index : Nat}
    (sites : Sites lang source marks fine before)
    (ran : newTree tree before = .ok (index, after)) :
    Sites lang source ((index, tree.sight) :: marks) fine after := by
  have kept := sites_newTree placed _ _ _ sites ran
  obtain ⟨capacity, heap, rfl, rfl⟩ := newTree_ran ran
  refine kept.remark ?_
  intro mark member
  rcases List.mem_cons.mp member with isNew | old
  · subst isNew
    right
    simp
  · exact .inl old

variable
  (recovers :
    ∀ {marks} {fine},
      Maintains (Sites env.lang source marks fine) env.materialize)

include recovers

/-- A root rebuilt over a path that a tree at the end of the input closes. -/
theorem sites_rebuildRoot
    {path : List Nat}
    {index : Nat}
    {leaf : Nat × TFToken × Bool}
    (isMarked : leaf ∈ marks)
    (closed : (path.drop (index + 1)).getLast? = some leaf.1)
    (ends : leaf.2.1.endByte = source.length) :
    Maintains (Sites env.lang source marks fine)
      (rebuildRoot env path index) := by
  intro before value after sites ran
  unfold rebuildRoot at ran
  obtain ⟨root, _, asked, ran⟩ := Program.bind_eq_ok.mp ran
  cases asked
  obtain ⟨count, _, asked, ran⟩ := Program.bind_eq_ok.mp ran
  cases asked
  obtain ⟨_, reserved, reserves, ran⟩ := Program.bind_eq_ok.mp ran
  have roomy := sites_reserve _ _ _ _ _ sites reserves
  obtain ⟨_, counted, counts, ran⟩ := Program.bind_eq_ok.mp ran
  have ready : Sites env.lang source marks fine counted := by
    cases counts
    exact roomy.level rfl rfl
  obtain ⟨candidate, added, adds, ran⟩ := Program.bind_eq_ok.mp ran
  obtain ⟨tree, _, asked, adds⟩ := Program.bind_eq_ok.mp adds
  simp only [asks, Program.gets_apply, Except.ok.injEq,
    Prod.mk.injEq] at asked
  obtain ⟨isTree, rfl⟩ := asked
  have placed : tree.token.Placed source := by
    rw [← isTree]
    exact ready.graph.parentTree _ _ _ _ _
  have endsThere : tree.token.endByte = source.length := by
    have isLeaf := ready.graph.tree_marked isMarked
    have token : (counted.spec.tree leaf.1).token = leaf.2.1 :=
      congrArg Prod.fst isLeaf
    rw [← isTree]
    simp only [TFSpec.parentTree, List.getLast?_append, closed,
      Option.some_or, Option.map_some, Option.getD_some]
    rw [token]
    exact ends
  have marked := newTree_marked placed ready adds
  obtain ⟨finished, _, asked, ran⟩ := Program.bind_eq_ok.mp ran
  cases asked
  obtain ⟨better, chosen, chooses, ran⟩ := Program.bind_eq_ok.mp ran
  have sitesChosen := sites_prefer recovers _ _ _ _ _ _ marked chooses
  have found :
      (chosen.spec.trees.map TFSpecTree.sight)[candidate]? =
        some tree.sight :=
    sitesChosen.graph.marked _ List.mem_cons_self
  have sitesNow : Sites env.lang source marks fine chosen :=
    sitesChosen.remark
      (fun mark member => .inl (List.mem_cons_of_mem _ member))
  split at ran
  · cases ran
    exact ⟨sitesNow.graph.finish found endsThere, sitesNow.rest,
      sitesNow.reads⟩
  · cases ran
    exact sitesNow

/-- The root of one whole stack, which an extra at the end closes. -/
theorem sites_acceptPath
    {path : List Nat}
    {leaf : Nat × TFToken × Bool}
    (isMarked : leaf ∈ marks)
    (closed : path.getLast? = some leaf.1)
    (isExtra : leaf.2.2 = true)
    (ends : leaf.2.1.endByte = source.length) :
    Maintains (Sites env.lang source marks fine) (acceptPath env path) := by
  intro before value after sites ran
  rw [acceptPath_eq] at ran
  obtain ⟨found, _, asked, ran⟩ := Program.bind_eq_ok.mp ran
  simp only [asks, Program.gets_apply, Except.ok.injEq,
    Prod.mk.injEq] at asked
  obtain ⟨isFound, rfl⟩ := asked
  cases found with
  | none =>
      cases ran
      exact sites
  | some index =>
      obtain ⟨inRange, plain⟩ := lastStructural_spec isFound
      -- The tree that closes the path is an extra, so it stands behind.
      have behind : path.drop (index + 1) ≠ [] := by
        intro nothing
        have short := List.drop_eq_nil_iff.mp nothing
        have isLast : path.getD index 0 = leaf.1 := by
          rw [List.getLast?_eq_getElem?] at closed
          have same : path.length - 1 = index := by omega
          rw [same] at closed
          rw [List.getD_eq_getElem?_getD, closed]
          rfl
        have sight := sites.graph.tree_marked isMarked
        have extra : (before.spec.tree leaf.1).extra = leaf.2.2 :=
          congrArg Prod.snd sight
        rw [isLast, extra, isExtra] at plain
        cases plain
      have closedBehind :
          (path.drop (index + 1)).getLast? = some leaf.1 := by
        rw [List.getLast?_drop, if_neg]
        · exact closed
        · intro short
          exact behind (List.drop_eq_nil_iff.mpr short)
      have rebuilds :
          Maintains (Sites env.lang source marks fine)
            (rebuildRoot env path index) :=
        sites_rebuildRoot recovers isMarked closedBehind ends
      obtain ⟨unknown, _, asked, ran⟩ := Program.bind_eq_ok.mp ran
      cases asked
      split at ran
      · obtain ⟨_, recovered, recovering, ran⟩ := Program.bind_eq_ok.mp ran
        exact rebuilds _ _ _ (recovers _ _ _ sites recovering) ran
      · exact rebuilds _ _ _ sites ran

/-- Accepting at a head, on an end token at the end of the input. -/
theorem sites_accept
    {version : Nat}
    {eof : TFToken}
    (inRange : version < floor)
    (placed : eof.Placed source)
    (ends : eof.endByte = source.length) :
    Maintains (Sites env.lang source marks (Above lexes floor))
      (accept env version eof) := by
  intro before value after sites ran
  unfold accept at ran
  obtain ⟨left, _, asked, ran⟩ := Program.bind_eq_ok.mp ran
  cases asked
  obtain ⟨_, unrolled, unrolls, ran⟩ := Program.bind_eq_ok.mp ran
  have sitesUnrolled :=
    Ensures.forEach (fun _ _ => sites_extend) _ _ _ sites unrolls
  obtain ⟨top, _, asked, ran⟩ := Program.bind_eq_ok.mp ran
  cases asked
  obtain ⟨paddingStart, _, asked, ran⟩ := Program.bind_eq_ok.mp ran
  cases asked
  obtain ⟨leaf, leafed, adds, ran⟩ := Program.bind_eq_ok.mp ran
  have sitesLeafed := newTree_marked placed sitesUnrolled adds
  obtain ⟨end_, pushed, pushes, ran⟩ := Program.bind_eq_ok.mp ran
  have sitesPushed := sites_push _ _ _ _ _ _ sitesLeafed pushes
  obtain ⟨isEnd, capacity, heap, isPushed⟩ := push_ran pushes
  obtain ⟨_, moved, moves, ran⟩ := Program.bind_eq_ok.mp ran
  have sitesMoved := sites_modifyHead _ _ _ sitesPushed moves
  obtain ⟨_, popped, pops, ran⟩ := Program.bind_eq_ok.mp ran
  have sitesPopped := sites_pop _ _ _ _ _ _ sitesMoved pops
  -- The head stands on the end node, over which the leaf leads down alone.
  have here : (moved.spec.head version).node = end_ := by
    cases moves
    have within : version < pushed.spec.heads.length :=
      Nat.lt_of_lt_of_le inRange sitesPushed.rest.2
    unfold TFSpec.head TFSpec.modifyHead
    rw [List.getD_eq_getElem _ _ (by simpa using within),
      List.getElem_modify, if_pos rfl]
  have over_ :
      (moved.spec.node end_).links =
        [⟨(unrolled.spec.head version).node, leaf⟩] := by
    cases moves
    rw [isEnd, isPushed]
    unfold TFSpec.node TFSpec.modifyHead
    dsimp only
    rw [List.getD_append_right _ _ _ _ (Nat.le_refl _), Nat.sub_self]
    rfl
  have closed :
      ∀ slice ∈ popped.spec.slices, slice.children.getLast? = some leaf := by
    refine capped_pop ?_ ?_ here pops
    · rw [over_]
      exact List.cons_ne_nil _ _
    · intro link member
      rw [over_] at member
      rw [List.mem_singleton.mp member]
  obtain ⟨slices, _, asked, ran⟩ := Program.bind_eq_ok.mp ran
  simp only [asks, Program.gets_apply, Except.ok.injEq,
    Prod.mk.injEq] at asked
  obtain ⟨isSlices, rfl⟩ := asked
  obtain ⟨_, rebuilt, rebuilds, ran⟩ := Program.bind_eq_ok.mp ran
  have sitesRebuilt :
      Sites env.lang source ((leaf, eof, true) :: marks)
        (Above lexes (floor + (sliceGroups slices).length)) rebuilt := by
    refine Ensures.forEach ?_ _ _ _ ?_ rebuilds
    · intro slice member
      rw [← isSlices] at member
      exact sites_acceptPath recovers List.mem_cons_self
        (closed slice member) rfl ends
    · refine ⟨sitesPopped.graph, ?_, sitesPopped.reads⟩
      have enough := sitesPopped.rest
      rw [isSlices] at enough
      exact enough
  have forgets :
      ∀ {state : TFSpecState},
        Sites env.lang source ((leaf, eof, true) :: marks)
            (Above lexes floor) state →
          Sites env.lang source marks (Above lexes floor) state :=
    fun kept =>
      kept.remark (fun mark member => .inl (List.mem_cons_of_mem _ member))
  cases slices with
  | nil =>
      exact forgets (sites_modifyHead _ _ _ sitesRebuilt ran)
  | cons slice rest =>
      obtain ⟨_, cut, cuts, ran⟩ := Program.bind_eq_ok.mp ran
      have less := sites_removeHead _ _ _ _ sitesRebuilt cuts
      have enough :
          floor ≤ floor + (sliceGroups (slice :: rest)).length - 1 := by
        have some_ : 0 < (sliceGroups (slice :: rest)).length := by
          unfold sliceGroups
          split
          · split <;> exact Nat.zero_lt_succ _
          · exact Nat.zero_lt_succ _
        omega
      have sitesCut :
          Sites env.lang source ((leaf, eof, true) :: marks)
            (Above lexes floor) cut :=
        ⟨less.graph, ⟨less.rest.1, Nat.le_trans enough less.rest.2⟩,
          less.reads⟩
      exact forgets (sites_modifyHead _ _ _ sitesCut ran)

end Accepting

/-! ## Advancing and exploring -/

section Advancing

variable {source : List UInt8}
variable {marks : List (Nat × TFToken × Bool)}
variable {floor : Nat}
variable {env : TFSpecEnv}
variable (ends : EndsInput env.lang source)
variable
  (recovers :
    ∀ {marks} {fine},
      Maintains (Sites env.lang source marks fine) env.materialize)

include ends recovers

/-- The actions of an entry: heads that reductions leave are late ones. -/
theorem sites_advanceActions
    {version : Nat}
    {state : TSStateId}
    {token : TFToken}
    {actions : List TSParseAction}
    {last : Option Nat}
    {any : Bool}
    (inRange : version < floor)
    (sound : token.Sound env.lang source)
    (known :
      ∀ action ∈ actions, action ∈ env.lang.actions state token.symbol)
    (late : ∀ head, last = some head → floor ≤ head) :
    Ensures
      (Sites env.lang source marks
        (Above (TFLexer.Sited env.lang source) floor))
      (advanceActions env version state token actions last any)
      (fun pass state =>
        Sites env.lang source marks
            (Above (TFLexer.Sited env.lang source) floor) state ∧
          ∀ head any, pass = .reduced (some head) any → floor ≤ head) := by
  induction actions generalizing last any with
  | nil =>
      intro before value after sites ran
      cases ran
      refine ⟨sites, ?_⟩
      intro head any same
      cases same
      exact late head rfl
  | cons action rest inductionHypothesis =>
      have restKnown :
          ∀ action ∈ rest, action ∈ env.lang.actions state token.symbol :=
        fun action member => known action (List.mem_cons_of_mem _ member)
      intro before value after sites ran
      cases action with
      | shift target extra repetition =>
          obtain ⟨_, shifted, shifts, ran⟩ := Program.bind_eq_ok.mp ran
          cases ran
          exact ⟨sites_shift version sound.placed _ _ _ _ _ sites shifts,
            fun head any same => by cases same⟩
      | reduce childCount symbol dynamicPrecedence productionId =>
          obtain ⟨created, reduced, reduces, ran⟩ :=
            Program.bind_eq_ok.mp ran
          obtain ⟨sitesReduced, isCreated⟩ :=
            sites_reduce recovers _ _ _ _ _ _ _ _ sites reduces
          refine inductionHypothesis restKnown ?_ _ _ _ sitesReduced ran
          intro head same
          cases created with
          | some fresh => exact isCreated head same
          | none => exact late head same
      | accept =>
          obtain ⟨_, accepted, accepts, ran⟩ := Program.bind_eq_ok.mp ran
          cases ran
          have isEnd :=
            ends.accepts _ _ sound.terminal (known _ List.mem_cons_self)
          exact ⟨sites_accept recovers inRange sound.placed
              (sound.ends isEnd) _ _ _ sites accepts,
            fun head any same => by cases same⟩
      | recover =>
          exact inductionHypothesis restKnown late _ _ _ sites ran

omit ends recovers in
/-- Halting a head. -/
theorem sites_halt
    {fine : TFLexer → List TFSpecSlice → Nat → Prop}
    (version : Nat)
    (errored : Bool) :
    Maintains (Sites env.lang source marks fine) (halt version errored) :=
  sites_modifyHead

/-- One pass over the actions for a token, and what becomes of it. -/
theorem sites_advanceTurn
    {version : Nat}
    {keyword : Bool}
    {token : TFToken}
    (inRange : version < floor)
    (sound : token.Sound env.lang source)
    (words :
      keyword = true → env.lang.ts.keywordCaptureToken ≠ tsBuiltinSymEnd) :
    Ensures
      (Sites env.lang source marks
        (Above (TFLexer.Sited env.lang source) floor))
      (advanceTurn env version keyword token)
      (fun outcome state =>
        Sites env.lang source marks
            (Above (TFLexer.Sited env.lang source) floor) state ∧
          ∀ next, outcome = .inl next → next.Sound env.lang source) := by
  intro before outcome after sites ran
  unfold advanceTurn at ran
  obtain ⟨state, _, asked, ran⟩ := Program.bind_eq_ok.mp ran
  simp only [asks, Program.gets_apply, Except.ok.injEq,
    Prod.mk.injEq] at asked
  obtain ⟨_, rfl⟩ := asked
  obtain ⟨pass, passed, passes, ran⟩ := Program.bind_eq_ok.mp ran
  obtain ⟨sitesPassed, isLate⟩ :=
    sites_advanceActions ends recovers inRange sound
      (fun _ known => known) (fun head same => by cases same) _ _ _ sites
      passes
  cases pass with
  | «over» =>
      cases ran
      exact ⟨sitesPassed, fun next same => by cases same⟩
  | reduced last any =>
      cases last with
      | some last =>
          obtain ⟨_, moved, moves, ran⟩ := Program.bind_eq_ok.mp ran
          obtain ⟨_, removed, removes, ran⟩ := Program.bind_eq_ok.mp ran
          cases ran
          have sitesMoved := sites_modifyHead _ _ _ sitesPassed moves
          refine ⟨sites_removeHead_late (isLate last any rfl) _ _ _
            sitesMoved removes, ?_⟩
          intro next same
          cases same
          exact sound
      | none =>
          cases any with
          | true =>
              obtain ⟨_, stopped, halts, ran⟩ := Program.bind_eq_ok.mp ran
              cases ran
              exact ⟨sites_halt _ _ _ _ _ sitesPassed halts,
                fun next same => by cases same⟩
          | false =>
              cases demotes : token.demoteKeyword env.lang state keyword with
              | some demoted =>
                  rw [demotes] at ran
                  cases ran
                  refine ⟨sitesPassed, ?_⟩
                  intro next same
                  cases same
                  exact sound.demoteKeyword ends words demotes
              | none =>
                  rw [demotes] at ran
                  obtain ⟨_, reported, reports, ran⟩ :=
                    Program.bind_eq_ok.mp ran
                  obtain ⟨_, stopped, halts, ran⟩ :=
                    Program.bind_eq_ok.mp ran
                  cases ran
                  have sitesReported :
                      Sites env.lang source marks
                        (Above (TFLexer.Sited env.lang source) floor)
                        reported := by
                    cases reports
                    refine ⟨sitesPassed.graph.recordError
                      sound.placed.start _ _ _,
                      ⟨sitesPassed.rest.1, ?_⟩, sitesPassed.reads⟩
                    dsimp only
                    rw [heads_recordError]
                    exact sitesPassed.rest.2
                  exact ⟨sites_halt _ _ _ _ _ sitesReported halts,
                    fun next same => by cases same⟩

/-- Advancing a head past one token. -/
theorem sites_advance
    {version : Nat}
    (inRange : version < floor) :
    Maintains
      (Sites env.lang source marks
        (Above (TFLexer.Sited env.lang source) floor))
      (advance env version) := by
  unfold advance
  refine Maintains.bind sites_asks (fun head => ?_)
  intro before value after sites ran
  obtain ⟨found, lexed, lexes, ran⟩ := Program.bind_eq_ok.mp ran
  obtain ⟨sitesLexed, isSound⟩ := sites_lex ends _ _ _ _ sites lexes
  cases found with
  | none =>
      exact sites_halt _ _ _ _ _ sitesLexed ran
  | some found =>
      obtain ⟨token, keyword⟩ := found
      obtain ⟨sound, words⟩ := isSound token keyword rfl
      let Advances : TFToken → TFSpecState → Prop :=
        fun token state =>
          token.Sound env.lang source ∧
            Sites env.lang source marks
              (Above (TFLexer.Sited env.lang source) floor) state
      have turns :
          Ensures (Advances token)
            (Program.iterate .stuck (advanceTurn env version keyword)
              env.fuel token)
            (fun _ =>
              Sites env.lang source marks
                (Above (TFLexer.Sited env.lang source) floor)) := by
        refine Ensures.iterate ?_ env.fuel token
        intro current start outcome final advances turned
        obtain ⟨kept, isNext⟩ :=
          sites_advanceTurn ends recovers inRange advances.1 words _ _ _
            advances.2 turned
        cases outcome with
        | inl next => exact ⟨isNext next rfl, kept⟩
        | inr answer => exact kept
      exact turns _ _ _ ⟨sound, sitesLexed⟩ ran

/-- Advancing a head until it passes the others. -/
theorem sites_advanceHead
    {version : Nat}
    (inRange : version < floor)
    (lastPosition : Nat) :
    Maintains
      (Sites env.lang source marks
        (Above (TFLexer.Sited env.lang source) floor))
      (advanceHead env version lastPosition) := by
  unfold advanceHead
  refine Maintains.iterate (fun lastPosition => ?_) _ _
  refine Maintains.bind sites_asks (fun head => ?_)
  refine Maintains.ite Maintains.pure ?_
  refine Maintains.bind (sites_advance ends recovers inRange) (fun _ => ?_)
  refine Maintains.bind sites_asks (fun position => ?_)
  exact Maintains.ite Maintains.pure Maintains.pure

/-- Advancing every head. -/
theorem sites_advanceHeads
    (lastPosition : Nat) :
    Maintains
      (Sites env.lang source marks
        (Above (TFLexer.Sited env.lang source) 0))
      (advanceHeads env lastPosition) := by
  unfold advanceHeads
  refine Maintains.iterate (fun current => ?_) _ _
  intro before value after sites ran
  obtain ⟨count, _, asked, ran⟩ := Program.bind_eq_ok.mp ran
  cases asked
  split at ran
  · cases ran
    exact sites
  · rename_i more
    obtain ⟨position, advanced, advances, ran⟩ := Program.bind_eq_ok.mp ran
    cases ran
    have above_ :
        Sites env.lang source marks
          (Above (TFLexer.Sited env.lang source) (current.1 + 1)) before :=
      ⟨sites.graph, ⟨sites.rest.1, Nat.lt_of_not_le more⟩, sites.reads⟩
    have kept :=
      sites_advanceHead ends recovers (Nat.lt_succ_self _) _ _ _ _ above_
        advances
    exact ⟨kept.graph, ⟨kept.rest.1, Nat.zero_le _⟩, kept.reads⟩

/-- The rounds of a split; an accepted root is the one that it kept. -/
theorem sites_rounds :
    Ensures
      (Sites env.lang source marks
        (Above (TFLexer.Sited env.lang source) 0))
      (rounds env)
      (fun selection state =>
        Sites env.lang source marks
            (Above (TFLexer.Sited env.lang source) 0) state ∧
          ∀ root, selection = .accepted root →
            state.spec.finished = some root) := by
  let Rounding : Nat → TFSpecState → Prop :=
    fun _ =>
      Sites env.lang source marks (Above (TFLexer.Sited env.lang source) 0)
  change Ensures (Rounding 0) (rounds env) _
  unfold rounds
  refine Ensures.iterate ?_ env.fuel 0
  intro lastPosition before outcome after sites ran
  obtain ⟨position, advanced, advances, ran⟩ := Program.bind_eq_ok.mp ran
  have sitesAdvanced :=
    sites_advanceHeads ends recovers _ _ _ _ sites advances
  obtain ⟨_, condensed, condenses, ran⟩ := Program.bind_eq_ok.mp ran
  have kept := sites_condense recovers _ _ _ sitesAdvanced condenses
  obtain ⟨left, _, asked, ran⟩ := Program.bind_eq_ok.mp ran
  simp only [asks, Program.gets_apply, Except.ok.injEq,
    Prod.mk.injEq] at asked
  obtain ⟨isLeft, rfl⟩ := asked
  obtain ⟨finished, heads⟩ := left
  obtain ⟨isFinished, isHeads⟩ := Prod.mk.inj isLeft
  cases finished with
  | some root =>
      cases heads with
      | nil =>
          cases ran
          refine ⟨kept, ?_⟩
          intro again same
          cases same
          exact isFinished
      | cons head rest =>
          cases ran
          exact kept
  | none =>
      cases heads with
      | nil =>
          cases ran
          exact ⟨kept, fun root same => by cases same⟩
      | cons head rest =>
          cases rest with
          | cons next others =>
              cases ran
              exact kept
          | nil =>
              obtain ⟨isUnique, asked_, uniques, ran⟩ :=
                Program.bind_eq_ok.mp ran
              have keptUnique := sites_unique _ _ _ _ _ kept uniques
              split at ran
              · obtain ⟨_, popped, pops, ran⟩ := Program.bind_eq_ok.mp ran
                have keptPopped :=
                  (sites_pop _ _ _ _ _ _ keptUnique pops).unsliced
                obtain ⟨slices, _, asked, ran⟩ :=
                  Program.bind_eq_ok.mp ran
                simp only [asks, Program.gets_apply, Except.ok.injEq,
                  Prod.mk.injEq] at asked
                obtain ⟨_, rfl⟩ := asked
                cases slices with
                | nil =>
                    cases ran
                | cons slice others =>
                    cases ran
                    exact ⟨keptPopped, fun root same => by cases same⟩
              · cases ran
                exact keptUnique

/-- Exploring a conflict. -/
theorem sites_explore :
    Ensures
      (Sites env.lang source marks
        (Above (TFLexer.Sited env.lang source) 0))
      (explore env)
      (fun selection state =>
        Sites env.lang source marks
            (Above (TFLexer.Sited env.lang source) 0) state ∧
          ∀ root, selection = .accepted root →
            state.spec.finished = some root) := by
  unfold explore
  refine Ensures.bind (sites_reserve _ _) (fun _ => ?_)
  intro before value after sites ran
  obtain ⟨owner, _, asked, ran⟩ := Program.bind_eq_ok.mp ran
  cases asked
  obtain ⟨top, added, adds, ran⟩ := Program.bind_eq_ok.mp ran
  obtain ⟨_, begun, begins, ran⟩ := Program.bind_eq_ok.mp ran
  have onPath :
      OnPath source (forkNode before.spec.owner).place :=
    onPath_top sites.graph.cells
  have sitesAdded := sites_addNode onPath _ _ _ sites adds
  have sitesBegun := sites_newHead _ _ _ _ sitesAdded begins
  exact sites_rounds ends recovers _ _ _
    ⟨sitesBegun.graph, ⟨sitesBegun.rest.1, Nat.zero_le _⟩,
      sitesBegun.reads⟩ ran

end Advancing

end TFSpec

end TreeFeller
