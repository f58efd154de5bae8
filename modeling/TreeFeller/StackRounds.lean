import TreeFeller.StackRuns

namespace TreeFeller

open StatefulProgram

/-!
# The rounds of a split

What exploring a conflict comes to is a graph that its operations reach.
-/

namespace TFSpec

open Program

/-- A split between two advances, with a head of some version. -/
def Between
    (env : TFSpecEnv)
    (fork : TFSpecState)
    (version : Nat)
    (state : TFSpecState) : Prop :=
  (∃ ends roots, Explored env fork none ends roots state) ∧
    version < state.spec.heads.length

/-- A split that advances a head, with the last head it made on the way. -/
def Advancing
    (env : TFSpecEnv)
    (fork : TFSpecState)
    (acting : Acting)
    (last : Option Nat)
    (state : TFSpecState) : Prop :=
  (∃ ends roots, Explored env fork (some acting) ends roots state) ∧
    ∀ version, last = some version →
      acting.first ≤ version ∧ version < state.spec.heads.length

/-- Where a pass over an entry's actions leaves a split. -/
def Passed
    (env : TFSpecEnv)
    (fork : TFSpecState)
    (acting : Acting) :
    Pass → TFSpecState → Prop
  | .over, state => Between env fork acting.version state
  | .reduced last _, state => Advancing env fork acting last state

/-- One pass of an advance over the actions for its token. -/
def advanceTurn
    (env : TFSpecEnv)
    (version : Nat)
    (keyword : Bool)
    (token : TFToken) :
    SpecM (TFToken ⊕ Unit) := do
  let state ← asks (fun s => (s.node (s.head version).node).state)
  match ← advanceActions env version state token
      (env.lang.actions state token.symbol) none false with
  | .over => pure (.inr ())
  | .reduced (some last) _ =>
      update (fun s => s.modifyHead version (fun _ => s.head last))
      removeHead last
      pure (.inl token)
  | .reduced none true =>
      halt version false
      pure (.inr ())
  | .reduced none false =>
      match token.demoteKeyword env.lang state keyword with
      | some demoted => pure (.inl demoted)
      | none =>
          update (fun s =>
            s.recordError token.startByte token.startPoint state
              token.symbol false)
          halt version true
          pure (.inr ())

/-- Shifting keeps the number of heads. -/
theorem shift_heads
    {version : Nat}
    {token : TFToken}
    {state : TSStateId}
    {extra : Bool}
    {before after : TFSpecState}
    (ran : shift version token state extra before = .ok ((), after)) :
    after.spec.heads.length = before.spec.heads.length := by
  unfold shift at ran
  obtain ⟨head, _, asked, ran⟩ := Program.bind_eq_ok.mp ran
  cases asked
  obtain ⟨byte, _, asked, ran⟩ := Program.bind_eq_ok.mp ran
  cases asked
  obtain ⟨leaf, _, added, ran⟩ := Program.bind_eq_ok.mp ran
  obtain ⟨capacity, heap, rfl, rfl⟩ := newTree_ran added
  obtain ⟨top, _, pushes, ran⟩ := Program.bind_eq_ok.mp ran
  obtain ⟨rfl, capacity, heap, rfl⟩ := push_ran pushes
  cases ran
  exact List.length_modify _ _ _

/-- Two heads that change places. -/
theorem head_swapped
    (heads : List TFSpecHead)
    {i j : Nat}
    (iInRange : i < heads.length)
    (jInRange : j < heads.length)
    (version : Nat) :
    ((heads.set i (heads.getD j default)).set j (heads.getD i default)).getD
        version default =
      if version = j then heads.getD i default
      else if version = i then heads.getD j default
      else heads.getD version default := by
  simp only [List.getD_eq_getElem?_getD, List.getElem?_set,
    List.length_set]
  by_cases atJ : version = j
  · subst atJ
    simp [jInRange]
  · rw [if_neg (fun same => atJ same.symm), if_neg atJ]
    by_cases atI : version = i
    · subst atI
      simp [iInRange]
    · rw [if_neg (fun same => atI same.symm), if_neg atI]

section Rounds

variable {env : TFSpecEnv}
variable {fork : TFSpecState}
variable {depth : Nat}
variable (tables : SpanningTables env.lang)
variable (isReplay : env.materialize = materialize env.lang depth)
variable (forks : Forks env.lang fork)

include tables isReplay forks

/-- A reduction adds heads; the one it answers is the first of them. -/
theorem reduce_explored
    {ends roots : Nat → Prop}
    {acting : Acting}
    {state : TSStateId}
    {childCount productionId : Nat}
    {symbol : TSSymbol}
    {dynamicPrecedence : Int}
    {created : Option Nat}
    {before after : TFSpecState}
    (explored : Explored env fork (some acting) ends roots before)
    (known :
      .reduce childCount symbol dynamicPrecedence productionId ∈
        env.lang.actions state acting.token.symbol)
    (ran :
      reduce env acting.version childCount symbol dynamicPrecedence
          productionId before =
        .ok (created, after)) :
    before.spec.heads.length ≤ after.spec.heads.length ∧
      (after.spec.node (after.spec.head acting.version).node).state =
        (before.spec.node (before.spec.head acting.version).node).state ∧
      ∀ version, created = some version →
        acting.first ≤ version ∧ version < after.spec.heads.length := by
  have sound := explored.sound tables isReplay forks
  have acts := sound.acts acting rfl
  have positive := tables.reduces _ _ _ _ _ _ acts.token.terminal known
  obtain ⟨stays, finished, heads, _, isCreated⟩ :=
    reduce_stays (replay_stays isReplay) sound.settled
      (replay_heads isReplay) sound.stacked acts.going positive ran
  have within : acting.version < before.spec.heads.length :=
    Nat.lt_of_lt_of_le acts.inRange acts.within
  have sameHead :
      after.spec.head acting.version = before.spec.head acting.version := by
    unfold TFSpec.head
    rw [heads, List.getD_append _ _ _ _ within]
  refine ⟨?_, ?_, ?_⟩
  · rw [heads, List.length_append]
    exact Nat.le_add_right _ _
  · rw [sameHead]
    exact stays.evolves.state _
      (sound.stacked.linked.heads _ (head_mem within))
  · intro version same
    rw [isCreated] at same
    split at same
    · rename_i more
      cases same
      exact ⟨acts.within, more⟩
    · cases same

/-- The actions of an entry, taken in order. -/
theorem advanceActions_covers
    {acting : Acting}
    {state : TSStateId}
    {actions : List TSParseAction}
    {last : Option Nat}
    {any : Bool}
    {pass : Pass}
    {before after : TFSpecState}
    (known :
      ∀ action ∈ actions,
        action ∈ env.lang.actions state acting.token.symbol)
    (here :
      state =
        (before.spec.node (before.spec.head acting.version).node).state)
    (advancing : Advancing env fork acting last before)
    (ran :
      advanceActions env acting.version state acting.token actions last any
          before =
        .ok (pass, after)) :
    Passed env fork acting pass after := by
  induction actions generalizing last any before with
  | nil =>
      cases ran
      exact advancing
  | cons action rest inductionHypothesis =>
      have isKnown := known action (List.mem_cons_self ..)
      have restKnown :
          ∀ action ∈ rest,
            action ∈ env.lang.actions state acting.token.symbol :=
        fun action member => known action (List.mem_cons_of_mem _ member)
      obtain ⟨⟨ends, roots, explored⟩, isLast⟩ := advancing
      have sound := explored.sound tables isReplay forks
      have acts := sound.acts acting rfl
      have within : acting.version < before.spec.heads.length :=
        Nat.lt_of_lt_of_le acts.inRange acts.within
      cases action with
      | shift target extra repetition =>
          obtain ⟨_, _, shifts, ran⟩ := Program.bind_eq_ok.mp ran
          cases ran
          refine ⟨⟨ends, roots, explored.shifted here isKnown shifts⟩, ?_⟩
          rw [shift_heads shifts]
          exact within
      | reduce childCount symbol dynamicPrecedence productionId =>
          obtain ⟨created, reducedState, reduces, ran⟩ :=
            Program.bind_eq_ok.mp ran
          obtain ⟨more, same, isCreated⟩ :=
            reduce_explored tables isReplay forks explored isKnown reduces
          refine inductionHypothesis restKnown (here.trans same.symm)
            ⟨⟨ends, roots, explored.reduced isKnown reduces⟩, ?_⟩ ran
          intro version isVersion
          cases created with
          | some fresh =>
              exact isCreated version isVersion
          | none =>
              obtain ⟨own, inRange⟩ := isLast version isVersion
              exact ⟨own, Nat.lt_of_lt_of_le inRange more⟩
      | accept =>
          obtain ⟨_, _, accepts, ran⟩ := Program.bind_eq_ok.mp ran
          cases ran
          refine ⟨⟨_, _, explored.accepted accepts⟩, ?_⟩
          have leavesFinished : Keeps finishedOf env.materialize := by
            rw [isReplay]
            exact keeps_materialize env.lang depth
          exact (accept_stays (replay_stays isReplay)
            (replay_heads isReplay) leavesFinished sound.settled
            sound.stacked sound.abreast within acts.going sound.finished
            accepts).2.2.1
      | recover =>
          exact inductionHypothesis restKnown here
            ⟨⟨ends, roots, explored⟩, isLast⟩ ran

omit tables isReplay forks in
/-- Halting ends an advance. -/
theorem halt_covers
    {control : Option Acting}
    {ends roots : Nat → Prop}
    {version : Nat}
    {errored : Bool}
    {before after : TFSpecState}
    (explored : Explored env fork control ends roots before)
    (inRange : version < before.spec.heads.length)
    (ran : halt version errored before = .ok ((), after)) :
    Between env fork version after := by
  refine ⟨⟨ends, roots, explored.halted ran⟩, ?_⟩
  cases ran
  simp only [modifyHead, List.length_modify]
  exact inRange

/-- One pass over the actions for a token, and what becomes of it. -/
theorem advanceTurn_covers
    {acting : Acting}
    {outcome : TFToken ⊕ Unit}
    {before after : TFSpecState}
    (advancing : Advancing env fork acting none before)
    (ran :
      advanceTurn env acting.version acting.keyword acting.token before =
        .ok (outcome, after)) :
    match outcome with
    | .inl token => Advancing env fork { acting with token := token } none after
    | .inr _ => Between env fork acting.version after := by
  unfold advanceTurn at ran
  obtain ⟨state, _, asked, ran⟩ := Program.bind_eq_ok.mp ran
  simp only [asks, Program.gets_apply, Except.ok.injEq,
    Prod.mk.injEq] at asked
  obtain ⟨isState, rfl⟩ := asked
  obtain ⟨pass, passedState, passes, ran⟩ := Program.bind_eq_ok.mp ran
  have passed :=
    advanceActions_covers tables isReplay forks (fun _ known => known)
      isState.symm advancing passes
  cases pass with
  | «over» =>
      cases ran
      exact passed
  | reduced last any =>
      obtain ⟨⟨ends, roots, explored⟩, isLast⟩ := passed
      have sound := explored.sound tables isReplay forks
      have acts := sound.acts acting rfl
      have inRange : acting.version < passedState.spec.heads.length :=
        Nat.lt_of_lt_of_le acts.inRange acts.within
      cases last with
      | some last =>
          obtain ⟨_, moved, moves, ran⟩ := Program.bind_eq_ok.mp ran
          obtain ⟨_, removed, removes, ran⟩ := Program.bind_eq_ok.mp ran
          cases ran
          obtain ⟨own, lastInRange⟩ := isLast last rfl
          exact ⟨⟨ends, roots,
            explored.followed own lastInRange moves removes⟩,
            fun _ none_ => by cases none_⟩
      | none =>
          cases any with
          | true =>
              obtain ⟨_, stopped, halts, ran⟩ := Program.bind_eq_ok.mp ran
              cases ran
              exact halt_covers explored inRange halts
          | false =>
              cases demotes :
                  acting.token.demoteKeyword env.lang state
                    acting.keyword with
              | some demoted =>
                  rw [demotes] at ran
                  cases ran
                  exact ⟨⟨ends, roots, explored.demoted demotes⟩,
                    fun _ none_ => by cases none_⟩
              | none =>
                  rw [demotes] at ran
                  obtain ⟨_, reported, reports, ran⟩ :=
                    Program.bind_eq_ok.mp ran
                  obtain ⟨_, stopped, halts, ran⟩ :=
                    Program.bind_eq_ok.mp ran
                  cases ran
                  refine halt_covers (explored.reported reports) ?_ halts
                  cases reports
                  rw [(passedState.spec.recordError_leaves env.lang _ _ _ _
                    _).2.1]
                  exact inRange

/-- Advancing a head past one token. -/
theorem advance_covers
    {version : Nat}
    {before after : TFSpecState}
    (between : Between env fork version before)
    (going : (before.spec.head version).halted = false)
    (ran : advance env version before = .ok ((), after)) :
    Between env fork version after := by
  obtain ⟨⟨ends, roots, explored⟩, inRange⟩ := between
  unfold advance at ran
  obtain ⟨head, _, asked, ran⟩ := Program.bind_eq_ok.mp ran
  simp only [asks, Program.gets_apply, Except.ok.injEq,
    Prod.mk.injEq] at asked
  obtain ⟨rfl, rfl⟩ := asked
  obtain ⟨found, lexedState, lexes, ran⟩ := Program.bind_eq_ok.mp ran
  have sound := explored.sound tables isReplay forks
  obtain ⟨_, heads, _⟩ := lex_sound tables.tokens sound.cached lexes
  cases found with
  | none =>
      refine halt_covers (explored.unlexed lexes) ?_ ran
      rw [heads]
      exact inRange
  | some lexed =>
      obtain ⟨token, keyword⟩ := lexed
      let first := before.spec.heads.length
      let Advances : TFToken → TFSpecState → Prop :=
        fun token =>
          Advancing env fork ⟨version, first, token, keyword⟩ none
      have turns :
          Ensures (Advances token)
            (Program.iterate .stuck (advanceTurn env version keyword)
              env.fuel token)
            (fun _ state => Between env fork version state) := by
        refine Ensures.iterate ?_ env.fuel token
        intro current start outcome final advancing turned
        have covered :=
          advanceTurn_covers tables isReplay forks advancing turned
        cases outcome with
        | inl next => exact covered
        | inr answer => exact covered
      exact turns _ _ _
        ⟨⟨ends, roots, explored.lexed inRange going lexes⟩,
          fun _ none_ => by cases none_⟩
        ran

/-- Advancing a head until it passes the others. -/
theorem advanceHead_covers
    {version lastPosition position : Nat}
    {before after : TFSpecState}
    (between : Between env fork version before)
    (ran :
      advanceHead env version lastPosition before =
        .ok (position, after)) :
    Between env fork version after := by
  have turns :
      Ensures (Between env fork version)
        (advanceHead env version lastPosition)
        (fun _ state => Between env fork version state) := by
    unfold advanceHead
    refine Maintains.iterate ?_ env.fuel lastPosition
    intro lastPosition start outcome final between turned
    obtain ⟨head, _, asked, turned⟩ := Program.bind_eq_ok.mp turned
    simp only [asks, Program.gets_apply, Except.ok.injEq,
      Prod.mk.injEq] at asked
    obtain ⟨rfl, rfl⟩ := asked
    split at turned
    · cases turned
      exact between
    · rename_i going
      obtain ⟨_, advanced, advances, turned⟩ :=
        Program.bind_eq_ok.mp turned
      have covered :=
        advance_covers tables isReplay forks between
          (Bool.eq_false_iff.mpr going) advances
      obtain ⟨position, _, asked, turned⟩ := Program.bind_eq_ok.mp turned
      simp only [asks, Program.gets_apply, Except.ok.injEq,
        Prod.mk.injEq] at asked
      obtain ⟨_, rfl⟩ := asked
      split at turned <;>
        · cases turned
          exact covered
  exact turns _ _ _ between ran

/-- A split between two advances. -/
def Idle
    (env : TFSpecEnv)
    (fork : TFSpecState)
    (state : TFSpecState) : Prop :=
  ∃ ends roots, Explored env fork none ends roots state

/-- Advancing every head. -/
theorem advanceHeads_covers
    (lastPosition : Nat) :
    Ensures (Idle env fork) (advanceHeads env lastPosition)
      (fun _ state => Idle env fork state) := by
  unfold advanceHeads
  refine Maintains.iterate ?_ env.fuel (0, lastPosition)
  intro current start outcome final idle turned
  obtain ⟨count, _, asked, turned⟩ := Program.bind_eq_ok.mp turned
  simp only [asks, Program.gets_apply, Except.ok.injEq,
    Prod.mk.injEq] at asked
  obtain ⟨rfl, rfl⟩ := asked
  split at turned
  · cases turned
    exact idle
  · rename_i more
    obtain ⟨position, advanced, advances, turned⟩ :=
      Program.bind_eq_ok.mp turned
    cases turned
    exact (advanceHead_covers tables isReplay forks
      ⟨idle, Nat.lt_of_not_le more⟩ advances).1

omit tables isReplay forks in
/-- A merge that does nothing leaves everything. -/
theorem merge_false
    {materialize : SpecM Unit}
    {fuel a b : Nat}
    {before after : TFSpecState}
    (ran : merge materialize fuel a b before = .ok (false, after)) :
    after = before := by
  unfold merge at ran
  obtain ⟨agrees, _, asked, ran⟩ := Program.bind_eq_ok.mp ran
  simp only [asks, Program.gets_apply, Except.ok.injEq,
    Prod.mk.injEq] at asked
  obtain ⟨_, rfl⟩ := asked
  cases agrees with
  | false =>
      cases ran
      rfl
  | true =>
      rw [if_pos rfl] at ran
      obtain ⟨_, _, _, ran⟩ := Program.bind_eq_ok.mp ran
      obtain ⟨_, _, _, ran⟩ := Program.bind_eq_ok.mp ran
      obtain ⟨_, _, _, ran⟩ := Program.bind_eq_ok.mp ran
      obtain ⟨_, _, _, ran⟩ := Program.bind_eq_ok.mp ran
      cases ran

/-- A split between two advances, with the first heads going on. -/
def Condensing
    (env : TFSpecEnv)
    (fork : TFSpecState)
    (count : Nat)
    (state : TFSpecState) : Prop :=
  Idle env fork state ∧
    ∀ version < count, version < state.spec.heads.length →
      (state.spec.head version).halted = false

omit tables forks in
/-- Condensing one head merges it or moves it up. -/
theorem condenseHead_covers
    {precedence : Int}
    {i : Nat}
    {others : List Nat}
    {answer : Bool}
    {before after : TFSpecState}
    (condensing : Condensing env fork (i + 1) before)
    (inRange : i < before.spec.heads.length)
    (below : ∀ j ∈ others, j < i)
    (ran : condenseHead env precedence i others before = .ok (answer, after)) :
    Condensing env fork (if answer then i else i + 1) after := by
  induction others generalizing before with
  | nil =>
      cases ran
      exact condensing
  | cons j rest inductionHypothesis =>
      have restBelow : ∀ j ∈ rest, j < i :=
        fun other member => below other (List.mem_cons_of_mem _ member)
      have isBelow := below j (List.mem_cons_self ..)
      obtain ⟨⟨ends, roots, explored⟩, going⟩ := condensing
      unfold condenseHead at ran
      obtain ⟨outranks, _, asked, ran⟩ := Program.bind_eq_ok.mp ran
      simp only [asks, Program.gets_apply, Except.ok.injEq,
        Prod.mk.injEq] at asked
      obtain ⟨_, rfl⟩ := asked
      obtain ⟨merged, mergedState, merges, ran⟩ := Program.bind_eq_ok.mp ran
      cases merged with
      | true =>
          have heads := heads_merge (replay_heads isReplay) merges
          cases ran
          refine ⟨⟨ends, roots, explored.merged merges⟩, ?_⟩
          intro version within versionInRange
          rw [if_pos rfl] at within
          have same :
              after.spec.head version = before.spec.head version := by
            unfold TFSpec.head
            rw [heads, if_pos rfl, List.getD_eq_getElem?_getD,
              List.getElem?_eraseIdx_of_lt within,
              ← List.getD_eq_getElem?_getD]
          rw [same]
          exact going version (by omega) (by omega)
      | false =>
          rw [if_neg Bool.false_ne_true] at ran
          cases merge_false merges
          cases outranks with
          | false =>
              exact inductionHypothesis ⟨⟨ends, roots, explored⟩, going⟩
                inRange restBelow ran
          | true =>
              obtain ⟨_, swapped, swaps, ran⟩ := Program.bind_eq_ok.mp ran
              have swappedTo :=
                explored.swapped ⟨inRange, by omega⟩ swaps
              cases swaps
              refine inductionHypothesis ⟨⟨ends, roots, swappedTo⟩, ?_⟩ ?_
                restBelow ran
              · intro version within versionInRange
                have jInRange : j < before.spec.heads.length := by omega
                refine (congrArg TFSpecHead.halted
                  (head_swapped before.spec.heads inRange jInRange
                    version)).trans ?_
                split
                · exact going i (by omega) inRange
                · split
                  · exact going j (by omega) (by omega)
                  · simp only [List.length_set] at versionInRange
                    exact going version within versionInRange
              · simp only [List.length_set]
                exact inRange

omit tables forks in
/-- Condensing all heads leaves none that is halted. -/
theorem condense_covers :
    Ensures (Idle env fork) (condense env)
      (fun _ state =>
        Idle env fork state ∧
          ∀ head ∈ state.spec.heads, head.halted = false) := by
  have drops :
      Ensures (Condensing env fork 0)
        (Program.iterate .stuck
          (fun i => do
            if (← asks (fun s => s.heads.length)) ≤ i then
              pure (.inr ())
            else if (← asks (fun s => s.head i)).halted then
              removeHead i
              pure (.inl i)
            else
              let precedence ←
                asks (fun s => (s.node (s.head i).node).precedence)
              if ← condenseHead env precedence i (List.range i) then
                pure (.inl i)
              else
                pure (.inl (i + 1)))
          env.fuel 0)
        (fun _ state =>
          Idle env fork state ∧
            ∀ head ∈ state.spec.heads, head.halted = false) := by
    refine Ensures.iterate ?_ env.fuel 0
    intro i start outcome final condensing turned
    obtain ⟨count, _, asked, turned⟩ := Program.bind_eq_ok.mp turned
    simp only [asks, Program.gets_apply, Except.ok.injEq,
      Prod.mk.injEq] at asked
    obtain ⟨rfl, rfl⟩ := asked
    obtain ⟨⟨ends, roots, explored⟩, going⟩ := condensing
    split at turned
    · rename_i none_
      cases turned
      refine ⟨⟨ends, roots, explored⟩, ?_⟩
      intro head member
      obtain ⟨place, inRange, rfl⟩ := List.mem_iff_getElem.mp member
      have known := going place (by omega) inRange
      unfold TFSpec.head at known
      rw [List.getD_eq_getElem _ _ inRange] at known
      exact known
    · rename_i more
      obtain ⟨head, _, asked, turned⟩ := Program.bind_eq_ok.mp turned
      simp only [asks, Program.gets_apply, Except.ok.injEq,
        Prod.mk.injEq] at asked
      obtain ⟨isHead, rfl⟩ := asked
      split at turned
      · obtain ⟨_, removed, removes, turned⟩ := Program.bind_eq_ok.mp turned
        have removedTo := explored.removed removes
        cases removes
        cases turned
        refine ⟨⟨ends, roots, removedTo⟩, ?_⟩
        intro version within versionInRange
        have same :
            (start.spec.heads.eraseIdx i).getD version default =
              start.spec.head version := by
          unfold TFSpec.head
          rw [List.getD_eq_getElem?_getD,
            List.getElem?_eraseIdx_of_lt within,
            ← List.getD_eq_getElem?_getD]
        exact (congrArg TFSpecHead.halted same).trans
          (going version within (by omega))
      · rename_i isGoing
        obtain ⟨precedence, _, asked, turned⟩ :=
          Program.bind_eq_ok.mp turned
        simp only [asks, Program.gets_apply, Except.ok.injEq,
          Prod.mk.injEq] at asked
        obtain ⟨_, rfl⟩ := asked
        obtain ⟨answer, condensed, condenses, turned⟩ :=
          Program.bind_eq_ok.mp turned
        have covered :=
          condenseHead_covers isReplay
            ⟨⟨ends, roots, explored⟩, fun version within inRange => by
              by_cases last : version = i
              · rw [last, isHead]
                exact Bool.eq_false_iff.mpr isGoing
              · exact going version (by omega) inRange⟩
            (Nat.lt_of_not_le more)
            (fun j member => List.mem_range.mp member) condenses
        cases answer with
        | true =>
            cases turned
            exact covered
        | false =>
            cases turned
            exact covered
  unfold condense
  intro before value after idle ran
  obtain ⟨_, dropped, dropping, ran⟩ := Program.bind_eq_ok.mp ran
  obtain ⟨⟨ends, roots, explored⟩, going⟩ :=
    drops _ _ _ ⟨idle, fun version none_ => absurd none_ (Nat.not_lt_zero _)⟩
      dropping
  obtain ⟨count, _, asked, ran⟩ := Program.bind_eq_ok.mp ran
  simp only [asks, Program.gets_apply, Except.ok.injEq,
    Prod.mk.injEq] at asked
  obtain ⟨_, rfl⟩ := asked
  split at ran
  · obtain ⟨_, flagged, flags, ran⟩ := Program.bind_eq_ok.mp ran
    have cutTo := (explored.flagged flags).cut ran
    cases flags
    cases ran
    exact ⟨⟨ends, roots, cutTo⟩,
      fun head member => going head (List.mem_of_mem_take member)⟩
  · cases ran
    exact ⟨⟨ends, roots, explored⟩, going⟩

omit tables isReplay forks in
/-- Looking for a second path changes nothing. -/
theorem unique_same
    (fuel node : Nat) :
    Keeps (fun state : TFSpecState => state) (unique fuel node) := by
  unfold unique
  refine Keeps.iterate (fun node => ?_) fuel node
  refine Keeps.bind (fun _ _ _ ran => by cases ran; rfl) (fun links => ?_)
  split
  · exact Keeps.pure
  · exact Keeps.pure
  · exact Keeps.pure

/-- What a split that is over comes to. -/
inductive Concluded
    (env : TFSpecEnv)
    (fork : TFSpecState) :
    Selection → TFSpecState → Prop where
  | path
      {ends roots : Nat → Prop}
      {head : TFSpecHead}
      {slice : TFSpecSlice}
      {before after : TFSpecState}
      (explored : Explored env fork none ends roots before)
      (alone : before.spec.heads = [head])
      (going : head.halted = false)
      (pops : pop env.fuel 0 none before = .ok ((), after))
      (isSlice : slice ∈ after.spec.slices) :
      Concluded env fork (.path slice.children head.node) after
  | accepted
      {ends roots : Nat → Prop}
      {root : Nat}
      {state : TFSpecState}
      (explored : Explored env fork none ends roots state)
      (finished : state.spec.finished = some root) :
      Concluded env fork (.accepted root) state
  | dead
      {state : TFSpecState}
      (idle : Idle env fork state) :
      Concluded env fork .dead state

/-- The rounds of a split. -/
theorem rounds_covers :
    Ensures (Idle env fork) (rounds env) (Concluded env fork) := by
  let Waits : Nat → TFSpecState → Prop := fun _ => Idle env fork
  change Ensures (Waits 0) (rounds env) (Concluded env fork)
  unfold rounds
  refine Ensures.iterate ?_ env.fuel 0
  intro lastPosition start outcome final idle ran
  obtain ⟨position, advanced, advances, ran⟩ := Program.bind_eq_ok.mp ran
  have advancedIdle :=
    advanceHeads_covers tables isReplay forks _ _ _ _ idle advances
  obtain ⟨_, before, condenses, ran⟩ := Program.bind_eq_ok.mp ran
  obtain ⟨⟨ends, roots, explored⟩, going⟩ :=
    condense_covers isReplay _ _ _ advancedIdle condenses
  obtain ⟨found, _, asked, ran⟩ := Program.bind_eq_ok.mp ran
  simp only [asks, Program.gets_apply, Except.ok.injEq,
    Prod.mk.injEq] at asked
  obtain ⟨isFound, rfl⟩ := asked
  split at ran
  · cases ran
    exact .accepted explored (congrArg Prod.fst isFound)
  · cases ran
    exact .dead ⟨ends, roots, explored⟩
  · rename_i head
    obtain ⟨single, same, looks, ran⟩ := Program.bind_eq_ok.mp ran
    have unchanged : same = before := unique_same _ _ _ _ _ looks
    rw [unchanged] at ran
    split at ran
    · obtain ⟨_, popped, pops, ran⟩ := Program.bind_eq_ok.mp ran
      obtain ⟨slices, _, asked, ran⟩ := Program.bind_eq_ok.mp ran
      simp only [asks, Program.gets_apply, Except.ok.injEq,
        Prod.mk.injEq] at asked
      obtain ⟨isSlices, rfl⟩ := asked
      split at ran
      · rename_i slice rest
        cases ran
        have alone : before.spec.heads = [head] :=
          congrArg Prod.snd isFound
        refine .path explored alone ?_ pops ?_
        · refine going head ?_
          rw [alone]
          exact List.mem_singleton_self _
        · rw [isSlices]
          exact List.mem_cons_self ..
      · cases ran
    · cases ran
      exact ⟨ends, roots, explored⟩
  · cases ran
    exact ⟨ends, roots, explored⟩

/-- What exploring a conflict comes to is reached by its operations. -/
theorem explore_covers
    {selection : Selection}
    {after : TFSpecState}
    (ran : explore env fork = .ok (selection, after)) :
    Concluded env fork selection after := by
  unfold explore at ran
  obtain ⟨_, reserved, room, ran⟩ := Program.bind_eq_ok.mp ran
  obtain ⟨owner, _, asked, ran⟩ := Program.bind_eq_ok.mp ran
  simp only [asks, Program.gets_apply, Except.ok.injEq,
    Prod.mk.injEq] at asked
  obtain ⟨rfl, rfl⟩ := asked
  obtain ⟨top, placed, node, ran⟩ := Program.bind_eq_ok.mp ran
  obtain ⟨version, headed, head, ran⟩ := Program.bind_eq_ok.mp ran
  exact rounds_covers tables isReplay forks _ _ _
    ⟨_, _, .begun room node head⟩ ran

end Rounds

end TFSpec

end TreeFeller
