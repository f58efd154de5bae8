import TreeFeller.GraftedRoots

namespace TreeFeller

open StatefulProgram

/-!
# Every graph of a split is of grafted trees

One operation after another keeps the trees on the links grafted, and the root
that is kept so far over a whole stack of such trees.
-/

namespace TFSpec

open Program TFSpecState

section Explorations

variable {env : TFSpecEnv}
variable {fork : TFSpecState}
variable {depth : Nat}

/-- The first graph has no trees. -/
theorem begun_thrives
    {lang : TFLanguage}
    {top version : Nat}
    {reserved placed after : TFSpecState}
    (forks : Forks lang fork)
    (room : reserve .nodes 1 fork = .ok ((), reserved))
    (node :
      addNode (forkNode reserved.spec.owner) reserved =
        .ok (top, placed))
    (head : newHead top placed = .ok (version, after)) :
    Thrives after.spec := by
  have stacked := (begun_sound forks room node head).stacked
  obtain ⟨self, owner, token, lexState, keyword, isFork, _, _⟩ :=
    forks.begins
  obtain ⟨capacity, heap, rfl⟩ := reserve_eq_ok room
  unfold addNode at node
  obtain ⟨count, _, asked, node⟩ := Program.bind_eq_ok.mp node
  cases asked
  obtain ⟨_, _, added, node⟩ := Program.bind_eq_ok.mp node
  cases added
  cases node
  obtain ⟨capacity, heap, rfl, rfl⟩ := newHead_eq_ok head
  refine ⟨⟨?_, stacked.isSealed, stacked.unrolling.frontier, ?_⟩, ?_⟩
  · dsimp only
    rw [isFork]
    exact nofun
  · intro index link isLink
    unfold TFSpec.node at isLink
    dsimp only at isLink
    rw [isFork] at isLink
    cases index with
    | zero => cases isLink
    | succ index => cases isLink
  · dsimp only
    rw [isFork]
    exact nofun

/-- An operation that leaves the graph. -/
theorem Thrives.aside
    {before after : TFSpec}
    (thrives : Thrives before)
    (same : SameGraph before after)
    (finished : after.finished = before.finished) :
    Thrives after :=
  thrives.later (thrives.grafting.carries.aside same).tends finished

/-- Every graph of a split is one of grafted trees. -/
theorem Explored.thrives
    (tables : SpanningTables env.lang)
    (isReplay : env.materialize = materialize env.lang depth)
    (forks : Forks env.lang fork)
    {control : Option Acting}
    {ends roots : Nat → Prop}
    {state : TFSpecState}
    (explored : Explored env fork control ends roots state) :
    Thrives state.spec := by
  have recovers : ∀ given, CarriesOn given env.materialize := by
    intro given
    rw [isReplay]
    exact carries_materialize given env.lang depth
  have observes : Keeps finishedOf env.materialize := by
    rw [isReplay]
    exact keeps_materialize env.lang depth
  induction explored with
  | begun room node head =>
      exact begun_thrives forks room node head
  | lexed earlier inRange going ran inductionHypothesis =>
      have sound := earlier.sound tables isReplay forks
      exact inductionHypothesis.aside
        (lex_sound tables.tokens sound.cached ran).1
        (finished_lex _ _ _ _ _ ran)
  | unlexed earlier ran inductionHypothesis =>
      have sound := earlier.sound tables isReplay forks
      exact inductionHypothesis.aside
        (lex_sound tables.tokens sound.cached ran).1
        (finished_lex _ _ _ _ _ ran)
  | @shifted ends roots acting state target extra repetition before after
      earlier here known ran inductionHypothesis =>
      have sound := earlier.sound tables isReplay forks
      have acts := sound.acts acting rfl
      have beyond :=
        sound.abreast.head (Nat.lt_of_lt_of_le acts.inRange acts.within)
          acts.going
      have sameFinished : finishedOf after = finishedOf before :=
        keeps_shift _ _ _ _ _ _ _ ran
      exact inductionHypothesis.later
        (shift_tends inductionHypothesis.grafting beyond ran) sameFinished
  | @reduced ends roots acting childCount productionId symbol
      dynamicPrecedence state created before after earlier known ran
      inductionHypothesis =>
      have sound := earlier.sound tables isReplay forks
      have acts := sound.acts acting rfl
      have beyond :=
        sound.abreast.head (Nat.lt_of_lt_of_le acts.inRange acts.within)
          acts.going
      have positive :=
        tables.reduces _ _ _ _ _ _ acts.token.terminal known
      have sameFinished : finishedOf after = finishedOf before :=
        keeps_reduce observes _ _ _ _ _ _ _ _ ran
      exact inductionHypothesis.later
        (reduce_tends recovers inductionHypothesis.grafting sound.stacked
          (sound.stacked.head sound.settled acts.going) beyond positive ran)
        sameFinished
  | @accepted ends roots acting before after earlier ran
      inductionHypothesis =>
      have sound := earlier.sound tables isReplay forks
      have acts := sound.acts acting rfl
      exact accept_thrives recovers observes sound.settled sound.stacked
        sound.abreast (Nat.lt_of_lt_of_le acts.inRange acts.within)
        acts.going inductionHypothesis ran
  | followed earlier own inRange moves ran inductionHypothesis =>
      cases moves
      cases ran
      exact inductionHypothesis.aside
        ⟨rfl, rfl, rfl, rfl, rfl, rfl, rfl, rfl, rfl⟩ rfl
  | demoted earlier demotes inductionHypothesis =>
      exact inductionHypothesis
  | halted earlier ran inductionHypothesis =>
      cases ran
      exact inductionHypothesis.aside
        ⟨rfl, rfl, rfl, rfl, rfl, rfl, rfl, rfl, rfl⟩ rfl
  | @reported control ends roots byte point state symbol isLex before after
      earlier ran inductionHypothesis =>
      cases ran
      exact inductionHypothesis.aside
        (before.spec.recordError_leaves env.lang byte point state symbol
          isLex).1
        (finished_recordError _ _ _ _ _ _)
  | @merged ends roots a b answer before after earlier ran
      inductionHypothesis =>
      have sameFinished : finishedOf after = finishedOf before :=
        keeps_merge observes _ _ _ _ _ _ ran
      exact inductionHypothesis.later
        (carries_merge (recovers _) _ _ _ _ _ _
          inductionHypothesis.grafting.carries ran).tends
        sameFinished
  | removed earlier ran inductionHypothesis =>
      cases ran
      exact inductionHypothesis.aside
        ⟨rfl, rfl, rfl, rfl, rfl, rfl, rfl, rfl, rfl⟩ rfl
  | swapped earlier inRange ran inductionHypothesis =>
      cases ran
      exact inductionHypothesis.aside
        ⟨rfl, rfl, rfl, rfl, rfl, rfl, rfl, rfl, rfl⟩ rfl
  | cut earlier ran inductionHypothesis =>
      cases ran
      exact inductionHypothesis.aside
        ⟨rfl, rfl, rfl, rfl, rfl, rfl, rfl, rfl, rfl⟩ rfl
  | flagged earlier ran inductionHypothesis =>
      cases ran
      exact inductionHypothesis.aside
        ⟨rfl, rfl, rfl, rfl, rfl, rfl, rfl, rfl, rfl⟩ rfl

end Explorations

end TFSpec

end TreeFeller
