import Mathlib.Logic.Basic

/-!
# Partial correctness of stateful programs that may stop

A program reads and updates a state and either returns a value or stops with
an error.  `Ensures` is its partial correctness judgment: whenever the program
returns from a state satisfying the precondition, the postcondition holds of
the value and the state it leaves.  Nothing is said of a run that stops.

Loops are `forEach`, over a list, and `iterate`, which repeats a body until it
answers and stops with a given error once its fuel is used up.  Each comes
with its invariant rule.
-/

namespace StatefulProgram

/-- A program over states `σ` that returns an `α` or stops with an `ε`. -/
def Program (ε σ α : Type) : Type :=
  σ → Except ε (α × σ)

namespace Program

variable {ε σ α β γ : Type}

/-- Return a value and leave the state alone. -/
protected def pure (value : α) : Program ε σ α :=
  fun state => .ok (value, state)

/-- Run one program, then the one its value selects. -/
protected def bind
    (first : Program ε σ α)
    (next : α → Program ε σ β) :
    Program ε σ β :=
  fun state =>
    match first state with
    | .error stop => .error stop
    | .ok (value, after) => next value after

instance : Monad (Program ε σ) where
  pure := Program.pure
  bind := Program.bind

/-- Stop with an error. -/
def stop (error : ε) : Program ε σ α :=
  fun _ => .error error

/-- Read the state. -/
def get : Program ε σ σ :=
  fun state => .ok (state, state)

/-- Read a function of the state. -/
def gets (project : σ → α) : Program ε σ α :=
  fun state => .ok (project state, state)

/-- Update the state. -/
def modify (update : σ → σ) : Program ε σ Unit :=
  fun state => .ok ((), update state)

/-- Update the state and answer with a value read from it. -/
def modifyGet (update : σ → α × σ) : Program ε σ α :=
  fun state => .ok (update state)

/-- Run a program on every element of a list, in order. -/
def forEach (action : α → Program ε σ Unit) : List α → Program ε σ Unit
  | [] => pure ()
  | item :: rest => do
      action item
      forEach action rest

/--
Repeat `body` until it answers `inr`.  Running out of fuel stops the program
with `exhausted`.
-/
def iterate
    (exhausted : ε)
    (body : α → Program ε σ (α ⊕ β)) :
    Nat → α → Program ε σ β
  | 0, _ => stop exhausted
  | fuel + 1, current => do
      match ← body current with
      | .inl next => iterate exhausted body fuel next
      | .inr answer => pure answer

@[simp] theorem pure_apply (value : α) (state : σ) :
    (pure value : Program ε σ α) state = .ok (value, state) :=
  rfl

@[simp] theorem stop_apply (error : ε) (state : σ) :
    (stop error : Program ε σ α) state = .error error :=
  rfl

@[simp] theorem get_apply (state : σ) :
    (get : Program ε σ σ) state = .ok (state, state) :=
  rfl

@[simp] theorem gets_apply (project : σ → α) (state : σ) :
    (gets project : Program ε σ α) state = .ok (project state, state) :=
  rfl

@[simp] theorem modify_apply (update : σ → σ) (state : σ) :
    (modify update : Program ε σ Unit) state = .ok ((), update state) :=
  rfl

@[simp] theorem modifyGet_apply (update : σ → α × σ) (state : σ) :
    (modifyGet update : Program ε σ α) state = .ok (update state) :=
  rfl

/-- A composition returns exactly when both of its parts do. -/
theorem bind_eq_ok
    {first : Program ε σ α}
    {next : α → Program ε σ β}
    {before after : σ}
    {answer : β} :
    (first >>= next) before = .ok (answer, after) ↔
      ∃ value middle,
        first before = .ok (value, middle) ∧
          next value middle = .ok (answer, after) := by
  show Program.bind first next before = _ ↔ _
  unfold Program.bind
  cases result : first before with
  | error stopped =>
      simp
  | ok pair =>
      rcases pair with ⟨value, middle⟩
      constructor
      · intro nextRun
        exact ⟨value, middle, rfl, nextRun⟩
      · rintro ⟨_, _, ⟨⟩, nextRun⟩
        exact nextRun

/-- A composition goes on from where its first part returned. -/
theorem bind_of_ok
    {first : Program ε σ α}
    {next : α → Program ε σ β}
    {before middle : σ}
    {value : α}
    (returned : first before = .ok (value, middle)) :
    (first >>= next) before = next value middle := by
  show Program.bind first next before = _
  unfold Program.bind
  rw [returned]

/-- A composition stops where its first part does. -/
theorem bind_of_error
    {first : Program ε σ α}
    {next : α → Program ε σ β}
    {before : σ}
    {error : ε}
    (stopped : first before = .error error) :
    (first >>= next) before = .error error := by
  show Program.bind first next before = _
  unfold Program.bind
  rw [stopped]

section Iterate

variable {exhausted : ε}
variable {body : α → Program ε σ (α ⊕ β)}
variable {fuel : Nat}
variable {current : α}
variable {before middle : σ}

/-- A loop goes on with what its body asks for. -/
theorem iterate_next
    {next : α}
    (went : body current before = .ok (.inl next, middle)) :
    iterate exhausted body (fuel + 1) current before =
      iterate exhausted body fuel next middle := by
  rw [iterate, bind_of_ok went]

/-- A loop ends with its body's answer. -/
theorem iterate_answer
    {answer : β}
    (went : body current before = .ok (.inr answer, middle)) :
    iterate exhausted body (fuel + 1) current before =
      .ok (answer, middle) := by
  rw [iterate, bind_of_ok went]
  rfl

/-- A loop stops where its body does. -/
theorem iterate_stopped
    {error : ε}
    (went : body current before = .error error) :
    iterate exhausted body (fuel + 1) current before = .error error := by
  rw [iterate, bind_of_error went]

end Iterate

/--
Partial correctness: a run from a state satisfying `before` that returns
leaves a value and a state satisfying `after`.
-/
def Ensures
    (before : σ → Prop)
    (program : Program ε σ α)
    (after : α → σ → Prop) : Prop :=
  ∀ state value final,
    before state →
    program state = .ok (value, final) →
    after value final

namespace Ensures

/-- Returning a value establishes what already holds of it. -/
theorem pure
    {value : α}
    {after : α → σ → Prop} :
    Ensures (after value) (Pure.pure value : Program ε σ α) after := by
  intro state answer final holds run
  cases run
  exact holds

/-- A program that stops returns nothing, so it establishes everything. -/
theorem stop
    {before : σ → Prop}
    {error : ε}
    {after : α → σ → Prop} :
    Ensures before (Program.stop error) after := by
  intro state answer final _ run
  cases run

/-- Sequential composition. -/
theorem bind
    {before : σ → Prop}
    {first : Program ε σ α}
    {middle : α → σ → Prop}
    {next : α → Program ε σ β}
    {after : β → σ → Prop}
    (firstEnsures : Ensures before first middle)
    (nextEnsures : ∀ value, Ensures (middle value) (next value) after) :
    Ensures before (first >>= next) after := by
  intro state answer final holds run
  obtain ⟨value, reached, firstRun, nextRun⟩ := bind_eq_ok.mp run
  exact nextEnsures value _ _ _
    (firstEnsures _ _ _ holds firstRun) nextRun

/-- Strengthen the precondition and weaken the postcondition. -/
theorem consequence
    {before before' : σ → Prop}
    {program : Program ε σ α}
    {after after' : α → σ → Prop}
    (ensures : Ensures before program after)
    (strengthen : ∀ state, before' state → before state)
    (weaken : ∀ value state, after value state → after' value state) :
    Ensures before' program after' := by
  intro state answer final holds run
  exact weaken _ _ (ensures _ _ _ (strengthen _ holds) run)

/-- Strengthen the precondition only. -/
theorem strengthen
    {before before' : σ → Prop}
    {program : Program ε σ α}
    {after : α → σ → Prop}
    (ensures : Ensures before program after)
    (stronger : ∀ state, before' state → before state) :
    Ensures before' program after :=
  ensures.consequence stronger (fun _ _ holds => holds)

/-- Weaken the postcondition only. -/
theorem weaken
    {before : σ → Prop}
    {program : Program ε σ α}
    {after after' : α → σ → Prop}
    (ensures : Ensures before program after)
    (weaker : ∀ value state, after value state → after' value state) :
    Ensures before program after' :=
  ensures.consequence (fun _ holds => holds) weaker

/-- The invariant rule of a loop over a list. -/
theorem forEach
    {action : α → Program ε σ Unit}
    {items : List α}
    {invariant : σ → Prop}
    (step :
      ∀ item, item ∈ items →
        Ensures invariant (action item) (fun _ => invariant)) :
    Ensures invariant (Program.forEach action items)
      (fun _ => invariant) := by
  induction items with
  | nil =>
      intro state value final holds run
      cases run
      exact holds
  | cons item rest inductionHypothesis =>
      refine bind (step item (by simp)) (fun _ => ?_)
      exact inductionHypothesis
        (fun later member => step later (by simp [member]))

/-- The invariant rule of a loop that runs until its body answers. -/
theorem iterate
    {exhausted : ε}
    {body : α → Program ε σ (α ⊕ β)}
    {invariant : α → σ → Prop}
    {after : β → σ → Prop}
    (step :
      ∀ current,
        Ensures (invariant current) (body current)
          (fun outcome state =>
            match outcome with
            | .inl next => invariant next state
            | .inr answer => after answer state))
    (fuel : Nat)
    (current : α) :
    Ensures (invariant current)
      (Program.iterate exhausted body fuel current) after := by
  induction fuel generalizing current with
  | zero =>
      exact stop
  | succ fuel inductionHypothesis =>
      refine bind (step current) (fun outcome => ?_)
      cases outcome with
      | inl next =>
          exact inductionHypothesis next
      | inr answer =>
          exact pure

end Ensures

/-! ## Invariants -/

/-- A program that returns maintains an invariant, whatever it answers. -/
abbrev Maintains (invariant : σ → Prop) (program : Program ε σ α) : Prop :=
  Ensures invariant program (fun _ => invariant)

namespace Maintains

variable {invariant : σ → Prop}

/-- Returning a value. -/
theorem pure
    {value : α} :
    Maintains invariant (Pure.pure value : Program ε σ α) := by
  intro state answer final holds run
  cases run
  exact holds

/-- Sequential composition. -/
theorem bind
    {first : Program ε σ α}
    {next : α → Program ε σ β}
    (firstMaintains : Maintains invariant first)
    (nextMaintains : ∀ value, Maintains invariant (next value)) :
    Maintains invariant (first >>= next) :=
  Ensures.bind firstMaintains nextMaintains

/-- A choice between two programs. -/
theorem ite
    {condition : Prop}
    [Decidable condition]
    {first second : Program ε σ α}
    (firstMaintains : Maintains invariant first)
    (secondMaintains : Maintains invariant second) :
    Maintains invariant (if condition then first else second) := by
  by_cases holds : condition
  · rw [if_pos holds]
    exact firstMaintains
  · rw [if_neg holds]
    exact secondMaintains

/-- A loop that runs until its body answers. -/
theorem iterate
    {exhausted : ε}
    {body : α → Program ε σ (α ⊕ β)}
    (step : ∀ current, Maintains invariant (body current))
    (fuel : Nat)
    (current : α) :
    Maintains invariant (Program.iterate exhausted body fuel current) := by
  induction fuel generalizing current with
  | zero =>
      exact Ensures.stop
  | succ fuel inductionHypothesis =>
      refine bind (step current) (fun outcome => ?_)
      cases outcome with
      | inl next =>
          exact inductionHypothesis next
      | inr answer =>
          exact pure

end Maintains

/-! ## Frames -/

/-- A program that returns leaves a part of the state as it was. -/
def Keeps (part : σ → γ) (program : Program ε σ α) : Prop :=
  ∀ before value after,
    program before = .ok (value, after) → part after = part before

namespace Keeps

variable {part : σ → γ}

/-- Returning a value. -/
theorem pure
    {value : α} :
    Keeps part (Pure.pure value : Program ε σ α) := by
  intro before answer after run
  cases run
  rfl

/-- Stopping. -/
theorem stop
    {error : ε} :
    Keeps part (Program.stop error : Program ε σ α) := by
  intro before answer after run
  cases run

/-- Reading a function of the state. -/
theorem gets
    {project : σ → α} :
    Keeps part (Program.gets project : Program ε σ α) := by
  intro before answer after run
  cases run
  rfl

/-- Updating other parts of the state. -/
theorem modify
    {update : σ → σ}
    (same : ∀ state, part (update state) = part state) :
    Keeps part (Program.modify update : Program ε σ Unit) := by
  intro before answer after run
  cases run
  exact same before

/-- Updating other parts of the state, with an answer. -/
theorem modifyGet
    {update : σ → α × σ}
    (same : ∀ state, part (update state).2 = part state) :
    Keeps part (Program.modifyGet update : Program ε σ α) := by
  intro before answer after run
  simp only [modifyGet_apply, Except.ok.injEq] at run
  rw [← same before, run]

/-- Sequential composition. -/
theorem bind
    {first : Program ε σ α}
    {next : α → Program ε σ β}
    (firstKeeps : Keeps part first)
    (nextKeeps : ∀ value, Keeps part (next value)) :
    Keeps part (first >>= next) := by
  intro before answer after run
  obtain ⟨value, middle, firstRun, nextRun⟩ := bind_eq_ok.mp run
  exact (nextKeeps value _ _ _ nextRun).trans (firstKeeps _ _ _ firstRun)

/-- A choice between two programs. -/
theorem ite
    {condition : Prop}
    [Decidable condition]
    {first second : Program ε σ α}
    (firstKeeps : Keeps part first)
    (secondKeeps : Keeps part second) :
    Keeps part (if condition then first else second) := by
  by_cases holds : condition
  · rw [if_pos holds]
    exact firstKeeps
  · rw [if_neg holds]
    exact secondKeeps

/-- A loop over a list. -/
theorem forEach
    {action : α → Program ε σ Unit}
    {items : List α}
    (step : ∀ item, Keeps part (action item)) :
    Keeps part (Program.forEach action items) := by
  induction items with
  | nil =>
      exact pure
  | cons item rest inductionHypothesis =>
      exact bind (step item) (fun _ => inductionHypothesis)

/-- A loop that runs until its body answers. -/
theorem iterate
    {exhausted : ε}
    {body : α → Program ε σ (α ⊕ β)}
    (step : ∀ current, Keeps part (body current))
    (fuel : Nat)
    (current : α) :
    Keeps part (Program.iterate exhausted body fuel current) := by
  induction fuel generalizing current with
  | zero =>
      exact stop
  | succ fuel inductionHypothesis =>
      refine bind (step current) (fun outcome => ?_)
      cases outcome with
      | inl next =>
          exact inductionHypothesis next
      | inr answer =>
          exact pure

/-- What holds of a kept part goes on holding. -/
theorem ensures
    {program : Program ε σ α}
    (keeps : Keeps part program)
    (holds : γ → Prop) :
    Ensures (fun state => holds (part state)) program
      (fun _ state => holds (part state)) := by
  intro before answer after held run
  rw [keeps before answer after run]
  exact held

end Keeps

/-! ## Programs that do not get stuck -/

/-- A program that never stops with an error, from any state. -/
def Avoids (error : ε) (program : Program ε σ α) : Prop :=
  ∀ state, program state ≠ .error error

namespace Avoids

variable {error : ε}

/-- Returning a value. -/
theorem pure
    {value : α} :
    Avoids error (Pure.pure value : Program ε σ α) :=
  nofun

/-- Stopping with another error. -/
theorem stop
    {other : ε}
    (differs : other ≠ error) :
    Avoids error (Program.stop other : Program ε σ α) := by
  intro state stopped
  exact differs (Except.error.inj stopped)

/-- Reading a function of the state. -/
theorem gets
    {project : σ → α} :
    Avoids error (Program.gets project : Program ε σ α) :=
  nofun

/-- Updating the state. -/
theorem modify
    {update : σ → σ} :
    Avoids error (Program.modify update : Program ε σ Unit) :=
  nofun

/-- Updating the state, with an answer. -/
theorem modifyGet
    {update : σ → α × σ} :
    Avoids error (Program.modifyGet update : Program ε σ α) :=
  nofun

/-- Sequential composition. -/
theorem bind
    {first : Program ε σ α}
    {next : α → Program ε σ β}
    (firstAvoids : Avoids error first)
    (nextAvoids : ∀ value, Avoids error (next value)) :
    Avoids error (first >>= next) := by
  intro state stopped
  cases ran : first state with
  | error other =>
      rw [bind_of_error ran] at stopped
      exact firstAvoids state (by rw [ran, Except.error.inj stopped])
  | ok pair =>
      rw [bind_of_ok ran] at stopped
      exact nextAvoids pair.1 pair.2 stopped

/-- A choice between two programs. -/
theorem ite
    {condition : Prop}
    [Decidable condition]
    {first second : Program ε σ α}
    (firstAvoids : Avoids error first)
    (secondAvoids : Avoids error second) :
    Avoids error (if condition then first else second) := by
  by_cases holds : condition
  · rw [if_pos holds]
    exact firstAvoids
  · rw [if_neg holds]
    exact secondAvoids

/--
A loop whose turns lower a measure has fuel enough once it has more than the
measure.
-/
theorem iterate
    {exhausted : ε}
    {body : α → Program ε σ (α ⊕ β)}
    {measured : Nat → α → σ → Prop}
    (avoids : ∀ current, Avoids exhausted (body current))
    (turn :
      ∀ measure current state next after,
        measured measure current state →
          body current state = .ok (.inl next, after) →
          ∃ lower < measure, measured lower next after)
    {fuel measure : Nat}
    {current : α}
    {state : σ}
    (holds : measured measure current state)
    (enough : measure < fuel) :
    Program.iterate exhausted body fuel current state ≠
      .error exhausted := by
  induction fuel generalizing measure current state with
  | zero =>
      exact absurd enough (Nat.not_lt_zero _)
  | succ fuel inductionHypothesis =>
      intro stopped
      cases ran : body current state with
      | error other =>
          rw [iterate_stopped ran] at stopped
          exact avoids current state (by rw [ran, Except.error.inj stopped])
      | ok pair =>
          obtain ⟨outcome, after⟩ := pair
          cases outcome with
          | inl next =>
              rw [iterate_next ran] at stopped
              obtain ⟨lower, below, holdsAfter⟩ :=
                turn measure current state next after holds ran
              exact inductionHypothesis holdsAfter (by omega) stopped
          | inr answer =>
              rw [iterate_answer ran] at stopped
              cases stopped

end Avoids

end Program

end StatefulProgram
