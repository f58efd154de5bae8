import TreeFeller.Library.Program

/-!
# Programs that cannot tell states apart

A program respects a relation between states when its runs from two related
states agree: both return the same value and leave related states, or both
stop with the same error.  What the relation forgets is then invisible to the
program.
-/

namespace StatefulProgram

namespace Program

variable {ε σ α β : Type}

/-- Outcomes that agree but for what a relation between states forgets. -/
inductive Agree (alike : σ → σ → Prop) :
    Except ε (α × σ) → Except ε (α × σ) → Prop where
  | returned
      (value : α)
      {after after' : σ}
      (same : alike after after') :
      Agree alike (.ok (value, after)) (.ok (value, after'))
  | stopped
      (error : ε) :
      Agree alike (.error error) (.error error)

/-- A program whose runs from related states agree. -/
def Respects
    (alike : σ → σ → Prop)
    (program : Program ε σ α) : Prop :=
  ∀ state state', alike state state' →
    Agree alike (program state) (program state')

namespace Respects

variable {alike : σ → σ → Prop}

/-- Returning a value. -/
theorem pure
    {value : α} :
    Respects alike (Pure.pure value : Program ε σ α) :=
  fun _ _ same => .returned value same

/-- Stopping. -/
theorem stop
    {error : ε} :
    Respects alike (Program.stop error : Program ε σ α) :=
  fun _ _ _ => .stopped error

/-- Updating the state, with an answer. -/
theorem modifyGet
    {update : σ → α × σ}
    (same :
      ∀ state state', alike state state' →
        (update state).1 = (update state').1 ∧
          alike (update state).2 (update state').2) :
    Respects alike (Program.modifyGet update : Program ε σ α) := by
  intro state state' related
  obtain ⟨answers, states⟩ := same state state' related
  have first :
      (Program.modifyGet update : Program ε σ α) state =
        .ok ((update state').1, (update state).2) := by
    rw [modifyGet_apply, ← answers]
  rw [first, modifyGet_apply]
  exact .returned _ states

/-- Sequential composition. -/
theorem bind
    {first : Program ε σ α}
    {next : α → Program ε σ β}
    (firstRespects : Respects alike first)
    (nextRespects : ∀ value, Respects alike (next value)) :
    Respects alike (first >>= next) := by
  intro state state' related
  have agree := firstRespects state state' related
  cases ran : first state with
  | error error =>
      cases ran' : first state' with
      | error error' =>
          rw [ran, ran'] at agree
          cases agree
          rw [bind_of_error ran, bind_of_error ran']
          exact .stopped error
      | ok pair =>
          rw [ran, ran'] at agree
          cases agree
  | ok pair =>
      cases ran' : first state' with
      | error error' =>
          rw [ran, ran'] at agree
          cases agree
      | ok pair' =>
          rw [ran, ran'] at agree
          rcases pair with ⟨value, middle⟩
          rcases pair' with ⟨value', middle'⟩
          rw [bind_of_ok ran, bind_of_ok ran']
          cases agree with
          | returned _ same =>
              exact nextRespects value middle middle' same

end Respects

end Program

end StatefulProgram
