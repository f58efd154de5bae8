import TreeFeller.Library.Program

/-!
# Programs that keep a journal

A journaled program runs over a state and writes entries into a journal on the
side.  It erases to a program when it does what that program does whatever has
been written: the journal then records a run of the program without having
any part in it.
-/

namespace StatefulProgram

/-- A program over states `σ` that also writes entries `τ`. -/
abbrev Journaled (ε σ τ α : Type) : Type :=
  Program ε (σ × List τ) α

namespace Journaled

variable {ε σ τ α β : Type}

/-- Run a program that writes nothing. -/
def lift (program : Program ε σ α) : Journaled ε σ τ α :=
  fun state =>
    match program state.1 with
    | .error stop => .error stop
    | .ok (value, after) => .ok (value, (after, state.2))

/-- Run a program and write what its answer and the state it leaves tell. -/
def noting
    (entries : α → σ → List τ)
    (program : Program ε σ α) :
    Journaled ε σ τ α :=
  fun state =>
    match program state.1 with
    | .error stop => .error stop
    | .ok (value, after) =>
        .ok (value, (after, state.2 ++ entries value after))

/-- An outcome without its journal. -/
def forget :
    Except ε (α × (σ × List τ)) →
      Except ε (α × σ)
  | .error stop => .error stop
  | .ok (value, state) => .ok (value, state.1)

/-- A lifted program returns exactly when the program does. -/
theorem lift_eq_ok
    {program : Program ε σ α}
    {before after : σ × List τ}
    {value : α} :
    lift program before = .ok (value, after) ↔
      program before.1 = .ok (value, after.1) ∧ after.2 = before.2 := by
  unfold lift
  obtain ⟨state, journal⟩ := after
  cases program before.1 with
  | error stopped =>
      simp
  | ok pair =>
      obtain ⟨answer, middle⟩ := pair
      simp only [Except.ok.injEq, Prod.mk.injEq]
      constructor
      · rintro ⟨sameValue, sameState, sameJournal⟩
        exact ⟨⟨sameValue, sameState⟩, sameJournal.symm⟩
      · rintro ⟨⟨sameValue, sameState⟩, sameJournal⟩
        exact ⟨sameValue, sameState, sameJournal.symm⟩

/-- A program that is written about returns exactly when it does. -/
theorem noting_eq_ok
    {entries : α → σ → List τ}
    {program : Program ε σ α}
    {before after : σ × List τ}
    {value : α} :
    noting entries program before = .ok (value, after) ↔
      program before.1 = .ok (value, after.1) ∧
        after.2 = before.2 ++ entries value after.1 := by
  unfold noting
  obtain ⟨state, journal⟩ := after
  cases program before.1 with
  | error stopped =>
      simp
  | ok pair =>
      obtain ⟨answer, middle⟩ := pair
      simp only [Except.ok.injEq, Prod.mk.injEq]
      constructor
      · rintro ⟨rfl, rfl, rfl⟩
        exact ⟨⟨rfl, rfl⟩, rfl⟩
      · rintro ⟨⟨rfl, rfl⟩, rfl⟩
        exact ⟨rfl, rfl, rfl⟩

/-- What a program establishes, it establishes beside a journal. -/
theorem ensures_lift
    {before : σ × List τ → Prop}
    {program : Program ε σ α}
    {after : α → σ × List τ → Prop}
    (ensures :
      ∀ journal,
        Program.Ensures (fun state => before (state, journal)) program
          (fun value state => after value (state, journal))) :
    Program.Ensures before (lift program) after := by
  intro state value final holds run
  obtain ⟨ran, journal⟩ := lift_eq_ok.mp run
  have established := ensures state.2 state.1 value final.1 holds ran
  rw [← journal] at established
  exact established

/-- A journaled program does what a program does. -/
def Erases
    (journaled : Journaled ε σ τ α)
    (program : Program ε σ α) :
    Prop :=
  ∀ state journal, forget (journaled (state, journal)) = program state

namespace Erases

/-- A lifted program erases to the program. -/
theorem lift
    (program : Program ε σ α) :
    Erases (lift program : Journaled ε σ τ α) program := by
  intro state journal
  unfold Journaled.lift
  cases result : program state with
  | error stopped =>
      simp [forget]
  | ok pair =>
      simp [forget]

/-- Returning a value. -/
theorem pure
    (value : α) :
    Erases (Pure.pure value : Journaled ε σ τ α) (Pure.pure value) := by
  intro state journal
  rfl

/-- Stopping. -/
theorem stop
    (error : ε) :
    Erases (Program.stop error : Journaled ε σ τ α)
      (Program.stop error) := by
  intro state journal
  rfl

/-- Writing about what a program did changes nothing. -/
theorem noting
    (entries : α → σ → List τ)
    (program : Program ε σ α) :
    Erases (noting entries program) program := by
  intro state journal
  unfold Journaled.noting
  cases result : program state with
  | error stopped =>
      simp [forget]
  | ok pair =>
      simp [forget]

/-- Sequential composition. -/
theorem bind
    {first : Journaled ε σ τ α}
    {first' : Program ε σ α}
    {next : α → Journaled ε σ τ β}
    {next' : α → Program ε σ β}
    (erases : Erases first first')
    (later : ∀ value, Erases (next value) (next' value)) :
    Erases (first >>= next) (first' >>= next') := by
  intro state journal
  have same := erases state journal
  show forget (Program.bind first next (state, journal)) =
    Program.bind first' next' state
  unfold Program.bind
  rw [← same]
  cases result : first (state, journal) with
  | error stopped =>
      rfl
  | ok pair =>
      obtain ⟨value, middle⟩ := pair
      exact later value middle.1 middle.2

/-- A choice between two programs. -/
theorem ite
    {condition : Prop}
    [Decidable condition]
    {first second : Journaled ε σ τ α}
    {first' second' : Program ε σ α}
    (firstErases : Erases first first')
    (secondErases : Erases second second') :
    Erases (if condition then first else second)
      (if condition then first' else second') := by
  by_cases holds : condition
  · rw [if_pos holds, if_pos holds]
    exact firstErases
  · rw [if_neg holds, if_neg holds]
    exact secondErases

/-- A loop that runs until its body answers. -/
theorem iterate
    {exhausted : ε}
    {body : α → Journaled ε σ τ (α ⊕ β)}
    {body' : α → Program ε σ (α ⊕ β)}
    (step : ∀ current, Erases (body current) (body' current))
    (fuel : Nat)
    (current : α) :
    Erases (Program.iterate exhausted body fuel current)
      (Program.iterate exhausted body' fuel current) := by
  induction fuel generalizing current with
  | zero =>
      exact stop exhausted
  | succ fuel inductionHypothesis =>
      refine bind (step current) (fun outcome => ?_)
      cases outcome with
      | inl next =>
          exact inductionHypothesis next
      | inr answer =>
          exact pure answer

/-- A run of the program has one journal. -/
theorem journal
    {journaled : Journaled ε σ τ α}
    {program : Program ε σ α}
    (erases : Erases journaled program)
    {before after : σ}
    {value : α}
    (ran : program before = .ok (value, after)) :
    ∃ entries, journaled (before, []) = .ok (value, (after, entries)) := by
  have same := erases before []
  rw [ran] at same
  cases result : journaled (before, []) with
  | error stopped =>
      rw [result] at same
      cases same
  | ok pair =>
      obtain ⟨answer, middle, entries⟩ := pair
      rw [result] at same
      cases same
      exact ⟨entries, rfl⟩

end Erases

end Journaled

end StatefulProgram
