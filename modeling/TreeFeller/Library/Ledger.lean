import Mathlib.Data.List.Basic
import Mathlib.Data.List.Perm.Subperm
import Mathlib.Data.List.Nodup
import Mathlib.Data.List.Induction

/-!
# Values that change hands

Events issue values and take values in.  The books of a log balance when what
it has issued is what it has taken together with what is still held, and when
no event took what had not been issued before it.  Each event keeps the books
balanced if it takes from what is held; once they balance, a value issued but
once was taken exactly once or is held.
-/

namespace ValueLedger

variable {E V : Type}

/-- The values an event issues and the values it takes in. -/
structure Accounts (E V : Type) where
  issues : E → List V
  takes : E → List V

namespace Accounts

variable (accounts : Accounts E V)

/-- The values a log has issued, in order. -/
def issued (log : List E) : List V :=
  log.flatMap accounts.issues

/-- The values a log has taken in, in order. -/
def taken (log : List E) : List V :=
  log.flatMap accounts.takes

@[simp] theorem issued_nil : accounts.issued [] = [] :=
  rfl

@[simp] theorem taken_nil : accounts.taken [] = [] :=
  rfl

@[simp] theorem issued_append (first second : List E) :
    accounts.issued (first ++ second) =
      accounts.issued first ++ accounts.issued second := by
  simp [issued]

@[simp] theorem taken_append (first second : List E) :
    accounts.taken (first ++ second) =
      accounts.taken first ++ accounts.taken second := by
  simp [taken]

@[simp] theorem issued_cons (event : E) (rest : List E) :
    accounts.issued (event :: rest) =
      accounts.issues event ++ accounts.issued rest := by
  simp [issued]

@[simp] theorem taken_cons (event : E) (rest : List E) :
    accounts.taken (event :: rest) =
      accounts.takes event ++ accounts.taken rest := by
  simp [taken]

/--
Every issued value is taken by exactly one event after its own, or is the one
thing kept.
-/
def TakenOnce [DecidableEq V] (log : List E) (kept : List V) : Prop :=
  ∀ before event after value,
    log = before ++ event :: after →
      value ∈ accounts.issues event →
        value ∉ accounts.taken (before ++ [event]) ∧
          (accounts.taken after).count value + kept.count value = 1

/-- Where every value is taken once or kept, none is lost. -/
theorem TakenOnce.taken_or_kept [DecidableEq V]
    {log : List E}
    {kept : List V}
    (takenOnce : accounts.TakenOnce log kept)
    {value : V}
    (issued : value ∈ accounts.issued log) :
    value ∈ accounts.taken log ∨ value ∈ kept := by
  obtain ⟨event, member, isIssued⟩ := List.mem_flatMap.mp issued
  obtain ⟨before, after, parts⟩ := List.append_of_mem member
  have once := (takenOnce before event after value parts isIssued).2
  by_cases isKept : value ∈ kept
  · exact Or.inr isKept
  · have later : value ∈ accounts.taken after := by
      rw [List.count_eq_zero_of_not_mem isKept, Nat.add_zero] at once
      rw [← List.count_pos_iff, once]
      exact Nat.one_pos
    refine Or.inl ?_
    rw [parts]
    simp [later]

end Accounts

/-- The books of a log, with the values still held. -/
structure Balanced
    (accounts : Accounts E V)
    (log : List E)
    (held : List V) : Prop where
  /-- An event takes only what was issued and not yet taken before it. -/
  causal :
    ∀ before event after,
      log = before ++ event :: after →
        List.Subperm (accounts.taken (before ++ [event]))
          (accounts.issued before)
  /-- What was issued was taken or is held. -/
  account :
    List.Perm (accounts.issued log) (accounts.taken log ++ held)

namespace Balanced

variable {accounts : Accounts E V}
variable {log : List E}
variable {held held' rest : List V}

/-- The books of an empty log. -/
theorem empty : Balanced accounts [] [] where
  causal := by
    intro before event after parts
    simp at parts
  account := by simp

/-- What is held may be counted in any order. -/
theorem reorder
    (balanced : Balanced accounts log held)
    (same : List.Perm held held') :
    Balanced accounts log held' where
  causal := balanced.causal
  account := balanced.account.trans (same.append_left _)

/-- An event that takes from what is held keeps the books balanced. -/
theorem record
    (balanced : Balanced accounts log held)
    (event : E)
    (takes : List.Perm held (accounts.takes event ++ rest))
    (holds : List.Perm held' (accounts.issues event ++ rest)) :
    Balanced accounts (log ++ [event]) held' := by
  have spent :
      List.Perm (accounts.issued log)
        (accounts.taken log ++ (accounts.takes event ++ rest)) :=
    balanced.account.trans (takes.append_left _)
  constructor
  · intro before other after parts
    rcases List.eq_nil_or_concat after with rfl | ⟨earlier, last, rfl⟩
    · obtain ⟨sameLog, sameEvent⟩ := List.append_inj' parts rfl
      simp only [List.cons.injEq, and_true] at sameEvent
      rw [← sameLog, ← sameEvent]
      have within :
          List.Sublist (accounts.taken (log ++ [event]))
            (accounts.taken log ++ (accounts.takes event ++ rest)) := by
        rw [← List.append_assoc]
        simp
      exact within.subperm.trans spent.symm.subperm
    · rw [List.concat_eq_append, ← List.cons_append,
        ← List.append_assoc] at parts
      obtain ⟨sameLog, _⟩ := List.append_inj' parts rfl
      exact balanced.causal before other earlier sameLog
  · have exchanged :
        List.Perm (rest ++ accounts.issues event) held' :=
      List.perm_append_comm.trans holds.symm
    have settled :
        List.Perm
          (accounts.issued log ++ accounts.issues event)
          (accounts.taken log ++ accounts.takes event ++
            (rest ++ accounts.issues event)) := by
      simpa [List.append_assoc] using
        spent.append_right (accounts.issues event)
    simpa using settled.trans (exchanged.append_left _)

/-- An event that neither issues nor takes changes nothing. -/
theorem idle
    (balanced : Balanced accounts log held)
    (event : E)
    (issuesNothing : accounts.issues event = [])
    (takesNothing : accounts.takes event = []) :
    Balanced accounts (log ++ [event]) held := by
  refine balanced.record event (show List.Perm held (_ ++ held) from ?_) ?_
  · simp [takesNothing]
  · simp [issuesNothing]

section Counting

variable {before after : List E}
variable {event : E}
variable {value : V}

/-- A value issued but once was not taken before or by the event it is from. -/
theorem untaken
    (balanced : Balanced accounts log held)
    (distinct : (accounts.issued log).Nodup)
    (parts : log = before ++ event :: after)
    (issued : value ∈ accounts.issues event) :
    value ∉ accounts.taken (before ++ [event]) := by
  intro taken
  have earlier : value ∈ accounts.issued before :=
    (balanced.causal before event after parts).subset taken
  rw [parts, accounts.issued_append, accounts.issued_cons] at distinct
  exact (List.nodup_append.mp distinct).2.2 value earlier value
    (by simp [issued]) rfl

variable [DecidableEq V]

/-- A value issued but once is taken once after that, unless it is held. -/
theorem taken_or_held
    (balanced : Balanced accounts log held)
    (distinct : (accounts.issued log).Nodup)
    (parts : log = before ++ event :: after)
    (issued : value ∈ accounts.issues event) :
    (accounts.taken after).count value + held.count value = 1 := by
  have once : (accounts.issued log).count value = 1 := by
    refine List.count_eq_one_of_mem distinct ?_
    rw [parts]
    simp [issued]
  have total := balanced.account.count_eq value
  have none :=
    List.count_eq_zero_of_not_mem
      (balanced.untaken distinct parts issued)
  have split :
      accounts.taken log =
        accounts.taken (before ++ [event]) ++ accounts.taken after := by
    rw [parts]
    simp
  rw [once, List.count_append, split, List.count_append, none] at total
  omega

/-- What is held in the end is kept; everything else is taken once. -/
theorem takenOnce
    (balanced : Balanced accounts log held)
    (distinct : (accounts.issued log).Nodup) :
    accounts.TakenOnce log held := by
  intro before event after value parts issued
  exact ⟨balanced.untaken distinct parts issued,
    balanced.taken_or_held distinct parts issued⟩

/-- Every value is taken once exactly when none is held at the end. -/
theorem takenOnce_nil_iff
    (balanced : Balanced accounts log held)
    (distinct : (accounts.issued log).Nodup) :
    accounts.TakenOnce log [] ↔ held = [] := by
  constructor
  · intro takenOnce
    by_contra someHeld
    obtain ⟨value, isHeld⟩ := List.exists_mem_of_ne_nil held someHeld
    have wasIssued : value ∈ accounts.issued log :=
      balanced.account.mem_iff.mpr (by simp [isHeld])
    obtain ⟨event, member, issued⟩ := List.mem_flatMap.mp wasIssued
    obtain ⟨before, after, parts⟩ := List.append_of_mem member
    have once := (takenOnce before event after value parts issued).2
    have total := balanced.taken_or_held distinct parts issued
    have positive := List.count_pos_iff.mpr isHeld
    rw [List.count_nil] at once
    omega
  · rintro rfl
    exact balanced.takenOnce distinct

end Counting

end Balanced

end ValueLedger
