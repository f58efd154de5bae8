import Mathlib.Data.List.Nodup

/-!
# Breadth-first search

Which steps may follow a list of steps is given.  A search keeps the lists it
has built in an array: in a round each of them makes room for its first
continuation, and its further ones are added behind.  After so many rounds the
array holds the lists of so many steps, each of them once.
-/

namespace BreadthFirst

variable {α : Type}

/-- A list in which every step is one of those given for what comes before. -/
def Follows (steps : List α → List α) (path : List α) : Prop :=
  ∀ front step, front ++ [step] <+: path → step ∈ steps front

/-- A list's continuations by one step. -/
def onward (steps : List α → List α) (path : List α) : List (List α) :=
  (steps path).map (fun step => path ++ [step])

/-- A round: first continuations in place, and further ones behind. -/
def spread
    (steps : List α → List α)
    (paths : List (List α)) :
    List (List α) :=
  paths.flatMap (fun path => (onward steps path).take 1) ++
    paths.flatMap (fun path => (onward steps path).tail)

/-- What the array holds after so many rounds. -/
def layers (steps : List α → List α) : Nat → List (List α)
  | 0 => [[]]
  | n + 1 => spread steps (layers steps n)

/-- How many lists are held once so many of a round have been continued. -/
def held
    (steps : List α → List α)
    (paths : List (List α))
    (count : Nat) :
    Nat :=
  ((paths.take count).flatMap (onward steps)).length +
    (paths.drop count).length

/-- A search that never holds as many lists as a limit. -/
def Within (steps : List α → List α) (limit : Nat) : Prop :=
  ∀ n count, held steps (layers steps n) count < limit

/-- A search that never comes to a list with several continuations. -/
def Unforked (steps : List α → List α) : Prop :=
  ∀ path, Follows steps path → (steps path).length ≤ 1

/-- The complete lists of the first rounds. -/
def found
    (steps : List α → List α)
    (complete : List α → Bool)
    (n : Nat) :
    List (List α) :=
  (List.range n).flatMap (fun m => (layers steps m).filter complete)

section Following

variable {steps : List α → List α}
variable {path : List α}
variable {step : α}

/-- No step follows nothing. -/
theorem Follows.nil : Follows steps [] := by
  intro front step isPrefix
  have shorter := isPrefix.length_le
  simp at shorter

/-- One more step follows what comes before it. -/
theorem follows_concat :
    Follows steps (path ++ [step]) ↔
      Follows steps path ∧ step ∈ steps path := by
  constructor
  · intro follows
    refine ⟨?_, follows path step (List.prefix_refl _)⟩
    intro front other isPrefix
    exact follows front other (isPrefix.trans (List.prefix_append _ _))
  · rintro ⟨follows, last⟩ front other isPrefix
    rcases List.prefix_concat_iff.mp isPrefix with same | earlier
    · obtain ⟨rfl, isLast⟩ := List.append_inj' same rfl
      rw [List.singleton_inj.mp isLast]
      exact last
    · exact follows front other earlier

@[simp] theorem mem_onward
    {next : List α} :
    next ∈ onward steps path ↔
      ∃ step ∈ steps path, path ++ [step] = next := by
  unfold onward
  rw [List.mem_map]

end Following

section Layers

variable {steps : List α → List α}
variable {paths : List (List α)}
variable {path next : List α}

/-- A round continues every list by every step that may follow. -/
theorem spread_perm
    (steps : List α → List α)
    (paths : List (List α)) :
    List.Perm (spread steps paths) (paths.flatMap (onward steps)) := by
  induction paths with
  | nil =>
      exact List.Perm.refl _
  | cons path rest inductionHypothesis =>
      have parts :
          (onward steps path).take 1 ++ (onward steps path).tail =
            onward steps path := by
        rw [← List.drop_one, List.take_append_drop]
      rw [List.flatMap_cons]
      refine List.Perm.trans ?_ (inductionHypothesis.append_left _)
      unfold spread
      simp only [List.flatMap_cons]
      conv_rhs => rw [← parts]
      simp only [List.append_assoc]
      refine List.Perm.append_left _ ?_
      rw [← List.append_assoc, ← List.append_assoc]
      exact List.perm_append_comm.append_right _

/-- The lists after a round are continuations of those before it. -/
theorem mem_spread :
    next ∈ spread steps paths ↔
      ∃ path ∈ paths, ∃ step ∈ steps path, path ++ [step] = next := by
  rw [(spread_perm steps paths).mem_iff, List.mem_flatMap]
  simp only [mem_onward]

/-- A round over different lists leads to different ones. -/
theorem nodup_spread
    (apart : ∀ path, (steps path).Nodup)
    (nodup : paths.Nodup) :
    (spread steps paths).Nodup := by
  rw [(spread_perm steps paths).nodup_iff, List.nodup_flatMap]
  constructor
  · intro path _
    exact (apart path).map (fun _ _ same =>
      List.singleton_inj.mp (List.append_cancel_left same))
  · refine nodup.imp ?_
    intro first second different next isFirst isSecond
    obtain ⟨_, _, rfl⟩ := mem_onward.mp isFirst
    obtain ⟨_, _, same⟩ := mem_onward.mp isSecond
    exact different (List.append_inj' same rfl).1.symm

/-- After so many rounds there are the lists of so many steps. -/
theorem mem_layers
    {n : Nat} :
    path ∈ layers steps n ↔ path.length = n ∧ Follows steps path := by
  induction n generalizing path with
  | zero =>
      rw [layers, List.mem_singleton, List.length_eq_zero_iff]
      constructor
      · rintro rfl
        exact ⟨rfl, .nil⟩
      · exact fun both => both.1
  | succ n inductionHypothesis =>
      rw [layers, mem_spread]
      constructor
      · rintro ⟨front, member, step, may, rfl⟩
        obtain ⟨length, follows⟩ := inductionHypothesis.mp member
        refine ⟨?_, follows_concat.mpr ⟨follows, may⟩⟩
        rw [List.length_append, length, List.length_singleton]
      · rintro ⟨length, follows⟩
        rcases List.eq_nil_or_concat path with rfl | ⟨front, step, rfl⟩
        · cases length
        · rw [List.concat_eq_append] at length follows ⊢
          obtain ⟨earlier, may⟩ := follows_concat.mp follows
          rw [List.length_append, List.length_singleton] at length
          exact ⟨front, inductionHypothesis.mpr ⟨by omega, earlier⟩, step,
            may, rfl⟩

/-- After so many rounds no list is there twice. -/
theorem nodup_layers
    (apart : ∀ path, (steps path).Nodup)
    (n : Nat) :
    (layers steps n).Nodup := by
  induction n with
  | zero =>
      exact List.nodup_singleton _
  | succ n inductionHypothesis =>
      exact nodup_spread apart inductionHypothesis

/-- An array that is empty stays empty. -/
theorem layers_eq_nil
    {n m : Nat}
    (isOver : layers steps n = [])
    (later : n ≤ m) :
    layers steps m = [] := by
  induction later with
  | refl =>
      exact isOver
  | step _ inductionHypothesis =>
      rw [layers, inductionHypothesis]
      rfl

/-- A lone list with one continuation is replaced by it. -/
theorem layers_only
    {n : Nat}
    (only : layers steps n = [path])
    (goes : onward steps path = [next]) :
    layers steps (n + 1) = [next] := by
  simp [layers, only, spread, goes]

/-- A lone list that cannot be continued is the last one. -/
theorem layers_last
    {n : Nat}
    (only : layers steps n = [path])
    (stops : steps path = []) :
    layers steps (n + 1) = [] := by
  simp [layers, only, spread, onward, stops]

/-- Continuing one list more takes the room its continuations need. -/
@[simp] theorem held_cons_succ
    (steps : List α → List α)
    (path : List α)
    (rest : List (List α))
    (count : Nat) :
    held steps (path :: rest) (count + 1) =
      (onward steps path).length + held steps rest count := by
  simp [held, Nat.add_assoc]

/-- Before a round every list is held once. -/
@[simp] theorem held_zero
    (steps : List α → List α)
    (paths : List (List α)) :
    held steps paths 0 = paths.length := by
  simp [held]

/-- What holds of the lists of all rounds holds of every list. -/
theorem forall_follows
    {n : Nat}
    {holds : List α → Prop}
    (isOver : layers steps n = [])
    (each : ∀ m < n, ∀ path ∈ layers steps m, holds path)
    (follows : Follows steps path) :
    holds path := by
  have member : path ∈ layers steps path.length :=
    mem_layers.mpr ⟨rfl, follows⟩
  refine each path.length (Nat.lt_of_not_le (fun later => ?_)) path member
  rw [layers_eq_nil isOver later] at member
  cases member

/-- A search is within a limit if its rounds are. -/
theorem within_of_layers
    {n limit : Nat}
    (isOver : layers steps n = [])
    (some_ : 0 < limit)
    (each :
      ∀ m < n, ∀ count < (layers steps m).length + 1,
        held steps (layers steps m) count < limit) :
    Within steps limit := by
  intro m count
  by_cases earlier : m < n
  · by_cases few : count < (layers steps m).length + 1
    · exact each m earlier count few
    · have whole := each m earlier _ (Nat.lt_succ_self _)
      unfold held at whole ⊢
      rw [List.take_length, List.drop_length] at whole
      rw [List.take_of_length_le (by omega),
        List.drop_of_length_le (by omega)]
      exact whole
  · rw [layers_eq_nil isOver (Nat.le_of_not_lt earlier)]
    simpa [held] using some_

end Layers

section Found

variable {steps : List α → List α}
variable {complete : List α → Bool}
variable {n : Nat}

/-- One more round adds its complete lists. -/
theorem found_succ :
    found steps complete (n + 1) =
      found steps complete n ++ (layers steps n).filter complete := by
  unfold found
  rw [List.range_succ, List.flatMap_append, List.flatMap_singleton]

/-- A search that is over has found the complete lists. -/
theorem mem_found
    {path : List α}
    (isOver : layers steps n = []) :
    path ∈ found steps complete n ↔
      Follows steps path ∧ complete path = true := by
  unfold found
  simp only [List.mem_flatMap, List.mem_range, List.mem_filter, mem_layers]
  constructor
  · rintro ⟨m, _, ⟨_, follows⟩, isComplete⟩
    exact ⟨follows, isComplete⟩
  · rintro ⟨follows, isComplete⟩
    have member : path ∈ layers steps path.length :=
      mem_layers.mpr ⟨rfl, follows⟩
    refine ⟨path.length, Nat.lt_of_not_le (fun later => ?_),
      ⟨rfl, follows⟩, isComplete⟩
    rw [layers_eq_nil isOver later] at member
    cases member

/-- No list is found twice. -/
theorem nodup_found
    (apart : ∀ path, (steps path).Nodup) :
    (found steps complete n).Nodup := by
  unfold found
  rw [List.nodup_flatMap]
  constructor
  · intro m _
    exact (nodup_layers apart m).filter _
  · refine List.nodup_range.imp ?_
    intro first second different path isFirst isSecond
    have early := mem_layers.mp (List.mem_of_mem_filter isFirst)
    have late := mem_layers.mp (List.mem_of_mem_filter isSecond)
    exact different (early.1.symm.trans late.1)

end Found

end BreadthFirst
