import TreeFeller.Operations
import Mathlib.Data.List.Induction

namespace TreeFeller

/-!
# Where a reduction cuts the stack

A reduction takes the cells from its first child that is not an extra to its
last, with the extras between.  This says so without the scan that finds them,
so that cuts of different stacks can be compared.
-/

namespace TFParser

variable {V : Type}

/-- The cells that are not extras. -/
def structural (cells : List (TFCell V)) : Nat :=
  cells.countP (fun cell => !cell.node.extra)

@[simp] theorem structural_nil :
    structural ([] : List (TFCell V)) = 0 :=
  rfl

@[simp] theorem structural_append (first second : List (TFCell V)) :
    structural (first ++ second) = structural first + structural second := by
  simp [structural]

@[simp] theorem structural_reverse (cells : List (TFCell V)) :
    structural cells.reverse = structural cells := by
  unfold structural
  exact List.countP_reverse

/-- Cells that are all extras. -/
def AllExtra (cells : List (TFCell V)) : Prop :=
  ∀ cell ∈ cells, cell.node.extra = true

/-- No cell counts where all are extras. -/
theorem AllExtra.structural
    {cells : List (TFCell V)}
    (extras : AllExtra cells) :
    structural cells = 0 := by
  unfold TFParser.structural
  rw [List.countP_eq_zero]
  intro cell member
  simp [extras cell member]

/-- A cut for a number of children, without the scan. -/
inductive CutsAt (cells : List (TFCell V)) : Nat → Popped V → Prop where
  /-- An empty production takes nothing. -/
  | empty : CutsAt cells 0 ⟨cells, [], []⟩
  /-- One child, below its trailing extras. -/
  | single
      {below trailing : List (TFCell V)}
      {only : TFCell V}
      (parts : cells = below ++ only :: trailing)
      (isOnly : only.node.extra = false)
      (extras : AllExtra trailing) :
      CutsAt cells 1 ⟨below, [only], trailing⟩
  /-- A first child, a last one and what is between. -/
  | several
      {below between trailing : List (TFCell V)}
      {first last : TFCell V}
      (parts : cells = below ++ first :: (between ++ last :: trailing))
      (isFirst : first.node.extra = false)
      (isLast : last.node.extra = false)
      (extras : AllExtra trailing) :
      CutsAt cells (structural between + 2)
        ⟨below, first :: (between ++ [last]), trailing⟩

/-- The scan passes the extras on top. -/
theorem scanPop_extras
    {childCount : Nat}
    (more : 0 < childCount)
    {extras rest : List (TFCell V)}
    (areExtras : AllExtra extras)
    (taken trailing : Nat) :
    scanPop childCount (extras ++ rest) 0 taken trailing =
      scanPop childCount rest 0 (taken + extras.length)
        (trailing + extras.length) := by
  induction extras generalizing taken trailing with
  | nil =>
      rfl
  | cons first others inductionHypothesis =>
      have isExtra := areExtras first (List.mem_cons_self ..)
      have later :=
        inductionHypothesis
          (fun cell member => areExtras cell (List.mem_cons_of_mem _ member))
      rw [List.cons_append, scanPop, if_pos more, isExtra]
      simp only [Bool.not_true, Bool.false_eq_true, if_false, if_true]
      rw [later, List.length_cons]
      congr 1
      · omega
      · omega

/-- The scan takes a cell that is not an extra. -/
theorem scanPop_structural
    {childCount count : Nat}
    (more : count < childCount)
    {cell : TFCell V}
    (isChild : cell.node.extra = false)
    (rest : List (TFCell V))
    (taken trailing : Nat) :
    scanPop childCount (cell :: rest) count taken trailing =
      scanPop childCount rest (count + 1) (taken + 1) trailing := by
  rw [scanPop, if_pos more, isChild]
  rfl

/-- The scan takes cells between the last child and the first. -/
theorem scanPop_between
    {childCount count : Nat}
    {between rest : List (TFCell V)}
    (begun : 0 < count)
    (more : count + structural between < childCount)
    (taken trailing : Nat) :
    scanPop childCount (between ++ rest) count taken trailing =
      scanPop childCount rest (count + structural between)
        (taken + between.length) trailing := by
  induction between generalizing count taken with
  | nil =>
      rfl
  | cons cell others inductionHypothesis =>
      have split :
          structural (cell :: others) =
            structural [cell] + structural others :=
        structural_append [cell] others
      rw [split] at more
      cases kind : cell.node.extra with
      | true =>
          have none : structural [cell] = 0 := by
            simp [structural, kind]
          have later :=
            inductionHypothesis begun (by omega) (taken + 1)
          rw [List.cons_append, scanPop, if_pos (by omega), kind]
          simp only [Bool.not_true, Bool.false_eq_true, if_false]
          rw [if_neg (by omega), later, split, none, List.length_cons]
          congr 1
          · omega
          · omega
      | false =>
          have one : structural [cell] = 1 := by
            simp [structural, kind]
          have later :=
            inductionHypothesis (Nat.succ_pos count) (by omega) (taken + 1)
          rw [List.cons_append, scanPop_structural (by omega) kind, later,
            split, one, List.length_cons]
          congr 1
          · omega
          · omega

/-- The scan stops once it has its children. -/
theorem scanPop_done
    (childCount : Nat)
    (rest : List (TFCell V))
    (taken trailing : Nat) :
    scanPop childCount rest childCount taken trailing =
      some (taken, trailing) := by
  cases rest with
  | nil =>
      rw [scanPop, if_neg (Nat.lt_irrefl _)]
  | cons cell others =>
      rw [scanPop, if_neg (Nat.lt_irrefl _)]

/-- A cut is found by the scan. -/
theorem popped_of_cutsAt
    {cells : List (TFCell V)}
    {childCount : Nat}
    {cut : Popped V}
    (cuts : CutsAt cells childCount cut) :
    popped cells childCount = some cut := by
  cases cuts with
  | empty =>
      unfold popped
      rw [scanPop_done]
      simp
  | @single below trailing only parts isOnly extras =>
      have reversed :
          cells.reverse = trailing.reverse ++ only :: below.reverse := by
        rw [parts]
        simp
      have reversedExtras : AllExtra trailing.reverse :=
        fun cell member => extras cell (List.mem_reverse.mp member)
      unfold popped
      rw [reversed, scanPop_extras Nat.zero_lt_one reversedExtras,
        scanPop_structural Nat.zero_lt_one isOnly, scanPop_done]
      simp only [Option.map_some, List.length_reverse, Option.some.injEq]
      subst parts
      simp only [List.length_append, List.length_cons]
      have base :
          below.length + (trailing.length + 1) -
              (0 + trailing.length + 1) = below.length := by
        omega
      have stop :
          below.length + (trailing.length + 1) - (0 + trailing.length) =
            (below ++ [only]).length := by
        simp only [List.length_append, List.length_singleton]
        omega
      have moved :
          below ++ only :: trailing = (below ++ [only]) ++ trailing := by
        simp
      rw [base, stop, List.take_left, moved, List.take_left,
        List.drop_left, List.drop_left]
  | @several below between trailing first last parts isFirst isLast extras =>
      have reversed :
          cells.reverse =
            trailing.reverse ++
              last :: (between.reverse ++ first :: below.reverse) := by
        rw [parts]
        simp
      have reversedExtras : AllExtra trailing.reverse :=
        fun cell member => extras cell (List.mem_reverse.mp member)
      unfold popped
      rw [reversed, scanPop_extras (by omega) reversedExtras,
        scanPop_structural (by omega) isLast,
        scanPop_between (by omega)
          (by rw [structural_reverse]; omega),
        structural_reverse,
        scanPop_structural (by omega) isFirst]
      have met : 0 + 1 + structural between + 1 = structural between + 2 := by
        omega
      rw [met, scanPop_done]
      simp only [Option.map_some, List.length_reverse, Option.some.injEq]
      subst parts
      simp only [List.length_append, List.length_cons]
      have base :
          below.length + (between.length + (trailing.length + 1) + 1) -
              (0 + trailing.length + 1 + between.length + 1) =
            below.length := by
        omega
      have stop :
          below.length + (between.length + (trailing.length + 1) + 1) -
              (0 + trailing.length) =
            (below ++ first :: (between ++ [last])).length := by
        simp only [List.length_append, List.length_cons, List.length_nil]
        omega
      have moved :
          below ++ first :: (between ++ last :: trailing) =
            (below ++ first :: (between ++ [last])) ++ trailing := by
        simp
      rw [base, stop, List.take_left, moved, List.take_left,
        List.drop_left, List.drop_left]

/-- Enough cells that are not extras split off the last of them. -/
theorem exists_last_structural
    {cells : List (TFCell V)}
    (some_ : 0 < structural cells) :
    ∃ front last trailing,
      cells = front ++ last :: trailing ∧ last.node.extra = false ∧
        AllExtra trailing ∧ structural cells = structural front + 1 := by
  induction cells using List.reverseRecOn with
  | nil =>
      cases some_
  | append_singleton front cell inductionHypothesis =>
      cases kind : cell.node.extra with
      | false =>
          refine ⟨front, cell, [], rfl, kind, nofun, ?_⟩
          rw [structural_append]
          simp [structural, kind]
      | true =>
          have same : structural (front ++ [cell]) = structural front := by
            rw [structural_append]
            simp [structural, kind]
          rw [same] at some_
          obtain ⟨below, last, trailing, parts, isLast, extras, count⟩ :=
            inductionHypothesis some_
          refine ⟨below, last, trailing ++ [cell], ?_, isLast, ?_, ?_⟩
          · rw [parts]
            simp
          · intro other member
            rcases List.mem_append.mp member with old | new
            · exact extras other old
            · rw [List.mem_singleton.mp new]
              exact kind
          · rw [same, count]

/-- The first child is found from the last downwards. -/
theorem exists_first_structural
    {count : Nat}
    {cells : List (TFCell V)}
    (enough : count + 1 ≤ structural cells) :
    ∃ below first between,
      cells = below ++ first :: between ∧ first.node.extra = false ∧
        structural between = count := by
  induction count generalizing cells with
  | zero =>
      obtain ⟨below, first, between, parts, isFirst, extras, _⟩ :=
        exists_last_structural enough
      exact ⟨below, first, between, parts, isFirst, extras.structural⟩
  | succ count inductionHypothesis =>
      have enoughOne : 0 < structural cells := by
        omega
      obtain ⟨rest, other, extras, parts, isOther, areExtras, total⟩ :=
        exists_last_structural enoughOne
      obtain ⟨below, first, between, restParts, isFirst, counted⟩ :=
        inductionHypothesis (show count + 1 ≤ structural rest by omega)
      refine ⟨below, first, between ++ other :: extras, ?_, isFirst, ?_⟩
      · rw [parts, restParts]
        simp
      · have apart :
            structural (other :: extras) =
              structural [other] + structural extras :=
          structural_append [other] extras
        have one : structural [other] = 1 := by
          simp [structural, isOther]
        rw [structural_append, counted, apart, one, areExtras.structural]

/-- Where there are cells enough, there is a cut. -/
theorem exists_cutsAt
    {cells : List (TFCell V)}
    {childCount : Nat}
    (enough : childCount ≤ structural cells) :
    ∃ cut, CutsAt cells childCount cut := by
  match childCount with
  | 0 =>
      exact ⟨_, .empty⟩
  | 1 =>
      obtain ⟨front, last, trailing, parts, isLast, extras, _⟩ :=
        exists_last_structural enough
      exact ⟨_, .single parts isLast extras⟩
  | count + 2 =>
      have enoughOne : 0 < structural cells := by
        omega
      obtain ⟨front, last, trailing, parts, isLast, extras, total⟩ :=
        exists_last_structural enoughOne
      have enoughMore : count + 1 ≤ structural front := by
        omega
      obtain ⟨below, first, between, frontParts, isFirst, rfl⟩ :=
        exists_first_structural enoughMore
      have whole :
          cells = below ++ first :: (between ++ last :: trailing) := by
        rw [parts, frontParts]
        simp
      exact ⟨_, .several whole isFirst isLast extras⟩

/-- The scan finds nothing where there are too few cells. -/
theorem scanPop_none
    {childCount count : Nat}
    {cells : List (TFCell V)}
    (few : count + structural cells < childCount)
    (taken trailing : Nat) :
    scanPop childCount cells count taken trailing = none := by
  induction cells generalizing count taken trailing with
  | nil =>
      have more : count < childCount := few
      rw [scanPop, if_pos more]
  | cons cell rest inductionHypothesis =>
      have split :
          structural (cell :: rest) = structural [cell] + structural rest :=
        structural_append [cell] rest
      rw [split] at few
      rw [scanPop, if_pos (by omega)]
      cases kind : cell.node.extra with
      | true =>
          simp only [Bool.not_true, Bool.false_eq_true, if_false]
          split
          · exact inductionHypothesis (by omega) _ _
          · exact inductionHypothesis (by omega) _ _
      | false =>
          have one : structural [cell] = 1 := by
            simp [structural, kind]
          simp only [Bool.not_false, if_true]
          exact inductionHypothesis (by omega) _ _

/-- The scan finds the cut there is. -/
theorem popped_eq_some_iff
    {cells : List (TFCell V)}
    {childCount : Nat}
    {cut : Popped V} :
    popped cells childCount = some cut ↔ CutsAt cells childCount cut := by
  refine ⟨fun found => ?_, popped_of_cutsAt⟩
  by_cases enough : childCount ≤ structural cells
  · obtain ⟨cut', cuts⟩ := exists_cutsAt enough
    rw [popped_of_cutsAt cuts, Option.some.injEq] at found
    rw [← found]
    exact cuts
  · unfold popped at found
    rw [scanPop_none (by rw [structural_reverse]; omega)] at found
    cases found

/-- The last child of a cut is structural. -/
theorem last_of_popped
    {cells : List (TFCell V)}
    {childCount : Nat}
    {cut : Popped V}
    (cuts : popped cells childCount = some cut) :
    ∀ last ∈ cut.children.getLast?, last.node.extra = false := by
  cases popped_eq_some_iff.mp cuts with
  | empty =>
      intro last none_
      cases none_
  | single parts isOnly extras =>
      intro last isLast
      cases isLast
      exact isOnly
  | several parts isFirst isLast extras =>
      intro last member
      rw [← List.cons_append, List.getLast?_concat] at member
      cases member
      exact isLast

end TFParser

end TreeFeller
