import Mathlib.Data.List.Basic
import Mathlib.Order.Monotone.Basic

/-!
# The encoding of scalar values

A scalar value's standard encoding among the byte sequences that are laid out
as a lead byte with its continuation bytes.  A value has a layout at every
length that holds it; the standard encoding is the shortest one, and it is the
only layout that is not longer than it has to be.
-/

namespace Scalars

/-- A byte that continues a sequence. -/
def Continues (byte : Nat) : Prop :=
  0x80 ≤ byte ∧ byte < 0xC0

/-- The value that a lead byte and its continuation bytes spell out. -/
inductive LaidOut : Nat → List Nat → Prop where
  | one
      {lead : Nat}
      (lead_lt : lead < 0x80) :
      LaidOut lead [lead]
  | two
      {lead second : Nat}
      (le_lead : 0xC0 ≤ lead)
      (lead_lt : lead < 0xE0)
      (second_continues : Continues second) :
      LaidOut (lead % 0x20 * 0x40 + second % 0x40) [lead, second]
  | three
      {lead second third : Nat}
      (le_lead : 0xE0 ≤ lead)
      (lead_lt : lead < 0xF0)
      (second_continues : Continues second)
      (third_continues : Continues third) :
      LaidOut
        (lead % 0x10 * 0x1000 + second % 0x40 * 0x40 + third % 0x40)
        [lead, second, third]
  | four
      {lead second third fourth : Nat}
      (le_lead : 0xF0 ≤ lead)
      (lead_lt : lead < 0xF8)
      (second_continues : Continues second)
      (third_continues : Continues third)
      (fourth_continues : Continues fourth) :
      LaidOut
        (lead % 0x08 * 0x40000 + second % 0x40 * 0x1000 +
          third % 0x40 * 0x40 + fourth % 0x40)
        [lead, second, third, fourth]

/-- The least value that does not fit a shorter layout. -/
def leastOfLength : Nat → Nat
  | 0 => 0
  | 1 => 0
  | 2 => 0x80
  | 3 => 0x800
  | 4 => 0x10000
  | _ => 0x200000

/-- The bytes of a scalar value's standard encoding, as numbers. -/
def units (scalar : Char) : List Nat :=
  (String.utf8EncodeChar scalar).map UInt8.toNat

/-- A standard encoding has the length the standard gives it. -/
theorem length_units (scalar : Char) :
    (units scalar).length = scalar.utf8Size := by
  simp [units]

/-- A scalar value is no surrogate and not above the last plane. -/
theorem scalar_valid (scalar : Char) :
    scalar.toNat < 0xD800 ∨
      0xDFFF < scalar.toNat ∧ scalar.toNat < 0x110000 :=
  scalar.valid

/-- The bytes of a value up to `0x7F`. -/
theorem units_one
    {scalar : Char}
    (most : scalar.toNat ≤ 0x7F) :
    units scalar = [scalar.toNat] := by
  have small : scalar.val.toNat ≤ 127 := most
  simp only [units, String.utf8EncodeChar, if_pos small, List.map_cons,
    List.map_nil, UInt8.toNat_ofNat', Char.toNat]
  congr 1
  omega

/-- The bytes of a value up to `0x7FF`. -/
theorem units_two
    {scalar : Char}
    (least : 0x7F < scalar.toNat)
    (most : scalar.toNat ≤ 0x7FF) :
    units scalar =
      [0xC0 + scalar.toNat / 0x40, 0x80 + scalar.toNat % 0x40] := by
  have above : ¬ scalar.val.toNat ≤ 127 := Nat.not_le_of_lt least
  have below : scalar.val.toNat ≤ 2047 := most
  simp only [units, String.utf8EncodeChar, if_neg above, if_pos below,
    List.map_cons, List.map_nil, UInt8.toNat_ofNat', Char.toNat]
  congr 1
  · omega
  · congr 1
    omega

/-- The bytes of a value up to `0xFFFF`. -/
theorem units_three
    {scalar : Char}
    (least : 0x7FF < scalar.toNat)
    (most : scalar.toNat ≤ 0xFFFF) :
    units scalar =
      [0xE0 + scalar.toNat / 0x1000, 0x80 + scalar.toNat / 0x40 % 0x40,
        0x80 + scalar.toNat % 0x40] := by
  have aboveOne : ¬ scalar.val.toNat ≤ 127 := fun atMost =>
    absurd least (Nat.not_lt_of_le (Nat.le_trans atMost (by decide)))
  have above : ¬ scalar.val.toNat ≤ 2047 := Nat.not_le_of_lt least
  have below : scalar.val.toNat ≤ 65535 := most
  simp only [units, String.utf8EncodeChar, if_neg aboveOne, if_neg above,
    if_pos below, List.map_cons, List.map_nil, UInt8.toNat_ofNat',
    Char.toNat]
  congr 1
  · omega
  · congr 1
    · omega
    · congr 1
      omega

/-- The bytes of a value above `0xFFFF`. -/
theorem units_four
    {scalar : Char}
    (least : 0xFFFF < scalar.toNat) :
    units scalar =
      [0xF0 + scalar.toNat / 0x40000, 0x80 + scalar.toNat / 0x1000 % 0x40,
        0x80 + scalar.toNat / 0x40 % 0x40,
        0x80 + scalar.toNat % 0x40] := by
  have aboveOne : ¬ scalar.val.toNat ≤ 127 := fun atMost =>
    absurd least (Nat.not_lt_of_le (Nat.le_trans atMost (by decide)))
  have aboveTwo : ¬ scalar.val.toNat ≤ 2047 := fun atMost =>
    absurd least (Nat.not_lt_of_le (Nat.le_trans atMost (by decide)))
  have above : ¬ scalar.val.toNat ≤ 65535 := Nat.not_le_of_lt least
  have valid : scalar.val.toNat < 0xD800 ∨
      0xDFFF < scalar.val.toNat ∧ scalar.val.toNat < 0x110000 :=
    scalar_valid scalar
  simp only [units, String.utf8EncodeChar, if_neg aboveOne, if_neg aboveTwo,
    if_neg above, List.map_cons, List.map_nil, UInt8.toNat_ofNat',
    Char.toNat]
  congr 1
  · omega
  · congr 1
    · omega
    · congr 1
      · omega
      · congr 1
        omega

/-- A standard encoding is a layout of its value. -/
theorem laidOut_units (scalar : Char) :
    LaidOut scalar.toNat (units scalar) := by
  have valid := scalar_valid scalar
  by_cases one : scalar.toNat ≤ 0x7F
  · rw [units_one one]
    exact .one (by omega)
  by_cases two : scalar.toNat ≤ 0x7FF
  · rw [units_two (by omega) two]
    have laid :=
      @LaidOut.two (0xC0 + scalar.toNat / 0x40)
        (0x80 + scalar.toNat % 0x40)
        (by omega) (by omega) ⟨by omega, by omega⟩
    convert laid using 1
    omega
  by_cases three : scalar.toNat ≤ 0xFFFF
  · rw [units_three (by omega) three]
    have laid :=
      @LaidOut.three (0xE0 + scalar.toNat / 0x1000)
        (0x80 + scalar.toNat / 0x40 % 0x40)
        (0x80 + scalar.toNat % 0x40)
        (by omega) (by omega) ⟨by omega, by omega⟩ ⟨by omega, by omega⟩
    convert laid using 1
    omega
  · rw [units_four (by omega)]
    have laid :=
      @LaidOut.four (0xF0 + scalar.toNat / 0x40000)
        (0x80 + scalar.toNat / 0x1000 % 0x40)
        (0x80 + scalar.toNat / 0x40 % 0x40)
        (0x80 + scalar.toNat % 0x40)
        (by omega) (by omega) ⟨by omega, by omega⟩ ⟨by omega, by omega⟩
        ⟨by omega, by omega⟩
    convert laid using 1
    omega

/-- A longer layout starts at a greater value. -/
theorem leastOfLength_mono : Monotone leastOfLength := by
  apply monotone_nat_of_le_succ
  intro length
  match length with
  | 0 | 1 | 2 | 3 | 4 => decide
  | _ + 5 => exact Nat.le_refl _

/-- A layout holds only the values below the least one of the next length. -/
theorem LaidOut.value_lt
    {value : Nat}
    {bytes : List Nat}
    (laid : LaidOut value bytes) :
    value < leastOfLength (bytes.length + 1) := by
  cases laid with
  | one lead_lt => exact lead_lt
  | two =>
      simp only [List.length_cons, List.length_nil, leastOfLength]
      omega
  | three =>
      simp only [List.length_cons, List.length_nil, leastOfLength]
      omega
  | four =>
      simp only [List.length_cons, List.length_nil, leastOfLength]
      omega

/-- A scalar value needs the length of its standard encoding. -/
theorem leastOfLength_le_scalar (scalar : Char) :
    leastOfLength (units scalar).length ≤ scalar.toNat := by
  by_cases one : scalar.toNat ≤ 0x7F
  · rw [units_one one]
    exact Nat.zero_le _
  by_cases two : scalar.toNat ≤ 0x7FF
  · rw [units_two (by omega) two]
    exact Nat.lt_of_not_le one
  by_cases three : scalar.toNat ≤ 0xFFFF
  · rw [units_three (by omega) three]
    exact Nat.lt_of_not_le two
  · rw [units_four (by omega)]
    exact Nat.lt_of_not_le three

/-- No layout of a scalar value is shorter than its standard encoding. -/
theorem length_units_le
    {scalar : Char}
    {bytes : List Nat}
    (laid : LaidOut scalar.toNat bytes) :
    (units scalar).length ≤ bytes.length := by
  apply Nat.le_of_not_lt
  intro shorter
  have holds := laid.value_lt
  have needs := leastOfLength_le_scalar scalar
  have between := leastOfLength_mono (Nat.succ_le_of_lt shorter)
  exact absurd (Nat.lt_of_lt_of_le holds (Nat.le_trans between needs))
    (Nat.lt_irrefl _)

/--
A layout that is no longer than it has to be, of a value that is a scalar
value, is the standard encoding.
-/
theorem exists_scalar
    {value : Nat}
    {bytes : List Nat}
    (laid : LaidOut value bytes)
    (least : leastOfLength bytes.length ≤ value)
    (valid : value < 0xD800 ∨ 0xDFFF < value ∧ value < 0x110000) :
    ∃ scalar : Char, scalar.toNat = value ∧ units scalar = bytes := by
  obtain ⟨scalar, rfl⟩ : ∃ scalar : Char, scalar.toNat = value :=
    ⟨Char.ofNatAux value valid, rfl⟩
  refine ⟨scalar, rfl, ?_⟩
  generalize spelled : scalar.toNat = value at laid least valid
  cases laid with
  | one lead_lt =>
      rw [units_one (by omega), spelled]
  | @two lead second le_lead lead_lt second_continues =>
      obtain ⟨le_second, second_lt⟩ := second_continues
      simp only [List.length_cons, List.length_nil, leastOfLength] at least
      rw [units_two (by omega) (by omega), spelled]
      congr 1
      · omega
      · congr 1
        omega
  | @three lead second third le_lead lead_lt continues continues' =>
      obtain ⟨le_second, second_lt⟩ := continues
      obtain ⟨le_third, third_lt⟩ := continues'
      simp only [List.length_cons, List.length_nil, leastOfLength] at least
      rw [units_three (by omega) (by omega), spelled]
      congr 1
      · omega
      · congr 1
        · omega
        · congr 1
          omega
  | @four lead second third fourth le_lead lead_lt continues continues'
      continues'' =>
      obtain ⟨le_second, second_lt⟩ := continues
      obtain ⟨le_third, third_lt⟩ := continues'
      obtain ⟨le_fourth, fourth_lt⟩ := continues''
      simp only [List.length_cons, List.length_nil, leastOfLength] at least
      rw [units_four (by omega), spelled]
      congr 1
      · omega
      · congr 1
        · omega
        · congr 1
          · omega
          · congr 1
            omega

end Scalars
