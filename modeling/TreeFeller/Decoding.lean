import TreeFeller.Lexer
import TreeFeller.Library.Scalars

/-!
# Decoding a sequence

`utf8Next` decodes exactly the standard encodings: it finds a scalar value
where the readable bytes start with that value's encoding, and nothing
everywhere else.
-/

namespace TreeFeller

open Scalars

/-- The bytes read from a position on. -/
def bytesFrom
    (source : List UInt8)
    (start length : Nat) :
    List Nat :=
  (List.range length).map (fun offset => byteAt source (start + offset))

/-- A byte is a byte. -/
theorem byteAt_lt
    (source : List UInt8)
    (index : Nat) :
    byteAt source index < 256 :=
  (source.getD index 0).toNat_lt

/-- The bytes read within a buffer are a slice of it. -/
theorem bytesFrom_eq_slice
    {source : List UInt8}
    {start length : Nat}
    (within : start + length ≤ source.length) :
    bytesFrom source start length =
      ((source.drop start).take length).map UInt8.toNat := by
  apply List.ext_getElem
  · simp only [bytesFrom, List.length_map, List.length_range,
      List.length_take, List.length_drop]
    omega
  · intro offset inRead _
    have below : offset < length := by
      simpa [bytesFrom] using inRead
    have inSource : start + offset < source.length := by omega
    simp [bytesFrom, byteAt, List.getD_eq_getElem?_getD,
      List.getElem?_eq_getElem inSource]

/-- The bytes of a sequence of two. -/
theorem bytesFrom_two
    (source : List UInt8)
    (start : Nat) :
    bytesFrom source start 2 =
      [byteAt source start, byteAt source (start + 1)] :=
  rfl

/-- The bytes of a sequence of three. -/
theorem bytesFrom_three
    (source : List UInt8)
    (start : Nat) :
    bytesFrom source start 3 =
      [byteAt source start, byteAt source (start + 1),
        byteAt source (start + 2)] :=
  rfl

/-- The bytes of a sequence of four. -/
theorem bytesFrom_four
    (source : List UInt8)
    (start : Nat) :
    bytesFrom source start 4 =
      [byteAt source start, byteAt source (start + 1),
        byteAt source (start + 2), byteAt source (start + 3)] :=
  rfl

/-- A continuation byte is told by its two high bits. -/
theorem isContinuation_iff
    {byte : Nat}
    (below : byte < 256) :
    isContinuation byte = true ↔ Continues byte := by
  have decided :
      ∀ number < 256,
        (isContinuation number = true ↔
          0x80 ≤ number ∧ number < 0xC0) := by
    decide +kernel
  exact decided byte below

/-- Bits below other bits add up with them. -/
theorem shiftLeft_or_eq
    {high low shift : Nat}
    (below : low < 2 ^ shift) :
    high <<< shift ||| low = high * 2 ^ shift + low := by
  rw [← Nat.shiftLeft_add_eq_or_of_lt below, Nat.shiftLeft_eq]

/-- What two bytes spell out. -/
theorem or_two (lead second : Nat) :
    (lead &&& 0x1F) <<< 6 ||| (second &&& 0x3F) =
      lead % 0x20 * 0x40 + second % 0x40 := by
  rw [Nat.and_two_pow_sub_one_eq_mod lead 5,
    Nat.and_two_pow_sub_one_eq_mod second 6]
  exact shiftLeft_or_eq (Nat.mod_lt _ (by decide))

/-- What three bytes spell out. -/
theorem or_three (lead second third : Nat) :
    (lead &&& 0x0F) <<< 12 ||| (second &&& 0x3F) <<< 6 |||
        (third &&& 0x3F) =
      lead % 0x10 * 0x1000 + second % 0x40 * 0x40 + third % 0x40 := by
  rw [Nat.and_two_pow_sub_one_eq_mod lead 4,
    Nat.and_two_pow_sub_one_eq_mod second 6,
    Nat.and_two_pow_sub_one_eq_mod third 6]
  have upper :
      (lead % 2 ^ 4) <<< 12 ||| (second % 2 ^ 6) <<< 6 =
        (lead % 0x10 * 0x40 + second % 0x40) <<< 6 := by
    rw [Nat.shiftLeft_eq (second % 2 ^ 6), shiftLeft_or_eq (by omega),
      Nat.shiftLeft_eq]
    omega
  rw [upper, shiftLeft_or_eq (Nat.mod_lt _ (by decide))]
  omega

/-- What four bytes spell out. -/
theorem or_four (lead second third fourth : Nat) :
    (lead &&& 0x07) <<< 18 ||| (second &&& 0x3F) <<< 12 |||
        (third &&& 0x3F) <<< 6 ||| (fourth &&& 0x3F) =
      lead % 0x08 * 0x40000 + second % 0x40 * 0x1000 +
        third % 0x40 * 0x40 + fourth % 0x40 := by
  rw [Nat.and_two_pow_sub_one_eq_mod lead 3,
    Nat.and_two_pow_sub_one_eq_mod second 6,
    Nat.and_two_pow_sub_one_eq_mod third 6,
    Nat.and_two_pow_sub_one_eq_mod fourth 6]
  have highest :
      (lead % 2 ^ 3) <<< 18 ||| (second % 2 ^ 6) <<< 12 =
        (lead % 0x08 * 0x40 + second % 0x40) <<< 12 := by
    rw [Nat.shiftLeft_eq (second % 2 ^ 6), shiftLeft_or_eq (by omega),
      Nat.shiftLeft_eq]
    omega
  have upper :
      (lead % 0x08 * 0x40 + second % 0x40) <<< 12 |||
          (third % 2 ^ 6) <<< 6 =
        ((lead % 0x08 * 0x40 + second % 0x40) * 0x40 +
          third % 0x40) <<< 6 := by
    rw [Nat.shiftLeft_eq (third % 2 ^ 6), shiftLeft_or_eq (by omega),
      Nat.shiftLeft_eq]
    omega
  rw [highest, upper, shiftLeft_or_eq (Nat.mod_lt _ (by decide))]
  omega

/-! ## What decoding finds -/

/-- A second byte that a three-byte lead rules out. -/
def BarredThree (lead second : Nat) : Prop :=
  if lead = 0xE0 then second < 0xA0 else lead = 0xED ∧ 0x9F < second

/-- A second byte that a four-byte lead rules out. -/
def BarredFour (lead second : Nat) : Prop :=
  if lead = 0xF0 then second < 0x90 else lead = 0xF4 ∧ 0x8F < second

/-- The two ends of a three-byte lead's range rule out some second bytes. -/
theorem not_barredThree_iff
    {lead second : Nat} :
    ¬ BarredThree lead second ↔
      (lead = 0xE0 → 0xA0 ≤ second) ∧ (lead = 0xED → second < 0xA0) := by
  unfold BarredThree
  split <;> omega

/-- The two ends of a four-byte lead's range rule out some second bytes. -/
theorem not_barredFour_iff
    {lead second : Nat} :
    ¬ BarredFour lead second ↔
      (lead = 0xF0 → 0x90 ≤ second) ∧ (lead = 0xF4 → second < 0x90) := by
  unfold BarredFour
  split <;> omega

/-- The four ways of finding a value in the bytes of a sequence. -/
inductive Decodes (available lead second third fourth : Nat) :
    Nat → Nat → Prop where
  | one
      (lead_lt : lead < 0x80) :
      Decodes available lead second third fourth lead 1
  | two
      (le_lead : 0xC2 ≤ lead)
      (lead_lt : lead < 0xE0)
      (enough : 2 ≤ available)
      (continues : isContinuation second) :
      Decodes available lead second third fourth
        (lead % 0x20 * 0x40 + second % 0x40) 2
  | three
      (le_lead : 0xE0 ≤ lead)
      (lead_lt : lead < 0xF0)
      (enough : 3 ≤ available)
      (continues : isContinuation second)
      (continues' : isContinuation third)
      (admitted : ¬ BarredThree lead second) :
      Decodes available lead second third fourth
        (lead % 0x10 * 0x1000 + second % 0x40 * 0x40 + third % 0x40) 3
  | four
      (le_lead : 0xF0 ≤ lead)
      (lead_lt : lead < 0xF5)
      (enough : 4 ≤ available)
      (continues : isContinuation second)
      (continues' : isContinuation third)
      (continues'' : isContinuation fourth)
      (admitted : ¬ BarredFour lead second) :
      Decodes available lead second third fourth
        (lead % 0x08 * 0x40000 + second % 0x40 * 0x1000 +
          third % 0x40 * 0x40 + fourth % 0x40) 4

/-- Decoding finds a value in one of the four ways, and only so. -/
theorem utf8Next_eq_some_iff
    {source : List UInt8}
    {start available value length : Nat} :
    utf8Next source start available = some (value, length) ↔
      Decodes available (byteAt source start) (byteAt source (start + 1))
        (byteAt source (start + 2)) (byteAt source (start + 3))
        value length := by
  unfold utf8Next
  dsimp only
  rw [or_two, or_three, or_four]
  generalize byteAt source start = lead
  generalize byteAt source (start + 1) = second
  generalize byteAt source (start + 2) = third
  generalize byteAt source (start + 3) = fourth
  constructor
  · intro found
    by_cases one : lead < 0x80
    · rw [if_pos one] at found
      cases found
      exact .one one
    rw [if_neg one] at found
    by_cases stray : lead < 0xC2
    · rw [if_pos stray] at found
      cases found
    rw [if_neg stray] at found
    by_cases two : lead < 0xE0
    · rw [if_pos two] at found
      split at found
      · cases found
      · rename_i complete
        simp only [Bool.or_eq_true, decide_eq_true_eq, not_or,
          Bool.not_eq_true', Bool.not_eq_false] at complete
        cases found
        exact .two (by omega) two (by omega) complete.2
    rw [if_neg two] at found
    by_cases three : lead < 0xF0
    · rw [if_pos three] at found
      split at found
      · cases found
      · rename_i complete
        simp only [Bool.or_eq_true, decide_eq_true_eq, not_or,
          Bool.not_eq_true', Bool.not_eq_false] at complete
        obtain ⟨⟨enough, continues⟩, continues'⟩ := complete
        by_cases barred : BarredThree lead second
        · cases (if_pos barred).symm.trans found
        · cases (if_neg barred).symm.trans found
          exact .three (by omega) three (by omega) continues continues'
            barred
    rw [if_neg three] at found
    by_cases four : lead < 0xF5
    · rw [if_pos four] at found
      split at found
      · cases found
      · rename_i complete
        simp only [Bool.or_eq_true, decide_eq_true_eq, not_or,
          Bool.not_eq_true', Bool.not_eq_false] at complete
        obtain ⟨⟨⟨enough, continues⟩, continues'⟩, continues''⟩ := complete
        by_cases barred : BarredFour lead second
        · cases (if_pos barred).symm.trans found
        · cases (if_neg barred).symm.trans found
          exact .four (by omega) four (by omega) continues continues'
            continues'' barred
    · rw [if_neg four] at found
      cases found
  · intro decodes
    cases decodes with
    | one lead_lt =>
        rw [if_pos lead_lt]
    | two le_lead lead_lt enough continues =>
        rw [if_neg (by omega), if_neg (by omega), if_pos lead_lt,
          if_neg (by simp [continues]; omega)]
    | three le_lead lead_lt enough continues continues' admitted =>
        rw [if_neg (by omega), if_neg (by omega), if_neg (by omega),
          if_pos lead_lt, if_neg (by simp [continues, continues']; omega)]
        exact if_neg admitted
    | four le_lead lead_lt enough continues continues' continues''
        admitted =>
        rw [if_neg (by omega), if_neg (by omega), if_neg (by omega),
          if_neg (by omega), if_pos lead_lt,
          if_neg (by simp [continues, continues', continues'']; omega)]
        exact if_neg admitted

/-- What decoding finds is a shortest layout of a scalar value. -/
theorem utf8Next_laidOut
    {source : List UInt8}
    {start available value length : Nat}
    (readable : 0 < available)
    (found : utf8Next source start available = some (value, length)) :
    LaidOut value (bytesFrom source start length) ∧
      length ≤ available ∧ leastOfLength length ≤ value ∧
      (value < 0xD800 ∨ 0xDFFF < value ∧ value < 0x110000) := by
  have tells :
      ∀ {index}, isContinuation (byteAt source index) = true →
        Continues (byteAt source index) :=
    fun marked => (isContinuation_iff (byteAt_lt source _)).mp marked
  cases utf8Next_eq_some_iff.mp found with
  | one lead_lt =>
      exact ⟨.one lead_lt, readable, Nat.zero_le _, .inl (by omega)⟩
  | two le_lead lead_lt enough continues =>
      have second := tells continues
      refine ⟨.two (by omega) lead_lt second, enough, ?_, .inl ?_⟩
      · show 0x80 ≤ _
        omega
      · omega
  | three le_lead lead_lt enough continues continues' admitted =>
      have second := tells continues
      have third := tells continues'
      rw [not_barredThree_iff] at admitted
      unfold Continues at second third
      refine ⟨.three le_lead lead_lt second third, enough, ?_, ?_⟩
      · show 0x800 ≤ _
        omega
      · omega
  | four le_lead lead_lt enough continues continues' continues''
      admitted =>
      have second := tells continues
      have third := tells continues'
      have fourth := tells continues''
      rw [not_barredFour_iff] at admitted
      unfold Continues at second third fourth
      refine ⟨.four le_lead (by omega) second third fourth, enough, ?_, ?_⟩
      · show 0x10000 ≤ _
        omega
      · omega

/-- Decoding finds a scalar value where its standard encoding is read. -/
theorem utf8Next_of_units
    {source : List UInt8}
    {start available : Nat}
    {scalar : Char}
    (readable : scalar.utf8Size ≤ available)
    (spelled :
      bytesFrom source start scalar.utf8Size = units scalar) :
    utf8Next source start available =
      some (scalar.toNat, scalar.utf8Size) := by
  have marked :
      ∀ {low}, low < 0x40 → isContinuation (0x80 + low) = true :=
    fun below =>
      (isContinuation_iff (by omega)).mpr ⟨by omega, by omega⟩
  have low (value : Nat) : value % 0x40 < 0x40 :=
    Nat.mod_lt _ (by decide)
  have valid := scalar_valid scalar
  have long := length_units scalar
  apply utf8Next_eq_some_iff.mpr
  by_cases one : scalar.toNat ≤ 0x7F
  · rw [units_one one] at long spelled
    have size : scalar.utf8Size = 1 := long.symm
    rw [size] at readable spelled ⊢
    have first : byteAt source start = scalar.toNat :=
      List.singleton_inj.mp spelled
    rw [first]
    exact .one (by omega)
  by_cases two : scalar.toNat ≤ 0x7FF
  · rw [units_two (by omega) two] at long spelled
    have size : scalar.utf8Size = 2 := long.symm
    rw [size] at readable spelled ⊢
    simp only [bytesFrom_two, List.cons.injEq, and_true] at spelled
    rw [spelled.1, spelled.2]
    have decodes :=
      @Decodes.two available (0xC0 + scalar.toNat / 0x40)
        (0x80 + scalar.toNat % 0x40)
        (byteAt source (start + 2)) (byteAt source (start + 3))
        (by omega) (by omega) readable (marked (low _))
    convert decodes using 1
    omega
  by_cases three : scalar.toNat ≤ 0xFFFF
  · rw [units_three (by omega) three] at long spelled
    have size : scalar.utf8Size = 3 := long.symm
    rw [size] at readable spelled ⊢
    simp only [bytesFrom_three, List.cons.injEq, and_true] at spelled
    rw [spelled.1, spelled.2.1, spelled.2.2]
    have decodes :=
      @Decodes.three available (0xE0 + scalar.toNat / 0x1000)
        (0x80 + scalar.toNat / 0x40 % 0x40)
        (0x80 + scalar.toNat % 0x40) (byteAt source (start + 3))
        (by omega) (by omega) readable (marked (low _)) (marked (low _))
        (not_barredThree_iff.mpr ⟨by omega, by omega⟩)
    convert decodes using 1
    omega
  · rw [units_four (by omega)] at long spelled
    have size : scalar.utf8Size = 4 := long.symm
    rw [size] at readable spelled ⊢
    simp only [bytesFrom_four, List.cons.injEq, and_true] at spelled
    rw [spelled.1, spelled.2.1, spelled.2.2.1, spelled.2.2.2]
    have decodes :=
      @Decodes.four available (0xF0 + scalar.toNat / 0x40000)
        (0x80 + scalar.toNat / 0x1000 % 0x40)
        (0x80 + scalar.toNat / 0x40 % 0x40)
        (0x80 + scalar.toNat % 0x40)
        (by omega) (by omega) readable (marked (low _)) (marked (low _))
        (marked (low _)) (not_barredFour_iff.mpr ⟨by omega, by omega⟩)
    convert decodes using 1
    omega

/-! ## What stands at a byte -/

/--
What the bytes that are left start with, and how many of them that takes: the
end of the input, a scalar value's standard encoding, or a byte at which none
starts.
-/
inductive Reads : List UInt8 → Int → Nat → Prop where
  | ended :
      Reads [] 0 1
  | scalar
      (scalar : Char)
      (rest : List UInt8) :
      Reads (String.utf8EncodeChar scalar ++ rest) scalar.toNat
        scalar.utf8Size
  | malformed
      {left : List UInt8}
      (nonempty : left ≠ [])
      (none_starts :
        ∀ scalar, ¬ String.utf8EncodeChar scalar <+: left) :
      Reads left tfDecodeError 1

namespace Reads

variable {left : List UInt8}
variable {codePoint : Int}
variable {length : Nat}

/-- Whatever stands at a byte takes at least one. -/
theorem length_pos (reads : Reads left codePoint length) : 0 < length := by
  cases reads with
  | ended => exact Nat.one_pos
  | scalar scalar => exact scalar.utf8Size_pos
  | malformed => exact Nat.one_pos

/-- Whatever stands before the end takes no more than is left. -/
theorem length_le
    (reads : Reads left codePoint length)
    (nonempty : left ≠ []) :
    length ≤ left.length := by
  cases reads with
  | ended => exact absurd rfl nonempty
  | scalar scalar rest => simp
  | malformed => exact List.length_pos_iff.mpr nonempty

end Reads

/-- An encoding is known by its bytes' numbers. -/
theorem utf8EncodeChar_of_units
    {scalar : Char}
    {bytes : List UInt8}
    (spelled : units scalar = bytes.map UInt8.toNat) :
    String.utf8EncodeChar scalar = bytes :=
  List.map_injective_iff.mpr (fun _ _ same => UInt8.toNat_inj.mp same)
    spelled

/-- Decoding within a buffer finds the encoding that stands there. -/
theorem exists_scalar_of_utf8Next
    {source : List UInt8}
    {start value length : Nat}
    (inside : start < source.length)
    (found :
      utf8Next source start (source.length - start) =
        some (value, length)) :
    ∃ scalar : Char,
      scalar.toNat = value ∧ scalar.utf8Size = length ∧
        String.utf8EncodeChar scalar <+: source.drop start := by
  obtain ⟨laid, within, least, valid⟩ :=
    utf8Next_laidOut (Nat.sub_pos_of_lt inside) found
  have long : (bytesFrom source start length).length = length := by
    simp [bytesFrom]
  rw [← long] at least
  obtain ⟨scalar, same, spelled⟩ := exists_scalar laid least valid
  have size : scalar.utf8Size = length := by
    rw [← length_units, spelled, long]
  refine ⟨scalar, same, size, ?_⟩
  rw [bytesFrom_eq_slice (by omega)] at spelled
  rw [utf8EncodeChar_of_units spelled]
  exact List.take_prefix _ _

/-- Decoding within a buffer finds any encoding that stands there. -/
theorem utf8Next_of_starts
    {source : List UInt8}
    {start : Nat}
    {scalar : Char}
    (starts : String.utf8EncodeChar scalar <+: source.drop start) :
    utf8Next source start (source.length - start) =
      some (scalar.toNat, scalar.utf8Size) := by
  have size : scalar.utf8Size ≤ source.length - start := by
    have shorter := starts.length_le
    rwa [String.length_utf8EncodeChar, List.length_drop] at shorter
  have positive := scalar.utf8Size_pos
  refine utf8Next_of_units size ?_
  rw [bytesFrom_eq_slice (by omega), ← String.length_utf8EncodeChar,
    ← List.prefix_iff_eq_take.mp starts]
  rfl

namespace TFLexer

/-- Before the end, the ASCII case agrees with the decoder. -/
theorem decode_of_lt
    {self : TFLexer}
    (inside : self.byte < self.size) :
    self.decode =
      match utf8Next self.source self.byte (self.size - self.byte) with
      | some (codePoint, length) => (codePoint, length)
      | none => (tfDecodeError, 1) := by
  unfold decode
  rw [if_neg (Nat.not_le_of_lt inside)]
  split
  · rename_i ascii
    have found :=
      utf8Next_eq_some_iff.mpr
        (@Decodes.one (self.size - self.byte)
          (byteAt self.source self.byte)
          (byteAt self.source (self.byte + 1))
          (byteAt self.source (self.byte + 2))
          (byteAt self.source (self.byte + 3)) ascii)
    rw [found]
  · rfl

/-- The lookahead is what stands at the current byte. -/
theorem decode_reads
    {self : TFLexer}
    (whole : self.size = self.source.length) :
    Reads (self.source.drop self.byte) self.decode.1 self.decode.2 := by
  by_cases inside : self.byte < self.size
  · rw [decode_of_lt inside, whole]
    rw [whole] at inside
    cases found :
        utf8Next self.source self.byte
          (self.source.length - self.byte) with
    | some step =>
        obtain ⟨value, length⟩ := step
        obtain ⟨scalar, rfl, rfl, starts⟩ :=
          exists_scalar_of_utf8Next inside found
        obtain ⟨rest, parts⟩ := starts
        rw [← parts]
        exact .scalar scalar rest
    | none =>
        refine .malformed ?_ ?_
        · intro nothing
          exact absurd (List.drop_eq_nil_iff.mp nothing) (by omega)
        · intro scalar starts
          rw [utf8Next_of_starts starts] at found
          cases found
  · have ended : self.source.drop self.byte = [] :=
      List.drop_eq_nil_iff.mpr (by omega)
    rw [ended]
    unfold decode
    rw [if_pos (by omega)]
    exact .ended

end TFLexer

end TreeFeller
