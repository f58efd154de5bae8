import TreeFeller.Walking
import Mathlib.Logic.Function.Iterate

/-!
# The positions of a lexer

Every position a lexer gets to, by advancing or by going back to a position it
was at before, lies on one path: the advances from the start of the buffer.
The path goes up byte by byte, so a byte is at one point of it only.
-/

namespace TreeFeller

namespace TFLexer

/-- The lexer after a number of advances. -/
def march (self : TFLexer) (count : Nat) : TFLexer :=
  (fun lexer => lexer.advance false)^[count] self

/-- Where the lexer stands. -/
def position (self : TFLexer) : Nat × TFPoint :=
  (self.byte, self.point)

/-- A position that advancing from the start of a buffer gets to. -/
def OnPath (source : List UInt8) (position : Nat × TFPoint) : Prop :=
  ∃ count, position = ((init source source.length).march count).position

/-- A settled lexer at a position on the path. -/
structure Placed (source : List UInt8) (lexer : TFLexer) : Prop where
  settled : lexer.Settled source
  onPath : OnPath source lexer.position

/-- No advance is none. -/
@[simp] theorem march_zero (self : TFLexer) : self.march 0 = self :=
  rfl

/-- The last one of several advances. -/
theorem march_succ
    (self : TFLexer)
    (count : Nat) :
    self.march (count + 1) = (self.march count).advance false :=
  Function.iterate_succ_apply' _ count self

/-- The advances after other advances. -/
theorem march_add
    (self : TFLexer)
    (first later : Nat) :
    self.march (first + later) = (self.march first).march later := by
  unfold march
  rw [Nat.add_comm]
  exact Function.iterate_add_apply _ later first self

namespace Settled

variable {source : List UInt8}
variable {self other : TFLexer}

/-- Settled lexers at one byte have the same lookahead. -/
theorem lookahead_eq
    (settled : self.Settled source)
    (settled' : other.Settled source)
    (same : self.byte = other.byte) :
    self.lookahead = other.lookahead ∧
      self.lookaheadSize = other.lookaheadSize := by
  have decoded : self.decode = other.decode :=
    decode_congr (settled.reading.trans settled'.reading.symm)
      (settled.sized.trans settled'.sized.symm) same
  rw [settled.decoded, settled.decodedSize, settled'.decoded,
    settled'.decodedSize, decoded]
  exact ⟨rfl, rfl⟩

/-- Advancing does nothing at the end. -/
theorem advance_of_eof
    (settled : self.Settled source)
    (ended : source.length ≤ self.byte)
    (skip : Bool) :
    self.advance skip = self := by
  unfold TFLexer.advance
  rw [settled.sized, if_pos ended]

/-- Advancing before the end steps over the lookahead. -/
theorem advance_of_lt
    (settled : self.Settled source)
    (inside : self.byte < source.length)
    (skip : Bool) :
    self.advance skip = self.doAdvance skip := by
  unfold TFLexer.advance
  rw [settled.sized, if_neg (Nat.not_le_of_lt inside)]

/-- An advance settles again. -/
theorem advance
    (settled : self.Settled source)
    (skip : Bool) :
    (self.advance skip).Settled source := by
  by_cases inside : self.byte < source.length
  · rw [settled.advance_of_lt inside]
    exact settled.doAdvance inside skip
  · rw [settled.advance_of_eof (Nat.le_of_not_lt inside)]
    exact settled

/-- An advance goes up unless the input is used up. -/
theorem byte_lt_advance
    (settled : self.Settled source)
    (inside : self.byte < source.length)
    (skip : Bool) :
    self.byte < (self.advance skip).byte := by
  rw [settled.advance_of_lt inside, settled.doAdvance_byte]
  exact Nat.lt_add_of_pos_right settled.lookaheadSize_pos

/-- An advance never goes back. -/
theorem byte_le_advance
    (settled : self.Settled source)
    (skip : Bool) :
    self.byte ≤ (self.advance skip).byte := by
  by_cases inside : self.byte < source.length
  · exact Nat.le_of_lt (settled.byte_lt_advance inside skip)
  · exact Nat.le_of_eq
      (congrArg byte
        (settled.advance_of_eof (Nat.le_of_not_lt inside) skip)).symm

/-- Where an advance leads depends on the position only. -/
theorem advance_position
    (settled : self.Settled source)
    (settled' : other.Settled source)
    (same : self.position = other.position)
    (skip skip' : Bool) :
    (self.advance skip).position = (other.advance skip').position := by
  have sameByte : self.byte = other.byte := congrArg Prod.fst same
  have samePoint : self.point = other.point := congrArg Prod.snd same
  obtain ⟨lookahead, lookaheadSize⟩ :=
    settled.lookahead_eq settled' sameByte
  by_cases inside : self.byte < source.length
  · rw [settled.advance_of_lt inside,
      settled'.advance_of_lt (sameByte ▸ inside)]
    unfold position
    rw [settled.doAdvance_byte, settled'.doAdvance_byte,
      settled.doAdvance_point, settled'.doAdvance_point]
    unfold advancedPoint
    rw [sameByte, samePoint, lookahead, lookaheadSize]
  · have ended := Nat.le_of_not_lt inside
    rw [settled.advance_of_eof ended,
      settled'.advance_of_eof (sameByte ▸ ended)]
    exact same

/-- Advances settle again. -/
theorem march
    (settled : self.Settled source)
    (count : Nat) :
    (self.march count).Settled source := by
  induction count with
  | zero => exact settled
  | succ count inductionHypothesis =>
      rw [march_succ]
      exact inductionHypothesis.advance false

/-- Advances never go back. -/
theorem byte_le_march
    (settled : self.Settled source)
    (count : Nat) :
    self.byte ≤ (self.march count).byte := by
  induction count with
  | zero => exact Nat.le_refl _
  | succ count inductionHypothesis =>
      rw [march_succ]
      exact Nat.le_trans inductionHypothesis
        ((settled.march count).byte_le_advance false)

/-- Advances that do not move end where they began. -/
theorem march_eq_of_byte_eq
    (settled : self.Settled source)
    {count : Nat}
    (same : (self.march count).byte = self.byte) :
    self.march count = self := by
  induction count with
  | zero => rfl
  | succ count inductionHypothesis =>
      have before := settled.byte_le_march count
      rw [march_succ] at same ⊢
      have after := (settled.march count).byte_le_advance false
      have still : (self.march count).byte = self.byte :=
        Nat.le_antisymm (same ▸ after) before
      rw [inductionHypothesis still] at same ⊢
      by_cases inside : self.byte < source.length
      · exact absurd same
          (Nat.ne_of_gt (settled.byte_lt_advance inside false))
      · exact settled.advance_of_eof (Nat.le_of_not_lt inside) false

end Settled

/-- The path is at a byte once. -/
theorem OnPath.point_unique
    {source : List UInt8}
    {position position' : Nat × TFPoint}
    (onPath : OnPath source position)
    (onPath' : OnPath source position')
    (same : position.1 = position'.1) :
    position = position' := by
  obtain ⟨count, rfl⟩ := onPath
  obtain ⟨count', rfl⟩ := onPath'
  have settled := settled_init source
  rcases Nat.le_total count count' with earlier | earlier
  · obtain ⟨more, rfl⟩ := Nat.exists_eq_add_of_le earlier
    rw [march_add] at same ⊢
    rw [(settled.march count).march_eq_of_byte_eq same.symm]
  · obtain ⟨more, rfl⟩ := Nat.exists_eq_add_of_le earlier
    rw [march_add] at same ⊢
    rw [(settled.march count').march_eq_of_byte_eq same]

/-- The path stays within the buffer. -/
theorem OnPath.byte_le
    {source : List UInt8}
    {position : Nat × TFPoint}
    (onPath : OnPath source position) :
    position.1 ≤ source.length := by
  obtain ⟨count, rfl⟩ := onPath
  exact ((settled_init source).march count).within

/-- The path starts at the start of the buffer. -/
theorem onPath_init (source : List UInt8) :
    OnPath source (init source source.length).position :=
  ⟨0, rfl⟩

/-- A lexer starts on the path. -/
theorem placed_init (source : List UInt8) :
    (init source source.length).Placed source :=
  ⟨settled_init source, onPath_init source⟩

namespace Placed

variable {source : List UInt8}
variable {self other : TFLexer}

/-- An advance stays on the path. -/
theorem advance
    (placed : self.Placed source)
    (skip : Bool) :
    (self.advance skip).Placed source := by
  refine ⟨placed.settled.advance skip, ?_⟩
  obtain ⟨count, here⟩ := placed.onPath
  refine ⟨count + 1, ?_⟩
  rw [march_succ]
  exact placed.settled.advance_position
    ((settled_init source).march count) here skip false

/-- Going to a position on the path settles there. -/
theorem seek
    (placed : self.Placed source)
    {byte : Nat}
    {point : TFPoint}
    (onPath : OnPath source (byte, point)) :
    (self.seek byte point).Placed source :=
  ⟨settled_getLookahead placed.settled.reading placed.settled.sized
      onPath.byte_le,
    onPath⟩

end Placed

end TFLexer

end TreeFeller
