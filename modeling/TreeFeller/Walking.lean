import TreeFeller.Decoding

/-!
# Walking a buffer

Stepping over one lookahead after the other takes a buffer apart: into the
scalar values of the encodings that stand in it, and single bytes where none
does.
-/

namespace TreeFeller

open Scalars

/-- One step of a walk: where it starts, what it finds, what it steps over. -/
structure WalkStep where
  byte : Nat
  codePoint : Int
  length : Nat
  deriving Repr, DecidableEq

namespace TFLexer

/-- A lexer over a buffer, within it and with its lookahead decoded. -/
structure Settled (source : List UInt8) (lexer : TFLexer) : Prop where
  reading : lexer.source = source
  sized : lexer.size = source.length
  within : lexer.byte ≤ source.length
  decoded : lexer.lookahead = lexer.decode.1
  decodedSize : lexer.lookaheadSize = lexer.decode.2

/-- The steps from a lexer's position to the end of the input. -/
def walk : Nat → TFLexer → List WalkStep
  | 0, _ => []
  | fuel + 1, self =>
      if self.size ≤ self.byte then
        []
      else
        ⟨self.byte, self.lookahead, self.lookaheadSize⟩ ::
          walk fuel (self.doAdvance false)

/-- The steps over a whole buffer. -/
def walkOf (source : List UInt8) : List WalkStep :=
  walk source.length (.init source source.length)

/-- What the decoder looks at. -/
theorem decode_congr
    {self other : TFLexer}
    (source : self.source = other.source)
    (size : self.size = other.size)
    (byte : self.byte = other.byte) :
    self.decode = other.decode := by
  unfold decode
  rw [source, size, byte]

/-- A lexer that just decoded its lookahead is settled. -/
theorem settled_getLookahead
    {source : List UInt8}
    {self : TFLexer}
    (same : self.source = source)
    (size : self.size = source.length)
    (byte : self.byte ≤ source.length) :
    self.getLookahead.Settled source :=
  ⟨same, size, byte, rfl, rfl⟩

/-- A lexer starts settled. -/
theorem settled_init (source : List UInt8) :
    (init source source.length).Settled source :=
  settled_getLookahead rfl rfl (Nat.zero_le _)

namespace Settled

variable {source : List UInt8}
variable {self : TFLexer}

/-- The lookahead of a settled lexer is what stands at its byte. -/
theorem reads (settled : self.Settled source) :
    Reads (source.drop self.byte) self.lookahead self.lookaheadSize := by
  rw [settled.decoded, settled.decodedSize, ← settled.reading]
  exact decode_reads (settled.reading ▸ settled.sized)

/-- A settled lexer never has an empty lookahead. -/
theorem lookaheadSize_pos (settled : self.Settled source) :
    0 < self.lookaheadSize :=
  settled.reads.length_pos

/-- Before the end, the lookahead lies within the buffer. -/
theorem lookahead_within
    (settled : self.Settled source)
    (inside : self.byte < source.length) :
    self.byte + self.lookaheadSize ≤ source.length := by
  have nonempty : source.drop self.byte ≠ [] := by
    intro nothing
    exact absurd (List.drop_eq_nil_iff.mp nothing) (by omega)
  have within := settled.reads.length_le nonempty
  rw [List.length_drop] at within
  omega

/-- Stepping over the lookahead moves by its size. -/
theorem doAdvance_byte
    (settled : self.Settled source)
    (skip : Bool) :
    (self.doAdvance skip).byte = self.byte + self.lookaheadSize := by
  have sized : self.lookaheadSize ≠ 0 :=
    Nat.pos_iff_ne_zero.mp settled.lookaheadSize_pos
  unfold doAdvance getLookahead
  rw [if_pos sized]
  split <;> rfl

/-- Stepping over the lookahead moves the point past it. -/
theorem doAdvance_point
    (settled : self.Settled source)
    (skip : Bool) :
    (self.doAdvance skip).point = self.advancedPoint := by
  have sized : self.lookaheadSize ≠ 0 :=
    Nat.pos_iff_ne_zero.mp settled.lookaheadSize_pos
  unfold doAdvance getLookahead
  rw [if_pos sized]
  split <;> rfl

/-- Before the end, stepping over the lookahead settles again. -/
theorem doAdvance
    (settled : self.Settled source)
    (inside : self.byte < source.length)
    (skip : Bool) :
    (self.doAdvance skip).Settled source := by
  have within : (self.doAdvance skip).byte ≤ source.length := by
    rw [settled.doAdvance_byte skip]
    exact settled.lookahead_within inside
  have moved : (self.doAdvance skip).source = source := by
    rw [← settled.reading]
    unfold TFLexer.doAdvance getLookahead
    split <;> split <;> rfl
  have sized : (self.doAdvance skip).size = source.length := by
    rw [← settled.sized]
    unfold TFLexer.doAdvance getLookahead
    split <;> split <;> rfl
  exact ⟨moved, sized, within, rfl, rfl⟩

end Settled

end TFLexer

/--
A walk from a byte to the end of a buffer, each step finding what stands at its
byte and the next one starting where it ends.
-/
inductive Walked (source : List UInt8) : Nat → List WalkStep → Prop where
  | ended :
      Walked source source.length []
  | step
      {start length : Nat}
      {codePoint : Int}
      {rest : List WalkStep}
      (inside : start < source.length)
      (reads : Reads (source.drop start) codePoint length)
      (later : Walked source (start + length) rest) :
      Walked source start (⟨start, codePoint, length⟩ :: rest)

namespace TFLexer

/-- A walk with enough fuel gets to the end of the buffer. -/
theorem walked
    {source : List UInt8}
    {fuel : Nat}
    {self : TFLexer}
    (settled : self.Settled source)
    (enough : source.length ≤ self.byte + fuel) :
    Walked source self.byte (walk fuel self) := by
  induction fuel generalizing self with
  | zero =>
      have atEnd : self.byte = source.length :=
        Nat.le_antisymm settled.within enough
      rw [atEnd]
      exact .ended
  | succ fuel inductionHypothesis =>
      unfold walk
      by_cases ended : self.size ≤ self.byte
      · rw [if_pos ended]
        rw [settled.sized] at ended
        rw [Nat.le_antisymm settled.within ended]
        exact .ended
      · rw [if_neg ended]
        rw [settled.sized] at ended
        have inside : self.byte < source.length := Nat.lt_of_not_le ended
        refine .step inside settled.reads ?_
        rw [← settled.doAdvance_byte false]
        apply inductionHypothesis (settled.doAdvance inside false)
        have positive := settled.lookaheadSize_pos
        rw [settled.doAdvance_byte false]
        omega

/-- A walk over a buffer gets to its end. -/
theorem walkOf_walked (source : List UInt8) :
    Walked source 0 (walkOf source) :=
  walked (settled_init source) (Nat.le_add_left _ _)

end TFLexer

/-- The bytes of a buffer that a step of a walk steps over. -/
def WalkStep.piece (source : List UInt8) (step : WalkStep) : List UInt8 :=
  (source.drop step.byte).take step.length

/-- What stands at a byte where an encoding starts. -/
theorem Reads.of_append
    {scalar : Char}
    {rest : List UInt8}
    {codePoint : Int}
    {length : Nat}
    (reads :
      Reads (String.utf8EncodeChar scalar ++ rest) codePoint length) :
    codePoint = scalar.toNat ∧ length = scalar.utf8Size := by
  generalize parts : String.utf8EncodeChar scalar ++ rest = left at reads
  cases reads with
  | ended =>
      have nothing := (List.append_eq_nil_iff.mp parts).1
      have long := String.length_utf8EncodeChar scalar
      rw [nothing] at long
      exact absurd long.symm (Nat.pos_iff_ne_zero.mp scalar.utf8Size_pos)
  | scalar other rest' =>
      -- Decoding is a function, so that only one encoding starts here.
      have found :=
        @utf8Next_of_starts _ 0 scalar ⟨rest, parts⟩
      have found' :=
        @utf8Next_of_starts _ 0 other ⟨rest', rfl⟩
      rw [found] at found'
      have same := Option.some.inj found'
      exact ⟨congrArg _ (congrArg Prod.fst same).symm,
        (congrArg Prod.snd same).symm⟩
  | malformed nonempty none_starts =>
      exact absurd ⟨rest, parts⟩ (none_starts scalar)

namespace Walked

variable {source : List UInt8}
variable {start : Nat}
variable {steps : List WalkStep}

/-- The pieces a walk steps over make up the buffer that is left. -/
theorem covers (walked : Walked source start steps) :
    steps.flatMap (WalkStep.piece source) = source.drop start := by
  induction walked with
  | ended => simp
  | @step start length codePoint rest inside reads later
      inductionHypothesis =>
      rw [List.flatMap_cons, inductionHypothesis, ← List.drop_drop]
      exact List.take_append_drop _ _

/-- Every step of a walk finds what stands at its byte. -/
theorem reads
    (walked : Walked source start steps)
    {step : WalkStep}
    (member : step ∈ steps) :
    step.byte < source.length ∧
      Reads (source.drop step.byte) step.codePoint step.length := by
  induction walked with
  | ended => cases member
  | step inside reads later inductionHypothesis =>
      rcases List.mem_cons.mp member with rfl | later
      · exact ⟨inside, reads⟩
      · exact inductionHypothesis later

/-- A walk over encodings finds their scalar values, one after the other. -/
theorem of_encodings
    {scalars : List Char}
    (walked : Walked source start steps)
    (encoded :
      source.drop start = scalars.flatMap String.utf8EncodeChar) :
    steps.map WalkStep.codePoint =
        scalars.map (fun scalar => (scalar.toNat : Int)) ∧
      steps.map (WalkStep.piece source) =
        scalars.map String.utf8EncodeChar := by
  induction walked generalizing scalars with
  | ended =>
      rw [List.drop_length] at encoded
      cases scalars with
      | nil => exact ⟨rfl, rfl⟩
      | cons scalar scalars =>
          have long := congrArg List.length encoded
          have positive := scalar.utf8Size_pos
          simp only [List.length_nil, List.flatMap_cons,
            List.length_append, String.length_utf8EncodeChar] at long
          omega
  | @step start length codePoint rest inside reads later
      inductionHypothesis =>
      cases scalars with
      | nil =>
          exact absurd (List.drop_eq_nil_iff.mp encoded) (by omega)
      | cons scalar scalars =>
          rw [List.flatMap_cons] at encoded
          rw [encoded] at reads
          obtain ⟨rfl, rfl⟩ := reads.of_append
          have tail :
              source.drop (start + scalar.utf8Size) =
                scalars.flatMap String.utf8EncodeChar := by
            rw [← List.drop_drop, encoded, List.drop_left']
            exact String.length_utf8EncodeChar scalar
          have piece :
              WalkStep.piece source
                  ⟨start, scalar.toNat, scalar.utf8Size⟩ =
                String.utf8EncodeChar scalar := by
            show (source.drop start).take scalar.utf8Size = _
            rw [encoded, List.take_left']
            exact String.length_utf8EncodeChar scalar
          obtain ⟨values, pieces⟩ := inductionHypothesis tail
          rw [List.map_cons, List.map_cons, List.map_cons, List.map_cons,
            values, pieces, piece]
          exact ⟨rfl, rfl⟩

end Walked

/-- A step that finds a code point steps over its shortest encoding. -/
theorem Reads.shortest
    {left : List UInt8}
    {codePoint : Int}
    {length : Nat}
    (reads : Reads left codePoint length)
    (nonempty : left ≠ [])
    (found : codePoint ≠ tfDecodeError) :
    ∃ scalar : Char,
      codePoint = scalar.toNat ∧
        left.take length = String.utf8EncodeChar scalar ∧
        ∀ bytes, LaidOut scalar.toNat bytes → length ≤ bytes.length := by
  cases reads with
  | ended => exact absurd rfl nonempty
  | scalar scalar rest =>
      refine ⟨scalar, rfl, ?_, ?_⟩
      · rw [List.take_left']
        exact String.length_utf8EncodeChar scalar
      · intro bytes laid
        rw [← length_units]
        exact length_units_le laid
  | malformed => exact absurd rfl found

/-- A step that finds none stands where no encoding starts. -/
theorem Reads.error
    {left : List UInt8}
    {codePoint : Int}
    {length : Nat}
    (reads : Reads left codePoint length)
    (found : codePoint = tfDecodeError) :
    length = 1 ∧ ∀ scalar, ¬ String.utf8EncodeChar scalar <+: left := by
  cases reads with
  | ended => cases found
  | scalar scalar rest => exact absurd found (by unfold tfDecodeError; omega)
  | malformed nonempty none_starts => exact ⟨rfl, none_starts⟩

namespace TFLexer

/--
The walk over a buffer is exact.  Over the encodings of scalar values it finds
these values in order, a piece for each.  Over any buffer it goes from one step
to the next without a gap to the end; a step that finds a code point steps over
the shortest encoding of a scalar value, within the buffer, and a step that
finds an error steps over one byte at which no encoding of one starts.
-/
theorem walk_exact :
    (∀ scalars : List Char,
      (walkOf (scalars.flatMap String.utf8EncodeChar)).map
            WalkStep.codePoint =
          scalars.map (fun scalar => (scalar.toNat : Int)) ∧
        (walkOf (scalars.flatMap String.utf8EncodeChar)).map
            (WalkStep.piece (scalars.flatMap String.utf8EncodeChar)) =
          scalars.map String.utf8EncodeChar) ∧
    ∀ source : List UInt8,
      Walked source 0 (walkOf source) ∧
      (walkOf source).flatMap (WalkStep.piece source) = source ∧
      ∀ step ∈ walkOf source,
        step.byte + step.length ≤ source.length ∧
        (step.codePoint ≠ tfDecodeError →
          ∃ scalar : Char,
            step.codePoint = scalar.toNat ∧
              step.piece source = String.utf8EncodeChar scalar ∧
              ∀ bytes, LaidOut scalar.toNat bytes →
                step.length ≤ bytes.length) ∧
        (step.codePoint = tfDecodeError →
          step.length = 1 ∧
            ∀ scalar : Char,
              ¬ String.utf8EncodeChar scalar <+:
                source.drop step.byte) := by
  refine ⟨?_, ?_⟩
  · intro scalars
    exact (walkOf_walked _).of_encodings rfl
  · intro source
    have walked := walkOf_walked source
    refine ⟨walked, walked.covers, ?_⟩
    intro step member
    obtain ⟨inside, reads⟩ := walked.reads member
    have nonempty : source.drop step.byte ≠ [] := by
      intro nothing
      exact absurd (List.drop_eq_nil_iff.mp nothing) (by omega)
    refine ⟨?_, reads.shortest nonempty, reads.error⟩
    have within := reads.length_le nonempty
    rw [List.length_drop] at within
    omega

end TFLexer

end TreeFeller
