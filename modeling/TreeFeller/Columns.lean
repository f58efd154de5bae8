import TreeFeller.LexerHistories

/-!
# The column callback

The column is counted anew on each call, from a start that the byte column of
the point gives.  The count goes through the very positions that the lexer
advanced through since the start of the line, so that it counts its advances.
-/

namespace TreeFeller

open Scalars

/-- A standard encoding holds a newline only if it is the newline's. -/
theorem newline_not_mem_units
    {scalar : Char}
    (other : scalar.toNat ≠ 10) :
    10 ∉ units scalar := by
  intro member
  by_cases one : scalar.toNat ≤ 0x7F
  · rw [units_one one] at member
    exact other (List.mem_singleton.mp member).symm
  by_cases two : scalar.toNat ≤ 0x7FF
  · rw [units_two (by omega) two] at member
    simp only [List.mem_cons, List.not_mem_nil, or_false] at member
    omega
  by_cases three : scalar.toNat ≤ 0xFFFF
  · rw [units_three (by omega) three] at member
    simp only [List.mem_cons, List.not_mem_nil, or_false] at member
    omega
  · rw [units_four (by omega)] at member
    simp only [List.mem_cons, List.not_mem_nil, or_false] at member
    omega

/-- A newline is one byte. -/
theorem Reads.newline
    {left : List UInt8}
    {length : Nat}
    (reads : Reads left 10 length) :
    length = 1 ∧ ∃ rest, left = 10 :: rest := by
  generalize isNewline : (10 : Int) = codePoint at reads
  cases reads with
  | ended => cases isNewline
  | scalar scalar rest =>
      have value : scalar.toNat = 10 := (Int.ofNat.inj isNewline).symm
      have same : scalar = '\n' := Char.toNat_inj.mp value
      subst same
      exact ⟨rfl, rest, rfl⟩
  | malformed => cases isNewline

/-- What is no newline holds none. -/
theorem Reads.no_newline
    {left : List UInt8}
    {codePoint : Int}
    {length : Nat}
    (reads : Reads left codePoint length)
    (other : codePoint ≠ 10) :
    10 ∉ left.take length := by
  intro member
  cases reads with
  | ended => cases member
  | scalar scalar rest =>
      rw [List.take_left' (String.length_utf8EncodeChar scalar)] at member
      have value : scalar.toNat ≠ 10 := fun same => other (by rw [same]; rfl)
      exact newline_not_mem_units value
        (List.mem_map_of_mem (f := UInt8.toNat) member)
  | malformed nonempty none_starts =>
      cases left with
      | nil => cases member
      | cons first rest =>
          have same : 10 = first := List.mem_singleton.mp member
          exact none_starts '\n' ⟨rest, by rw [← same]; rfl⟩

namespace TFLexer

/-- One pass of the loop that counts the column. -/
def columnStep (self : TFLexer) (at_ : Nat × Nat) : Nat × Nat :=
  let decoded := utf8Next self.source at_.1 (self.size - at_.1)
  let length := (decoded.map Prod.snd).getD 1
  let isBom := decoded.map (fun step => (step.1 : Int)) == some tfBom
  (at_.1 + length, if at_.1 ≠ 0 || !isBom then at_.2 + 1 else at_.2)

/-- The loop that counts the column, pass by pass. -/
theorem columnFrom_succ
    (self : TFLexer)
    (limit fuel : Nat)
    (at_ : Nat × Nat) :
    self.columnFrom limit (fuel + 1) at_.1 at_.2 =
      if at_.1 < limit then
        self.columnFrom limit fuel (self.columnStep at_).1
          (self.columnStep at_).2
      else
        at_.2 :=
  rfl

/--
The advances since the start of a lexer's line: they lead from there to the
lexer, and no byte on the way is a newline.
-/
structure SinceLineStart
    (source : List UInt8)
    (lexer start : TFLexer)
    (count : Nat) : Prop where
  placed : start.Placed source
  begins : start.byte = 0 ∨ byteAt source (start.byte - 1) = 10
  startPoint : start.point = ⟨lexer.point.row, 0⟩
  startByte : start.byte + lexer.point.column = lexer.byte
  leads : (start.march count).position = lexer.position
  below : ∀ earlier < count, (start.march earlier).byte < lexer.byte
  oneLine :
    ∀ index, start.byte ≤ index → index < lexer.byte →
      byteAt source index ≠ 10

namespace SinceLineStart

variable {source : List UInt8}
variable {self start : TFLexer}
variable {count : Nat}

/-- Past a newline, a line starts. -/
theorem of_newline
    (placed : self.Placed source)
    (inside : self.byte < source.length)
    (newline : self.lookahead = 10) :
    SinceLineStart source (self.doAdvance false) (self.doAdvance false)
      0 := by
  have settled := placed.settled
  have next : (self.doAdvance false).Placed source := by
    rw [← settled.advance_of_lt inside false]
    exact placed.advance false
  have reads := settled.reads
  rw [newline] at reads
  obtain ⟨one, rest, left⟩ := reads.newline
  have byte : (self.doAdvance false).byte = self.byte + 1 := by
    rw [settled.doAdvance_byte, one]
  have point : (self.doAdvance false).point = ⟨self.point.row + 1, 0⟩ := by
    rw [settled.doAdvance_point]
    unfold advancedPoint
    rw [if_pos newline]
  refine ⟨next, .inr ?_, ?_, ?_, rfl, ?_, ?_⟩
  · have isNewline : source[self.byte]? = some 10 := by
      rw [← List.head?_drop, left]
      rfl
    rw [byte, Nat.add_sub_cancel]
    unfold byteAt
    rw [List.getD_eq_getElem?_getD, isNewline]
    rfl
  · rw [point]
  · rw [point]
    exact Nat.add_zero _
  · intro earlier isEarlier
    cases isEarlier
  · intro index above below
    exact absurd below (Nat.not_lt_of_le above)

/-- Any other advance stays on the line. -/
theorem extend
    (since : SinceLineStart source self start count)
    (settled : self.Settled source)
    (inside : self.byte < source.length)
    (other : self.lookahead ≠ 10) :
    SinceLineStart source (self.doAdvance false) start (count + 1) := by
  have byte := settled.doAdvance_byte false
  have positive := settled.lookaheadSize_pos
  have point :
      (self.doAdvance false).point =
        ⟨self.point.row, self.point.column + self.lookaheadSize⟩ := by
    rw [settled.doAdvance_point]
    unfold advancedPoint
    rw [if_neg other]
  have reached : (start.march count).byte = self.byte :=
    congrArg Prod.fst since.leads
  refine ⟨since.placed, since.begins, ?_, ?_, ?_, ?_, ?_⟩
  · rw [point]
    exact since.startPoint
  · rw [point, byte, ← since.startByte]
    exact (Nat.add_assoc _ _ _).symm
  · rw [march_succ, ← settled.advance_of_lt inside false]
    exact (since.placed.settled.march count).advance_position settled
      since.leads false false
  · intro earlier isEarlier
    rw [byte]
    rcases Nat.lt_succ_iff_lt_or_eq.mp isEarlier with before | same
    · exact Nat.lt_add_right _ (since.below earlier before)
    · rw [same, reached]
      exact Nat.lt_add_of_pos_right positive
  · intro index above below
    rw [byte] at below
    by_cases before : index < self.byte
    · exact since.oneLine index above before
    · intro isNewline
      have onward : self.byte ≤ index := Nat.le_of_not_lt before
      have within := settled.lookahead_within inside
      have inSource : index < source.length :=
        Nat.lt_of_lt_of_le below within
      apply settled.reads.no_newline other
      rw [List.mem_iff_getElem?]
      refine ⟨index - self.byte, ?_⟩
      rw [List.getElem?_take_of_lt (by omega), List.getElem?_drop,
        Nat.add_sub_cancel' onward, List.getElem?_eq_getElem inSource]
      unfold byteAt at isNewline
      rw [List.getD_eq_getElem?_getD, List.getElem?_eq_getElem inSource]
        at isNewline
      exact congrArg some (UInt8.toNat_inj.mp isNewline)

/-- What led to a position leads to any lexer there. -/
theorem of_position
    {other : TFLexer}
    (since : SinceLineStart source self start count)
    (same : self.position = other.position) :
    SinceLineStart source other start count := by
  have byte : self.byte = other.byte := congrArg Prod.fst same
  have point : self.point = other.point := congrArg Prod.snd same
  obtain ⟨placed, begins, startPoint, startByte, leads, below, oneLine⟩ :=
    since
  rw [point] at startPoint
  rw [point, byte] at startByte
  rw [byte] at below oneLine
  exact
    ⟨placed, begins, startPoint, startByte, leads.trans same, below,
      oneLine⟩

end SinceLineStart

/-- Every position on the path is some advances into its line. -/
theorem exists_sinceLineStart_march
    (source : List UInt8)
    (count : Nat) :
    ∃ start advances,
      SinceLineStart source ((init source source.length).march count)
        start advances := by
  induction count with
  | zero =>
      refine ⟨init source source.length, 0, placed_init source, .inl rfl,
        rfl, rfl, rfl, ?_, ?_⟩
      · intro earlier isEarlier
        cases isEarlier
      · intro index _ below
        cases below
  | succ count inductionHypothesis =>
      obtain ⟨start, advances, since⟩ := inductionHypothesis
      have placed :
          ((init source source.length).march count).Placed source :=
        ⟨(settled_init source).march count, count, rfl⟩
      rw [march_succ]
      generalize (init source source.length).march count = lexer at *
      by_cases inside : lexer.byte < source.length
      · rw [placed.settled.advance_of_lt inside]
        by_cases newline : lexer.lookahead = 10
        · exact ⟨_, _, .of_newline placed inside newline⟩
        · exact
            ⟨start, advances + 1,
              since.extend placed.settled inside newline⟩
      · rw [placed.settled.advance_of_eof (Nat.le_of_not_lt inside)]
        exact ⟨start, advances, since⟩

/-- Every lexer on the path is some advances into its line. -/
theorem Placed.exists_sinceLineStart
    {source : List UInt8}
    {self : TFLexer}
    (placed : self.Placed source) :
    ∃ start advances, SinceLineStart source self start advances := by
  obtain ⟨count, here⟩ := placed.onPath
  obtain ⟨start, advances, since⟩ := exists_sinceLineStart_march source count
  exact ⟨start, advances, since.of_position here.symm⟩

/-! ## The count -/

/-- A pass of the loop steps over what stands at a lexer's byte. -/
theorem columnStep_eq
    {source : List UInt8}
    {self lexer : TFLexer}
    (settled : self.Settled source)
    (settled' : lexer.Settled source)
    (inside : lexer.byte < source.length)
    (column : Nat) :
    self.columnStep (lexer.byte, column) =
      (lexer.byte + lexer.lookaheadSize,
        if lexer.byte = 0 ∧ lexer.lookahead = tfBom then
          column
        else
          column + 1) := by
  have decoded := decode_of_lt (settled'.sized ▸ inside)
  have lookahead := settled'.decoded
  have lookaheadSize := settled'.decodedSize
  rw [decoded, settled'.reading, settled'.sized]
    at lookahead lookaheadSize
  unfold columnStep
  dsimp only
  rw [settled.reading, settled.sized]
  cases found : utf8Next source lexer.byte (source.length - lexer.byte) with
  | none =>
      rw [found] at lookahead lookaheadSize
      have noMark : lexer.lookahead ≠ tfBom := by
        rw [lookahead]
        decide
      have notBoth : ¬ (lexer.byte = 0 ∧ lexer.lookahead = tfBom) :=
        fun both => noMark both.2
      rw [lookaheadSize, if_neg notBoth]
      simp
  | some step =>
      rw [found] at lookahead lookaheadSize
      dsimp only at lookahead lookaheadSize
      rw [lookahead, lookaheadSize]
      by_cases mark : lexer.byte = 0 ∧ (step.1 : Int) = tfBom
      · rw [if_pos mark]
        simp [mark.1, mark.2]
      · rw [if_neg mark]
        simp only [Option.map_some, Option.getD_some, Prod.mk.injEq,
          true_and]
        rw [if_pos]
        simp only [ne_eq, Bool.or_eq_true, decide_eq_true_eq,
          Bool.not_eq_true', beq_eq_false_iff_ne, Option.some.injEq]
        exact Classical.not_and_iff_not_or_not.mp mark

/-- The advances that count: all but one over a byte order mark at byte 0. -/
def countedAdvances (start : TFLexer) (count : Nat) : Nat :=
  if start.byte = 0 ∧ start.lookahead = tfBom ∧ 0 < count then
    count - 1
  else
    count

namespace SinceLineStart

variable {source : List UInt8}
variable {self start : TFLexer}
variable {count : Nat}

/-- The passes of the loop are the advances since the start of the line. -/
theorem columnStep_iterate
    (since : SinceLineStart source self start count)
    (settled : self.Settled source)
    {passes : Nat}
    (within : passes ≤ count) :
    self.columnStep^[passes] (start.byte, 0) =
      ((start.march passes).byte, countedAdvances start passes) := by
  induction passes with
  | zero =>
      unfold countedAdvances
      rw [if_neg (fun counts => Nat.lt_irrefl 0 counts.2.2)]
      rfl
  | succ passes inductionHypothesis =>
      have here := since.placed.settled.march passes
      have inside : (start.march passes).byte < source.length :=
        Nat.lt_of_lt_of_le (since.below passes within) settled.within
      rw [Function.iterate_succ_apply',
        inductionHypothesis (Nat.le_of_succ_le within),
        columnStep_eq settled here inside, march_succ,
        here.advance_of_lt inside, here.doAdvance_byte]
      congr 1
      cases passes with
      | zero =>
          unfold countedAdvances
          rw [march_zero]
          by_cases mark : start.byte = 0 ∧ start.lookahead = tfBom
          · rw [if_pos mark, if_neg (fun counts => Nat.lt_irrefl 0 counts.2.2),
              if_pos ⟨mark.1, mark.2, Nat.one_pos⟩]
          · rw [if_neg mark, if_neg (fun counts => Nat.lt_irrefl 0 counts.2.2),
              if_neg (fun counts => mark ⟨counts.1, counts.2.1⟩)]
      | succ passes =>
          -- The position is past the start of the line, hence not at 0.
          have later : (start.march (passes + 1)).byte ≠ 0 := by
            have before := since.placed.settled.march passes
            have insideBefore : (start.march passes).byte < source.length :=
              Nat.lt_of_lt_of_le
                (since.below passes (by omega)) settled.within
            have up := before.byte_lt_advance insideBefore false
            rw [← march_succ] at up
            omega
          rw [if_neg (fun mark => later mark.1)]
          unfold countedAdvances
          split
          · rename_i mark
            rw [if_pos ⟨mark.1, mark.2.1, Nat.succ_pos _⟩]
            omega
          · rename_i noMark
            rw [if_neg (fun mark =>
              noMark ⟨mark.1, mark.2.1, Nat.succ_pos _⟩)]

/-- The loop has enough fuel if it has as much as there are passes left. -/
theorem columnFrom_eq
    (since : SinceLineStart source self start count)
    (settled : self.Settled source)
    {fuel passes : Nat}
    (within : passes ≤ count)
    (enough : count ≤ passes + fuel) :
    self.columnFrom self.byte fuel
        (self.columnStep^[passes] (start.byte, 0)).1
        (self.columnStep^[passes] (start.byte, 0)).2 =
      countedAdvances start count := by
  induction fuel generalizing passes with
  | zero =>
      have all : passes = count := Nat.le_antisymm within enough
      rw [since.columnStep_iterate settled within, all]
      rfl
  | succ fuel inductionHypothesis =>
      rw [columnFrom_succ, ← Function.iterate_succ_apply' self.columnStep]
      rcases Nat.lt_or_eq_of_le within with more | all
      · have below :
            (self.columnStep^[passes] (start.byte, 0)).1 < self.byte := by
          rw [since.columnStep_iterate settled within]
          exact since.below passes more
        rw [if_pos below]
        exact inductionHypothesis more (by omega)
      · have reached : (start.march count).byte = self.byte :=
          congrArg Prod.fst since.leads
        rw [since.columnStep_iterate settled within, all, if_neg]
        exact Nat.not_lt_of_le (Nat.le_of_eq reached.symm)

/-- Every advance goes up by a byte or more. -/
theorem count_le
    (since : SinceLineStart source self start count)
    (settled : self.Settled source)
    {passes : Nat}
    (within : passes ≤ count) :
    start.byte + passes ≤ (start.march passes).byte := by
  induction passes with
  | zero => exact Nat.le_refl _
  | succ passes inductionHypothesis =>
      have here := since.placed.settled.march passes
      have inside : (start.march passes).byte < source.length :=
        Nat.lt_of_lt_of_le (since.below passes within) settled.within
      have up := here.byte_lt_advance inside false
      have before := inductionHypothesis (Nat.le_of_succ_le within)
      rw [march_succ]
      omega

end SinceLineStart

/--
Counting the column anew agrees with the advances.  At every step of driving a
lexer, the point's column reaches back to the start of the line, from where
some number of advances leads to the lexer.  The column is this number, but for
one over a byte order mark at byte 0; the loop that counts it makes exactly
this many passes, each from below the lexer's byte, and stops at that byte,
whatever fuel it is given beyond that.
-/
theorem getColumn_counts_advances
    {source : List UInt8}
    {visited : List TFLexer}
    {lexer : TFLexer}
    (lexes : Lexes source visited lexer) :
    ∀ held ∈ visited,
      held.point.column ≤ held.byte ∧
      ∃ start count,
        SinceLineStart source held start count ∧
        held.getColumn = countedAdvances start count ∧
        (∀ earlier < count,
          (held.columnStep^[earlier]
            (held.byte - held.point.column, 0)).1 < held.byte) ∧
        held.columnStep^[count] (held.byte - held.point.column, 0) =
          (held.byte, held.getColumn) ∧
        ∀ fuel, count ≤ fuel →
          held.columnFrom held.byte fuel
              (held.byte - held.point.column) 0 =
            held.getColumn := by
  intro held member
  have placed := lexes.placed.1 held member
  have settled := placed.settled
  obtain ⟨start, count, since⟩ := placed.exists_sinceLineStart
  have startByte := since.startByte
  have begins : held.byte - held.point.column = start.byte := by omega
  have reached : (start.march count).byte = held.byte :=
    congrArg Prod.fst since.leads
  have counts :
      ∀ fuel, count ≤ fuel →
        held.columnFrom held.byte fuel start.byte 0 =
          countedAdvances start count := by
    intro fuel enough
    exact since.columnFrom_eq settled (Nat.zero_le _)
      (by rw [Nat.zero_add]; exact enough)
  have fewer := since.count_le settled (Nat.le_refl count)
  have within := settled.within
  have column : held.getColumn = countedAdvances start count := by
    unfold getColumn
    rw [begins]
    apply counts
    rw [settled.sized]
    omega
  refine ⟨by omega, start, count, since, column, ?_, ?_, ?_⟩
  · intro earlier isEarlier
    rw [begins, since.columnStep_iterate settled (Nat.le_of_lt isEarlier)]
    exact since.below earlier isEarlier
  · rw [begins, since.columnStep_iterate settled (Nat.le_refl _), reached,
      column]
  · intro fuel enough
    rw [begins, column]
    exact counts fuel enough

/-- After a byte order mark, a letter and a stray byte the column is 2. -/
theorem getColumn_counts_advances_mark :
    let held :=
      (((init [0xEF, 0xBB, 0xBF, 0x61, 0xFF] 5).advance false).advance
        false).advance false
    held.point.column ≤ held.byte ∧ held.getColumn = 2 :=
  ⟨(getColumn_counts_advances
      (.advance (.advance (.advance .init false) false) false) _
      (List.mem_append_right _ (List.mem_singleton_self _))).1,
    by decide +kernel⟩

end TFLexer

end TreeFeller
