import TreeFeller.SmallTables
import TreeFeller.StackTokens

namespace TreeFeller

open StatefulProgram

/-!
# Grammars whose tokens are letters

A lexer of letters never finds an empty token, but for the end of the input.  So
a grammar of letters, without keywords, keeps its splits to LR stacks if each
cell of its tables does.
-/

namespace TFLexer

/-- The lookahead of a lexer that is up to date is not empty. -/
theorem lookaheadSize_pos
    {self : TFLexer}
    (fresh : self.getLookahead = self) :
    0 < self.lookaheadSize := by
  have size : self.decode.2 = self.lookaheadSize :=
    congrArg TFLexer.lookaheadSize fresh
  rw [← size]
  unfold decode
  split
  · exact Nat.zero_lt_one
  · split
    · exact Nat.zero_lt_one
    · split
      · rename_i codePoint length found
        cases utf8Next_eq_some_iff.mp found <;> exact Nat.succ_pos _
      · exact Nat.zero_lt_one

/-- At the end of the input the lookahead is nothing. -/
theorem lookahead_end
    {self : TFLexer}
    (fresh : self.getLookahead = self)
    (ended : self.size ≤ self.byte) :
    self.lookahead = 0 := by
  have code : self.decode.1 = self.lookahead :=
    congrArg TFLexer.lookahead fresh
  rw [← code]
  unfold decode
  rw [if_pos ended]

/-- A token of letters: what it is, and what it spans from where it starts. -/
theorem run_letters
    {letters : List (Int × TSSymbol)}
    {self : TFLexer}
    (fresh : self.getLookahead = self)
    (some_ : ∀ letter ∈ letters, letter.1 ≠ 0)
    (found : ((lexLetters letters).run self).1 = true) :
    ((lexLetters letters).run self).2.resultSymbol = tsBuiltinSymEnd ∨
      (∃ letter ∈ letters,
        ((lexLetters letters).run self).2.resultSymbol = letter.2) ∧
      ((lexLetters letters).run self).2.tokenStartByte =
        self.tokenStartByte ∧
      self.byte < ((lexLetters letters).run self).2.tokenEndByte ∧
      ((lexLetters letters).run self).2.tokenEndByte =
        ((lexLetters letters).run self).2.byte := by
  induction letters with
  | nil =>
      simp only [lexLetters, LexProgram.run] at found ⊢
      split at found
      · rename_i atEnd
        rw [if_pos atEnd]
        exact Or.inl rfl
      · cases found
  | cons letter rest inductionHypothesis =>
      simp only [lexLetters, LexProgram.run] at found ⊢
      split
      · rename_i same
        refine Or.inr ⟨⟨letter, List.mem_cons_self .., rfl⟩, ?_⟩
        have inside : ¬ self.size ≤ self.byte := by
          intro ended
          refine some_ letter (List.mem_cons_self ..) ?_
          rw [← same]
          exact lookahead_end fresh ended
        have sized := lookaheadSize_pos fresh
        simp only [LexProgram.run, markEnd, advance, if_neg inside, doAdvance,
          if_pos (Nat.ne_of_gt sized), getLookahead]
        exact ⟨rfl, Nat.lt_add_of_pos_right sized, trivial⟩
      · rename_i other
        rw [if_neg other] at found
        have later :=
          inductionHypothesis
            (fun next member => some_ next (List.mem_cons_of_mem _ member))
            found
        refine later.imp_right ?_
        rintro ⟨⟨next, member, isSymbol⟩, spans⟩
        exact ⟨⟨next, List.mem_cons_of_mem _ member, isSymbol⟩, spans⟩

/-- A token starts where the lexer is up to date. -/
theorem start_fresh
    {self : TFLexer}
    (fresh : self.getLookahead = self) :
    self.start.getLookahead = self.start ∧
      self.start.tokenStartByte = self.start.byte := by
  have code : self.decode.1 = self.lookahead :=
    congrArg TFLexer.lookahead fresh
  have size : self.decode.2 = self.lookaheadSize :=
    congrArg TFLexer.lookaheadSize fresh
  unfold start
  dsimp only
  split
  · rename_i mark
    have sized := lookaheadSize_pos fresh
    have inside : ¬ self.size ≤ self.byte := by omega
    simp only [advance, if_neg inside, doAdvance, if_pos (Nat.ne_of_gt sized)]
    exact ⟨rfl, rfl⟩
  · refine ⟨?_, rfl⟩
    unfold getLookahead
    congr 1

/-- Lexing letters ends a token past its start, but for the end token. -/
theorem lexWith_letters
    {letters : List (Int × TSSymbol)}
    {self : TFLexer}
    (fresh : self.getLookahead = self)
    (some_ : ∀ letter ∈ letters, letter.1 ≠ 0)
    (found : (self.lexWith (lexLetters letters)).1 = true) :
    (self.lexWith (lexLetters letters)).2.resultSymbol = tsBuiltinSymEnd ∨
      (∃ letter ∈ letters,
        (self.lexWith (lexLetters letters)).2.resultSymbol = letter.2) ∧
      (self.lexWith (lexLetters letters)).2.tokenStartByte <
        (self.lexWith (lexLetters letters)).2.tokenEndByte := by
  obtain ⟨freshStart, starts⟩ := start_fresh fresh
  have ran := run_letters freshStart some_ found
  have symbol (lexer : TFLexer) :
      lexer.finish.resultSymbol = lexer.resultSymbol := by
    unfold finish
    split <;> rfl
  have startByte (lexer : TFLexer) :
      lexer.finish.tokenStartByte = lexer.tokenStartByte := by
    unfold finish
    split <;> rfl
  have endByte (lexer : TFLexer) (marked : lexer.tokenEndByte = lexer.byte) :
      lexer.finish.tokenEndByte = lexer.tokenEndByte := by
    unfold finish
    split
    · exact marked.symm
    · rfl
  unfold lexWith
  dsimp only
  rw [symbol, startByte]
  rcases ran with isEnd | ⟨isLetter, isStart, ends_, marked⟩
  · exact Or.inl isEnd
  · refine Or.inr ⟨isLetter, ?_⟩
    rw [endByte _ marked, isStart, starts]
    exact ends_

end TFLexer

/-- The tokens of a grammar of letters without keywords. -/
theorem spanningTokens_of_letters
    {lang : TFLanguage}
    {letters : List (Int × TSSymbol)}
    (lexes : lang.ts.lexFn = fun _ => lexLetters letters)
    (noKeywords : lang.ts.keywordLexFn = fun _ => .finish false)
    (some_ : ∀ letter ∈ letters, letter.1 ≠ 0)
    (terminals : ∀ letter ∈ letters, letter.2 < lang.ts.tokenCount)
    (capture : lang.ts.keywordCaptureToken < lang.ts.tokenCount) :
    SpanningTokens lang := by
  have lexed :
      ∀ (lexer : TFLexer) (state : TSStateId),
        lexer.mainLex lang state =
          (lexer.entered state).lexWith (lexLetters letters) := by
    intro lexer state
    unfold TFLexer.mainLex
    rw [lexes]
  have isFresh :
      ∀ (lexer : TFLexer) (state : TSStateId),
        lexer.getLookahead = lexer →
          (lexer.entered state).getLookahead = lexer.entered state := by
    intro lexer state fresh
    have code : lexer.decode.1 = lexer.lookahead :=
      congrArg TFLexer.lookahead fresh
    have size : lexer.decode.2 = lexer.lookaheadSize :=
      congrArg TFLexer.lookaheadSize fresh
    unfold TFLexer.getLookahead TFLexer.entered
    congr 1
  refine ⟨?_, ?_, ?_, capture⟩
  · intro lexer state fresh found
    rw [lexed] at found ⊢
    rcases TFLexer.lexWith_letters (isFresh lexer state fresh) some_ found with
      isEnd | ⟨⟨letter, member, isSymbol⟩, _⟩
    · rw [isEnd]
      exact Nat.zero_lt_of_lt capture
    · rw [isSymbol]
      exact terminals letter member
  · intro lexer state fresh found notEnd
    rw [lexed] at found notEnd ⊢
    rcases TFLexer.lexWith_letters (isFresh lexer state fresh) some_ found with
      isEnd | ⟨_, spans⟩
    · exact absurd isEnd notEnd
    · exact spans
  · intro lexer _ found
    rw [noKeywords] at found
    cases found

/-! ## Cells -/

/-- What an action of an entry on a terminal must be like. -/
def spansAction (symbol : TSSymbol) (last : Bool) : TSParseAction → Bool
  | .shift _ _ _ => last && symbol != tsBuiltinSymEnd
  | .reduce childCount _ _ _ => childCount != 0
  | _ => true

/-- Whether each action of an entry on a terminal is like that. -/
def spansEntry (symbol : TSSymbol) : List TSParseAction → Bool
  | [] => true
  | [action] => spansAction symbol true action
  | action :: rest => spansAction symbol false action && spansEntry symbol rest

/-- An entry whose actions are like that, one by one. -/
theorem spansAction_of_entry
    {symbol : TSSymbol}
    {entry : List TSParseAction}
    {offset : Nat}
    {action : TSParseAction}
    (spans : spansEntry symbol entry = true)
    (isAction : entry[offset]? = some action) :
    spansAction symbol (offset + 1 == entry.length) action = true := by
  induction entry generalizing offset with
  | nil => cases isAction
  | cons first rest inductionHypothesis =>
      cases rest with
      | nil =>
          cases offset with
          | zero =>
              cases isAction
              exact spans
          | succ offset => cases isAction
      | cons second rest =>
          simp only [spansEntry, Bool.and_eq_true] at spans
          cases offset with
          | zero =>
              cases isAction
              simpa using spans.1
          | succ offset =>
              have later := inductionHypothesis spans.2 isAction
              simpa using later

/-- Tables of letters whose cells are like that. -/
theorem spanningTables_of_letters
    {lang : TFLanguage}
    {letters : List (Int × TSSymbol)}
    (loaded : lang.Loaded)
    (lexes : lang.ts.lexFn = fun _ => lexLetters letters)
    (noKeywords : lang.ts.keywordLexFn = fun _ => .finish false)
    (some_ : ∀ letter ∈ letters, letter.1 ≠ 0)
    (terminals : ∀ letter ∈ letters, letter.2 < lang.ts.tokenCount)
    (capture : lang.ts.keywordCaptureToken < lang.ts.tokenCount)
    (builtins : lang.ts.tokenCount ≤ tfBuiltinSymErrorRepeat)
    (extent :
      lang.dense.length ≤ lang.ts.stateCount * lang.ts.symbolCount)
    (empty : TFLanguage.entryActions lang.ts 0 = [])
    (cells :
      ∀ state < lang.ts.stateCount, ∀ symbol < lang.ts.tokenCount,
        spansEntry symbol
            (TFLanguage.entryActions lang.ts (lang.lookup state symbol)) =
          true) :
    SpanningTables lang := by
  have spans :
      ∀ state symbol, symbol < lang.ts.tokenCount →
        spansEntry symbol
            (TFLanguage.entryActions lang.ts (lang.lookup state symbol)) =
          true := by
    intro state symbol isTerminal
    by_cases inRange : state < lang.ts.stateCount
    · exact cells state inRange symbol isTerminal
    · have outside : lang.lookup state symbol = 0 := by
        unfold TFLanguage.lookup
        refine List.getD_eq_default _ _ (Nat.le_trans extent ?_)
        exact Nat.le_trans
          (Nat.mul_le_mul_right _ (Nat.le_of_not_lt inRange))
          (Nat.le_add_right _ _)
      rw [outside, empty]
      rfl
  refine ⟨loaded, ?_, ?_, ?_, builtins,
    spanningTokens_of_letters lexes noKeywords some_ terminals capture⟩
  · intro state symbol offset target extra repetition isTerminal entry
    have shifts := spansAction_of_entry (spans state symbol isTerminal) entry
    simp only [spansAction, Bool.and_eq_true, beq_iff_eq] at shifts
    exact shifts.1
  · intro state symbol childCount parent precedence production isTerminal
      known
    obtain ⟨offset, entry⟩ := loaded.entry_of_action known
    have reduces := spansAction_of_entry (spans state symbol isTerminal) entry
    simp only [spansAction, bne_iff_ne] at reduces
    exact Nat.pos_of_ne_zero reduces
  · intro state target extra repetition known
    obtain ⟨offset, entry⟩ := loaded.entry_of_action known
    have shifts :=
      spansAction_of_entry
        (spans state tsBuiltinSymEnd (Nat.zero_lt_of_lt capture)) entry
    simp [spansAction] at shifts

end TreeFeller
