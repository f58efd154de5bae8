import TreeFeller.LexerHistories
import TreeFeller.PackedTables
import TreeFeller.StackTurns

namespace TreeFeller

open StatefulProgram

/-!
# The tables and tokens of a graph of LR stacks

What a split needs of its tables: a shift ends its entry, so that its target is
what `tf_next_state` reads there, and every token but the end of the input and
every reduction spans something.
-/

/-- What a grammar's lexing functions make of a lexer that is up to date. -/
structure SpanningTokens (lang : TFLanguage) : Prop where
  terminal :
    ∀ (lexer : TFLexer) (state : TSStateId),
      lexer.getLookahead = lexer →
        (lexer.mainLex lang state).1 = true →
          (lexer.mainLex lang state).2.resultSymbol < lang.ts.tokenCount
  spans :
    ∀ (lexer : TFLexer) (state : TSStateId),
      lexer.getLookahead = lexer →
        (lexer.mainLex lang state).1 = true →
          (lexer.mainLex lang state).2.resultSymbol ≠ tsBuiltinSymEnd →
            (lexer.mainLex lang state).2.tokenStartByte <
              (lexer.mainLex lang state).2.tokenEndByte
  keyword :
    ∀ lexer : TFLexer,
      lexer.getLookahead = lexer →
        (lexer.lexWith (lang.ts.keywordLexFn 0)).1 = true →
          (lexer.lexWith (lang.ts.keywordLexFn 0)).2.resultSymbol <
            lang.ts.tokenCount
  capture : lang.ts.keywordCaptureToken < lang.ts.tokenCount

/-- The tables of a grammar whose splits keep to LR stacks. -/
structure SpanningTables (lang : TFLanguage) : Prop where
  loaded : lang.Loaded
  /-- A shift is the last action of its entry, `SHIFT_REPEAT` included. -/
  shiftsLast :
    ∀ state symbol offset target extra repetition,
      symbol < lang.ts.tokenCount →
        (TFLanguage.entryActions lang.ts (lang.lookup state symbol))[offset]? =
            some (.shift target extra repetition) →
          offset + 1 =
            (TFLanguage.entryActions lang.ts (lang.lookup state symbol)).length
  /-- A reduction has a child. -/
  reduces :
    ∀ state symbol childCount parent dynamicPrecedence productionId,
      symbol < lang.ts.tokenCount →
        .reduce childCount parent dynamicPrecedence productionId ∈
            lang.actions state symbol →
          0 < childCount
  /-- The end of the input is never shifted. -/
  endUnshifted :
    ∀ state target extra repetition,
      .shift target extra repetition ∉ lang.actions state tsBuiltinSymEnd
  /-- The built-in error symbols are no terminals. -/
  builtins : lang.ts.tokenCount ≤ tfBuiltinSymErrorRepeat
  tokens : SpanningTokens lang

namespace SpanningTables

variable {lang : TFLanguage}

/-- What `tf_next_state` reads for a shift that is no extra's is its target. -/
theorem nextState_of_shift
    (tables : SpanningTables lang)
    {state target : TSStateId}
    {symbol : TSSymbol}
    {repetition : Bool}
    (terminal : symbol < lang.ts.tokenCount)
    (known : .shift target false repetition ∈ lang.actions state symbol) :
    lang.nextState state symbol = target := by
  obtain ⟨offset, entry⟩ := tables.loaded.entry_of_action known
  have last := tables.shiftsLast _ _ _ _ _ _ terminal entry
  let index := lang.lookup state symbol
  let count := (lang.ts.parseActions index).count
  have length :
      (TFLanguage.entryActions lang.ts index).length = count := by
    simp [TFLanguage.entryActions, TFLanguage.actionsAt, count]
  have isLast : offset + 1 = count := last.trans length
  have inside : offset < (lang.ts.parseActions index).count :=
    Nat.lt_of_succ_le (Nat.le_of_eq isLast)
  have isAction :
      (lang.ts.parseActions (index + 1 + offset)).action =
        .shift target false repetition := by
    unfold TFLanguage.entryActions TFLanguage.actionsAt at entry
    rw [List.getElem?_map, List.getElem?_range inside] at entry
    exact Option.some.inj entry
  have builtins := tables.builtins
  unfold TFLanguage.nextState
  rw [if_neg, if_pos terminal]
  · have before : count - 1 = offset := by omega
    have some_ : 0 < count := by omega
    dsimp only
    rw [if_pos some_, before, isAction]
    rfl
  · have low : symbol < tfBuiltinSymErrorRepeat :=
      Nat.lt_of_lt_of_le terminal builtins
    rintro (isError | isError)
    · rw [isError] at low
      exact absurd low (by decide)
    · rw [isError] at low
      exact Nat.lt_irrefl _ low

end SpanningTables

/-! ## Tokens -/

/-- A token that may be acted on at a byte. -/
structure TokenAt
    (lang : TFLanguage)
    (byte : Nat)
    (token : TFToken)
    (keyword : Bool) : Prop where
  terminal : token.symbol < lang.ts.tokenCount
  beyond : token.symbol ≠ tsBuiltinSymEnd → byte < token.endByte
  demotes :
    ∀ (state : TSStateId) (demoted : TFToken),
      token.demoteKeyword lang state keyword = some demoted →
        demoted.symbol ≠ tsBuiltinSymEnd → byte < demoted.endByte

/-- Only a keyword is demoted, to the word that spans what it does. -/
theorem TFToken.demoteKeyword_spec
    {lang : TFLanguage}
    {state : TSStateId}
    {token demoted : TFToken}
    {keyword : Bool}
    (demotes : token.demoteKeyword lang state keyword = some demoted) :
    keyword = true ∧ token.symbol ≠ lang.ts.keywordCaptureToken ∧
      demoted = { token with symbol := lang.ts.keywordCaptureToken } := by
  unfold TFToken.demoteKeyword at demotes
  dsimp only at demotes
  split_ifs at demotes with plain
  cases demotes
  simpa using plain

/-- A token that spans something, whatever it may be demoted to. -/
theorem TokenAt.of_spans
    {lang : TFLanguage}
    {byte : Nat}
    {token : TFToken}
    {keyword : Bool}
    (terminal : token.symbol < lang.ts.tokenCount)
    (spans :
      token.symbol ≠ tsBuiltinSymEnd ∨ keyword = true →
        byte < token.endByte) :
    TokenAt lang byte token keyword := by
  refine ⟨terminal, fun notEnd => spans (Or.inl notEnd), ?_⟩
  intro state demoted demotes _
  obtain ⟨flagged, _, rfl⟩ := TFToken.demoteKeyword_spec demotes
  exact spans (Or.inr flagged)

namespace TFLexer

/-- Going to a position reads what stands there. -/
theorem getLookahead_seek
    (self : TFLexer)
    (byte : Nat)
    (point : TFPoint) :
    (self.seek byte point).getLookahead = self.seek byte point :=
  rfl

/-- An advance goes on from a byte, and so does the token it starts. -/
theorem advance_from
    {self : TFLexer}
    {low : Nat}
    (here : low ≤ self.byte)
    (starts : low ≤ self.tokenStartByte)
    (skip : Bool) :
    low ≤ (self.advance skip).byte ∧
      low ≤ (self.advance skip).tokenStartByte := by
  unfold advance
  split
  · exact ⟨here, starts⟩
  · unfold doAdvance getLookahead
    cases skip with
    | true =>
        dsimp only
        rw [if_pos rfl]
        split
        · exact ⟨by dsimp only; omega, by dsimp only; omega⟩
        · exact ⟨here, here⟩
    | false =>
        dsimp only
        rw [if_neg Bool.false_ne_true]
        split
        · exact ⟨by dsimp only; omega, starts⟩
        · exact ⟨here, starts⟩

/-- A generated function goes on from a byte. -/
theorem run_from
    (program : LexProgram)
    {self : TFLexer}
    {low : Nat}
    (here : low ≤ self.byte)
    (starts : low ≤ self.tokenStartByte) :
    low ≤ (program.run self).2.tokenStartByte := by
  induction program generalizing self with
  | finish found => exact starts
  | lookahead next inductionHypothesis =>
      exact inductionHypothesis _ here starts
  | advance skip next inductionHypothesis =>
      obtain ⟨hereNow, startsNow⟩ := advance_from here starts skip
      exact inductionHypothesis hereNow startsNow
  | markEnd next inductionHypothesis =>
      exact inductionHypothesis here starts
  | resultSymbol symbol next inductionHypothesis =>
      exact inductionHypothesis here starts
  | eof next inductionHypothesis =>
      exact inductionHypothesis _ here starts
  | getColumn next inductionHypothesis =>
      exact inductionHypothesis _ here starts
  | isAtIncludedRangeStart next inductionHypothesis =>
      exact inductionHypothesis _ here starts

/-- A token starts where the lexer stands, or later. -/
theorem mainLex_from
    (self : TFLexer)
    (lang : TFLanguage)
    (state : TSStateId) :
    self.byte ≤ (self.mainLex lang state).2.tokenStartByte := by
  have finished (lexer : TFLexer) :
      lexer.finish.tokenStartByte = lexer.tokenStartByte := by
    unfold finish
    split <;> rfl
  have started :
      self.byte ≤ (self.entered state).start.byte ∧
        self.byte ≤ (self.entered state).start.tokenStartByte := by
    unfold start
    dsimp only
    split
    · refine advance_from ?_ ?_ true
      · exact Nat.le_refl _
      · exact Nat.le_refl _
    · exact ⟨Nat.le_refl _, Nat.le_refl _⟩
  unfold mainLex lexWith
  dsimp only
  rw [finished]
  exact run_from _ started.1 started.2

/-- The token that is lexed may be acted on where the lexer stood. -/
theorem next_tokenAt
    {lang : TFLanguage}
    (tokens : SpanningTokens lang)
    {self : TFLexer}
    {state : TSStateId}
    {token : TFToken}
    (fresh : self.getLookahead = self)
    (found : (self.next lang state).1 = some token) :
    TokenAt lang self.byte token
      (self.next lang state).2.tokenIsKeyword := by
  have starts := self.mainLex_from lang state
  have terminal := tokens.terminal self state fresh
  have spans := tokens.spans self state fresh
  have nexts := self.next_spec lang state
  generalize self.next lang state = result at nexts found
  cases nexts with
  | missed main => cases found
  | plain main _ =>
      cases found
      have unflagged := mainLex_tokenIsKeyword main
      rw [main] at starts terminal spans
      refine .of_spans (terminal rfl) ?_
      rintro (other | flagged)
      · exact Nat.lt_of_le_of_lt starts (spans rfl other)
      · cases unflagged.symm.trans flagged
  | @word lexed again found main _ keyword _ =>
      cases found
      have unflagged := mainLex_tokenIsKeyword main
      have kept := lexed.rewound.lexWith_tokenIsKeyword
        (lang.ts.keywordLexFn 0)
      have same : (lexed.keywordLex lang).2 = again :=
        congrArg Prod.snd keyword
      rw [main] at starts terminal spans
      refine .of_spans (terminal rfl) ?_
      rintro (other | flagged)
      · exact Nat.lt_of_le_of_lt starts (spans rfl other)
      · have unflaggedAgain : again.tokenIsKeyword = false := by
          rw [← same]
          exact kept.trans unflagged
        cases unflaggedAgain.symm.trans flagged
  | @keyword lexed again found main isWord keyword accepted =>
      cases found
      unfold acceptsKeyword at accepted
      simp only [Bool.and_eq_true] at accepted
      have isFound : (lexed.keywordLex lang).1 = true := by
        rw [keyword]
        exact accepted.1.1
      have symbol := tokens.keyword lexed.rewound rfl isFound
      have same : (lexed.keywordLex lang).2 = again :=
        congrArg Prod.snd keyword
      unfold TFLexer.isWord at isWord
      simp only [Bool.and_eq_true, bne_iff_ne] at isWord
      rw [main] at starts spans
      refine .of_spans ?_ (fun _ =>
        Nat.lt_of_le_of_lt starts (spans rfl isWord.2))
      change again.resultSymbol < _
      rw [← same]
      exact symbol

end TFLexer

/-- A demoted keyword may be acted on where the keyword could be. -/
theorem TokenAt.demoted
    {lang : TFLanguage}
    (tokens : SpanningTokens lang)
    {byte : Nat}
    {token demoted : TFToken}
    {keyword : Bool}
    {state : TSStateId}
    (here : TokenAt lang byte token keyword)
    (demotes : token.demoteKeyword lang state keyword = some demoted) :
    TokenAt lang byte demoted keyword := by
  have known := demotes
  obtain ⟨_, _, rfl⟩ := TFToken.demoteKeyword_spec known
  refine ⟨tokens.capture, here.demotes _ _ demotes, ?_⟩
  intro state demoted again
  exact absurd rfl (TFToken.demoteKeyword_spec again).2.1

end TreeFeller
