import TreeFeller.LexerHistories
import TreeFeller.PackedTables
import TreeFeller.Speculation

/-!
# Reusing a cached token

A speculation keeps the last token it has seen and reuses it in another state
at the same byte if the lex modes of the two states agree.  What it reuses is
the token that lexing there would give: the modes settle what the main lexing
function makes of the input and which words are reserved, and what is left of
the state is whether it has a use for a keyword.
-/

namespace TreeFeller

namespace TFLexer

/-- The lexer with the state it lexed in written over. -/
def stamped (self : TFLexer) (state : TSStateId) : TFLexer :=
  { self with tokenLexState := state }

/-- An advance does not look at the state. -/
theorem advance_stamped
    (self : TFLexer)
    (state : TSStateId)
    (skip : Bool) :
    (self.stamped state).advance skip = (self.advance skip).stamped state := by
  unfold advance stamped
  dsimp only
  split
  · rfl
  · unfold doAdvance getLookahead
    by_cases sized : self.lookaheadSize = 0 <;> cases skip <;>
      simp [sized, advancedPoint, decode]

/-- The column does not depend on the state. -/
theorem columnFrom_stamped
    (self : TFLexer)
    (state : TSStateId)
    (limit fuel index column : Nat) :
    (self.stamped state).columnFrom limit fuel index column =
      self.columnFrom limit fuel index column := by
  induction fuel generalizing index column with
  | zero => rfl
  | succ fuel inductionHypothesis =>
      unfold columnFrom
      rw [inductionHypothesis]
      rfl

/-- A generated function does not look at the state. -/
theorem run_stamped
    (program : LexProgram)
    (self : TFLexer)
    (state : TSStateId) :
    program.run (self.stamped state) =
      ((program.run self).1, (program.run self).2.stamped state) := by
  induction program generalizing self with
  | finish found => rfl
  | lookahead next inductionHypothesis => exact inductionHypothesis _ _
  | advance skip next inductionHypothesis =>
      unfold LexProgram.run
      rw [advance_stamped]
      exact inductionHypothesis _
  | markEnd next inductionHypothesis =>
      exact inductionHypothesis self.markEnd
  | resultSymbol symbol next inductionHypothesis =>
      exact inductionHypothesis { self with resultSymbol := symbol }
  | eof next inductionHypothesis => exact inductionHypothesis _ _
  | getColumn next inductionHypothesis =>
      have same : (self.stamped state).getColumn = self.getColumn :=
        columnFrom_stamped self state _ _ _ _
      unfold LexProgram.run
      rw [same]
      exact inductionHypothesis _ _
  | isAtIncludedRangeStart next inductionHypothesis =>
      exact inductionHypothesis _ _

/-- Lexing with a generated function does not look at the state. -/
theorem lexWith_stamped
    (self : TFLexer)
    (program : LexProgram)
    (state : TSStateId) :
    (self.stamped state).lexWith program =
      ((self.lexWith program).1, (self.lexWith program).2.stamped state) := by
  have started : (self.stamped state).start = self.start.stamped state := by
    unfold start
    dsimp only
    by_cases isMark :
        self.byte = 0 ∧ 0 < self.size ∧ self.lookahead = tfBom
    · rw [if_pos isMark]
      let begun : TFLexer := { self with
        tokenStartByte := self.byte
        tokenStartPoint := self.point
        tokenEndByte := tfNoEnd
        resultSymbol := 0 }
      exact (if_pos isMark).trans (advance_stamped begun state true)
    · rw [if_neg isMark]
      exact if_neg isMark
  have finished (lexer : TFLexer) :
      (lexer.stamped state).finish = lexer.finish.stamped state := by
    unfold finish
    by_cases unmarked : lexer.tokenEndByte = tfNoEnd
    · rw [if_pos unmarked]
      exact if_pos unmarked
    · rw [if_neg unmarked]
      exact if_neg unmarked
  unfold lexWith
  rw [started, run_stamped]
  exact Prod.ext rfl (finished _)

/-- In states of one lex mode the main lexing function does the same. -/
theorem mainLex_of_lexMode
    {self lexed : TFLexer}
    {lang : TFLanguage}
    {state other : TSStateId}
    {found : Bool}
    (mode : lang.lexMode other = lang.lexMode state)
    (main : self.mainLex lang state = (found, lexed)) :
    self.mainLex lang other = (found, lexed.stamped other) := by
  have stamping :
      self.entered other = (self.entered state).stamped other := rfl
  unfold mainLex at main ⊢
  rw [stamping, mode, lexWith_stamped, main]

/-- The keyword lexing function does the same in every state. -/
theorem keywordLex_stamped
    {lexed again : TFLexer}
    {lang : TFLanguage}
    {found : Bool}
    (state : TSStateId)
    (keyword : lexed.keywordLex lang = (found, again)) :
    (lexed.stamped state).keywordLex lang =
      (found, again.stamped state) := by
  have stamping :
      (lexed.stamped state).rewound = lexed.rewound.stamped state := rfl
  unfold keywordLex at keyword ⊢
  rw [stamping, lexWith_stamped, keyword]

/-- A word token that is lexed again is no keyword yet. -/
theorem keywordLex_tokenIsKeyword
    {lexed again : TFLexer}
    {lang : TFLanguage}
    {found : Bool}
    (keyword : lexed.keywordLex lang = (found, again)) :
    again.tokenIsKeyword = lexed.tokenIsKeyword := by
  have kept :=
    lexed.rewound.lexWith_tokenIsKeyword (lang.ts.keywordLexFn 0)
  have same : (lexed.keywordLex lang).2 = again :=
    congrArg Prod.snd keyword
  rw [← same]
  exact kept

end TFLexer

/-- An action of a loaded language comes from an entry of its table. -/
theorem TFLanguage.Loaded.lookup_ne_zero
    {self : TFLanguage}
    (loaded : self.Loaded)
    {state : TSStateId}
    {symbol : TSSymbol}
    (acts : (self.actions state symbol).isEmpty = false) :
    self.lookup state symbol ≠ 0 := by
  intro nowhere
  rcases TFLanguage.load_cases (TFLanguage.passesChecks_of_load loaded) with
    ⟨rejects, _⟩ | ⟨other, loads, _, _, recorded, _⟩
  · have contradiction := rejects.symm.trans loaded
    cases contradiction
  · have same := Except.ok.inj (loads.symm.trans loaded)
    subst same
    unfold TFLanguage.actions TFLanguage.actionsAt at acts
    dsimp only at acts
    rw [nowhere, recorded.empty] at acts
    cases acts

namespace TFLexer

/-- A token that is no word is the same in every state of the lex mode. -/
theorem next_of_plain
    {self lexed : TFLexer}
    {lang : TFLanguage}
    {state : TSStateId}
    (main : self.mainLex lang state = (true, lexed))
    (noWord : lexed.isWord lang = false) :
    (self.next lang state).1 = some lexed.token ∧
      (self.next lang state).2.tokenIsKeyword = false := by
  have nexts := self.next_spec lang state
  generalize self.next lang state = result at nexts
  cases nexts with
  | missed main' => cases main.symm.trans main'
  | plain main' _ =>
      cases main.symm.trans main'
      have flag : lexed.tokenIsKeyword = false :=
        mainLex_tokenIsKeyword main
      exact ⟨rfl, flag⟩
  | word main' isWord _ _ =>
      cases main.symm.trans main'
      cases noWord.symm.trans isWord
  | keyword main' isWord _ _ =>
      cases main.symm.trans main'
      cases noWord.symm.trans isWord

/-- A keyword is the same in every state that has a use for it. -/
theorem next_of_keyword
    {self lexed again : TFLexer}
    {lang : TFLanguage}
    {state : TSStateId}
    {found : Bool}
    (main : self.mainLex lang state = (true, lexed))
    (isWord : lexed.isWord lang = true)
    (keyword : lexed.keywordLex lang = (found, again))
    (accepted :
      again.acceptsKeyword lang state found lexed.token = true) :
    (self.next lang state).1 =
        some { lexed.token with symbol := again.resultSymbol } ∧
      (self.next lang state).2.tokenIsKeyword = true := by
  have nexts := self.next_spec lang state
  generalize self.next lang state = result at nexts
  cases nexts with
  | missed main' => cases main.symm.trans main'
  | plain main' noWord =>
      cases main.symm.trans main'
      cases noWord.symm.trans isWord
  | word main' _ keyword' rejected =>
      cases main.symm.trans main'
      cases keyword.symm.trans keyword'
      cases rejected.symm.trans accepted
  | keyword main' _ keyword' _ =>
      cases main.symm.trans main'
      cases keyword.symm.trans keyword'
      exact ⟨rfl, rfl⟩

end TFLexer

/-- A token that is demoted was a keyword and becomes the word token. -/
theorem TFToken.demoteKeyword_eq_some
    {lang : TFLanguage}
    {state : TSStateId}
    {token demoted : TFToken}
    {wasKeyword : Bool}
    (demotes : token.demoteKeyword lang state wasKeyword = some demoted) :
    wasKeyword = true ∧
      demoted.symbol = lang.ts.keywordCaptureToken := by
  unfold TFToken.demoteKeyword at demotes
  dsimp only at demotes
  split at demotes
  · cases demotes
  · rename_i keyword
    split at demotes
    · cases demotes
    · split at demotes
      · cases demotes
      · cases demotes
        refine ⟨?_, rfl⟩
        simp only [Bool.or_eq_true, not_or, Bool.not_eq_true'] at keyword
        simpa using keyword.1

/--
A token reused by the first rule is the one lexing would give.  The cached
token was lexed in some state at the cached byte, and may have been demoted to
the word token since; where the first rule reuses it in a node's state, lexing
there, by any lexer at that byte, gives this very token with this keyword flag.
-/
theorem reused_token_is_fresh
    {lang : TFLanguage}
    (loaded : lang.Loaded)
    {source : List UInt8}
    {visited visited' : List TFLexer}
    {lexer lexer' : TFLexer}
    (lexes : TFLexer.Lexes source visited lexer)
    (lexes' : TFLexer.Lexes source visited' lexer')
    {token : TFToken}
    {spec : TFSpec}
    {node : TFSpecNode}
    (lexed : (lexer.next lang spec.cachedState).1 = some token)
    (flagged :
      spec.cachedKeyword =
        (lexer.next lang spec.cachedState).2.tokenIsKeyword)
    (cached :
      spec.cached = token ∨
        ∃ state,
          token.demoteKeyword lang state spec.cachedKeyword =
            some spec.cached)
    (cachedByte : spec.cachedByte = lexer.byte)
    (nodeByte : node.byte = spec.cachedByte)
    (here : lexer'.byte = node.byte)
    (reuses : spec.reusesByMode lang node = true) :
    (lexer'.next lang node.state).1 = some spec.cached ∧
      (lexer'.next lang node.state).2.tokenIsKeyword =
        spec.cachedKeyword := by
  have sameByte : lexer'.byte = lexer.byte :=
    here.trans (nodeByte.trans cachedByte)
  rw [lexes'.placed.2.next_eq_of_byte lexes.placed.2 sameByte]
  unfold TFSpec.reusesByMode at reuses
  simp only [Bool.and_eq_true, Bool.not_eq_true', beq_iff_eq,
    Bool.or_eq_true, bne_iff_ne] at reuses
  obtain ⟨⟨acts, mode⟩, ruled⟩ := reuses
  have nexts := lexer.next_spec lang spec.cachedState
  generalize result : lexer.next lang spec.cachedState = outcome at nexts
  rw [result] at lexed flagged
  cases nexts with
  | missed main => cases lexed
  | @plain lexedAt main noWord =>
      cases lexed
      -- It was no keyword, so that nothing demoted it.
      have flag : lexedAt.tokenIsKeyword = false :=
        TFLexer.mainLex_tokenIsKeyword main
      have notKeyword : spec.cachedKeyword = false := flagged.trans flag
      have same : spec.cached = lexedAt.token := by
        rcases cached with same | ⟨state, demotes⟩
        · exact same
        · have wasKeyword :=
            (TFToken.demoteKeyword_eq_some demotes).1
          rw [notKeyword] at wasKeyword
          cases wasKeyword
      have fresh :=
        TFLexer.next_of_plain (TFLexer.mainLex_of_lexMode mode main) noWord
      rw [same, notKeyword]
      exact fresh
  | @word lexedAt again found main isWord keyword rejected =>
      cases lexed
      have flag : again.tokenIsKeyword = false :=
        (TFLexer.keywordLex_tokenIsKeyword keyword).trans
          (TFLexer.mainLex_tokenIsKeyword main)
      have notKeyword : spec.cachedKeyword = false := flagged.trans flag
      have same : spec.cached = lexedAt.token := by
        rcases cached with same | ⟨state, demotes⟩
        · exact same
        · have wasKeyword :=
            (TFToken.demoteKeyword_eq_some demotes).1
          rw [notKeyword] at wasKeyword
          cases wasKeyword
      -- A word is reused in the state it was lexed in only.
      have isCapture :
          spec.cached.symbol = lang.ts.keywordCaptureToken := by
        rw [same]
        unfold TFLexer.isWord at isWord
        rw [Bool.and_eq_true, beq_iff_eq] at isWord
        exact isWord.1
      rcases ruled with other | ⟨_, sameState⟩
      · exact absurd isCapture other
      · rw [← sameState, result, same, flagged]
        exact ⟨rfl, rfl⟩
  | @keyword lexedAt again found main isWord keyword accepted =>
      cases lexed
      have wasKeyword : spec.cachedKeyword = true := flagged
      -- A keyword that was demoted is not reused.
      have noCapture :
          spec.cached.symbol ≠ lang.ts.keywordCaptureToken := by
        rcases ruled with other | ⟨notKeyword, _⟩
        · exact other
        · rw [wasKeyword] at notKeyword
          cases notKeyword
      have same :
          spec.cached =
            { lexedAt.token with symbol := again.resultSymbol } := by
        rcases cached with same | ⟨state, demotes⟩
        · exact same
        · exact absurd (TFToken.demoteKeyword_eq_some demotes).2 noCapture
      have symbol : spec.cached.symbol = again.resultSymbol :=
        congrArg TFToken.symbol same
      rw [symbol] at acts
      have usable := loaded.lookup_ne_zero acts
      have acceptedThere :
          (again.stamped node.state).acceptsKeyword lang node.state found
              (lexedAt.stamped node.state).token =
            true := by
        unfold TFLexer.acceptsKeyword at accepted ⊢
        rw [Bool.and_eq_true, Bool.and_eq_true] at accepted ⊢
        refine ⟨accepted.1, ?_⟩
        rw [Bool.or_eq_true]
        exact .inl (bne_iff_ne.mpr usable)
      have fresh :=
        TFLexer.next_of_keyword (TFLexer.mainLex_of_lexMode mode main)
          isWord (TFLexer.keywordLex_stamped node.state keyword)
          acceptedThere
      rw [same, wasKeyword]
      exact fresh

/-- A keyword cached in one state is what the next state would lex. -/
theorem reused_token_is_fresh_keyword :
    let lexer := TFLexer.init [107] 1
    let cached : TFToken := ⟨2, 0, 1, .origin, ⟨0, 1⟩⟩
    (lexer.next wordGrammar 2).1 = some cached ∧
      (lexer.next wordGrammar 2).2.tokenIsKeyword = true :=
  @reused_token_is_fresh wordGrammar wordGrammar_loaded [107] _ _ _ _
    .init .init _
    { TFSpec.zero with
      cached := ⟨2, 0, 1, .origin, ⟨0, 1⟩⟩
      cachedByte := 0
      cachedState := 1
      cachedKeyword := true
      hasCache := true }
    ⟨2, 0, .origin, 0, [], 0⟩
    (by decide +kernel) (by decide +kernel) (.inl rfl) rfl rfl rfl
    (by decide +kernel)

end TreeFeller
