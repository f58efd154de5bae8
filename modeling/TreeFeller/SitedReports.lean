import TreeFeller.SitedReplays
import TreeFeller.Forests

/-!
# The positions that a parse reports

The events of a parse, and its error, hold positions of the input only.  So do
the nodes that the filter reports over them.
-/

namespace TreeFeller

open StatefulProgram
open TFLexer

/-- The positions of a token. -/
def TFToken.positions (self : TFToken) : List (Nat × TFPoint) :=
  [(self.startByte, self.startPoint), (self.endByte, self.endPoint)]

/-- The positions of a node of the parse stack. -/
def TFNode.positions {V : Type} (self : TFNode V) : List (Nat × TFPoint) :=
  [(self.startByte, self.startPoint), (self.endByte, self.endPoint)]

/-- The positions of a reduction, and those of its children. -/
def TFReduction.positions {V : Type}
    (self : TFReduction V) :
    List (Nat × TFPoint) :=
  (self.startByte, self.startPoint) :: (self.endByte, self.endPoint) ::
    self.children.flatMap TFNode.positions

/-- The positions that an event hands over. -/
def Event.positions {V : Type} : Event V → List (Nat × TFPoint)
  | .shift token _ _ => token.positions
  | .reduce reduction _ => reduction.positions
  | .discard _ => []
  | .growthFailed _ => []

/-- The positions of an error. -/
def TFError.position (self : TFError) : Nat × TFPoint :=
  (self.byte, self.point)

/-- A placed event hands over positions on the path. -/
theorem Event.Placed.onPath {V : Type}
    {source : List UInt8}
    {event : Event V}
    (placed : event.Placed source) :
    ∀ position ∈ event.positions, OnPath source position := by
  intro position member
  cases event with
  | shift token extra value =>
      simp only [Event.positions, TFToken.positions, List.mem_cons,
        List.not_mem_nil, or_false] at member
      rcases member with rfl | rfl
      · exact placed.start
      · exact placed.ending
  | reduce reduction value =>
      simp only [Event.positions, TFReduction.positions,
        List.mem_cons] at member
      rcases member with rfl | rfl | member
      · exact placed.start
      · exact placed.ending
      · obtain ⟨child, isChild, isPosition⟩ := List.mem_flatMap.mp member
        have placedChild := placed.children child isChild
        simp only [TFNode.positions, List.mem_cons, List.not_mem_nil,
          or_false] at isPosition
        rcases isPosition with rfl | rfl
        · exact placedChild.start
        · exact placedChild.ending
  | discard value =>
      cases member
  | growthFailed answered =>
      cases member

/-- A parse for any sink keeps to the path of its source. -/
theorem tfParse_sited {σ V : Type}
    {lang : TFLanguage}
    {sink : TFSink σ V}
    {fuel : Nat}
    {source : List UInt8}
    {payload : σ}
    {heap : Heap}
    {result : TFResult σ V}
    {holds : σ → Prop}
    (ends : EndsInput lang source)
    (places : sink.Places source holds)
    (ran : tfParse lang sink fuel source payload heap = some result)
    (before : holds payload) :
    result.parser.Sited lang source holds := by
  have endsHere :
      EndsInput (TFRunEnv.consumer lang sink fuel).lang source := ends
  have placesHere :
      (TFRunEnv.consumer lang sink fuel).sink.Places source holds := places
  exact TFParser.sited_run placesHere endsHere
    (TFSpec.sites_materialize ends fuel) (fun _ _ _ _ _ kept => kept) ran
    before

/--
Every position that a parse hands to its sink, of a token, a reduction or a
child, and that of the failure it reports, is a byte of the input at its own
row and column.
-/
theorem tfParse_reports_positions {σ V : Type}
    {lang : TFLanguage}
    {sink : TFSink σ V}
    {fuel : Nat}
    {source : List UInt8}
    {payload : σ}
    {heap : Heap}
    {result : TFResult σ V}
    (ends : EndsInput lang source)
    (ran : tfParse lang sink fuel source payload heap = some result) :
    (∀ event ∈ result.parser.events, ∀ position ∈ event.positions,
        IsPosition source position) ∧
      ∀ error, result.parser.error = some error →
        IsPosition source error.position := by
  have anySink : sink.Places source (fun _ => True) :=
    ⟨fun _ _ _ _ _ _ _ _ => trivial, fun _ _ _ _ _ _ _ => trivial,
      fun _ _ _ _ _ => trivial⟩
  have sited := tfParse_sited ends anySink ran trivial
  refine ⟨?_, ?_⟩
  · intro event member position isPosition
    exact ((sited.events event member).onPath position isPosition).isPosition
  · intro error isError
    exact (sited.error error isError).isPosition

/-! ## Grammars whose tokens are letters -/

/-- A lexer of letters finds the end token at the end of the input only. -/
theorem TFLexer.run_letters_end
    {letters : List (Int × TSSymbol)}
    {self lexer : TFLexer}
    (ordinary : ∀ letter ∈ letters, letter.2 ≠ tsBuiltinSymEnd)
    (ran : (lexLetters letters).run self = (true, lexer))
    (isEnd : lexer.resultSymbol = tsBuiltinSymEnd) :
    lexer.tokenEndByte = lexer.byte ∧ self.size ≤ lexer.byte := by
  induction letters with
  | nil =>
      simp only [lexLetters, LexProgram.run] at ran
      split at ran
      · rename_i atEnd
        cases ran
        exact ⟨rfl, of_decide_eq_true atEnd⟩
      · cases ran
  | cons letter rest inductionHypothesis =>
      simp only [lexLetters, LexProgram.run] at ran
      split at ran
      · cases ran
        exact absurd isEnd (ordinary letter List.mem_cons_self)
      · exact inductionHypothesis
          (fun next member => ordinary next (List.mem_cons_of_mem _ member))
          ran

/-- What has been marked here is finished here. -/
theorem TFLexer.finish_marked
    {self : TFLexer}
    (marked : self.tokenEndByte = self.byte) :
    self.finish.tokenEndByte = self.byte := by
  unfold TFLexer.finish
  split
  · rfl
  · exact marked

/-- Only the end token is accepted on, if no other cell of the tables does. -/
theorem accepts_of_cells
    {lang : TFLanguage}
    (loaded : lang.Loaded)
    (extent :
      lang.dense.length ≤ lang.ts.stateCount * lang.ts.symbolCount)
    (empty : TFLanguage.entryActions lang.ts 0 = [])
    (cells :
      ∀ state < lang.ts.stateCount, ∀ symbol < lang.ts.tokenCount,
        TSParseAction.accept ∈
            TFLanguage.entryActions lang.ts (lang.lookup state symbol) →
          symbol = tsBuiltinSymEnd)
    {state : TSStateId}
    {symbol : TSSymbol}
    (terminal : symbol < lang.ts.tokenCount)
    (known : TSParseAction.accept ∈ lang.actions state symbol) :
    symbol = tsBuiltinSymEnd := by
  obtain ⟨offset, isAction⟩ := loaded.entry_of_action known
  have entry := List.mem_of_getElem? isAction
  by_cases inRange : state < lang.ts.stateCount
  · exact cells state inRange symbol terminal entry
  · have outside : lang.lookup state symbol = 0 := by
      unfold TFLanguage.lookup
      refine List.getD_eq_default _ _ (Nat.le_trans extent ?_)
      exact Nat.le_trans
        (Nat.mul_le_mul_right _ (Nat.le_of_not_lt inRange))
        (Nat.le_add_right _ _)
    rw [outside, empty] at entry
    cases entry

/-- In a grammar of letters, the end token ends the input. -/
theorem endsInput_of_letters
    {lang : TFLanguage}
    {letters : List (Int × TSSymbol)}
    (lexes : lang.ts.lexFn = fun _ => lexLetters letters)
    (noKeywords : lang.ts.keywordLexFn = fun _ => .finish false)
    (noWords : lang.ts.keywordCaptureToken = 0)
    (tokens : 0 < lang.ts.tokenCount)
    (some_ : ∀ letter ∈ letters, letter.1 ≠ 0)
    (terminals : ∀ letter ∈ letters, letter.2 < lang.ts.tokenCount)
    (ordinary : ∀ letter ∈ letters, letter.2 ≠ tsBuiltinSymEnd)
    (accepts :
      ∀ state symbol, symbol < lang.ts.tokenCount →
        TSParseAction.accept ∈ lang.actions state symbol →
          symbol = tsBuiltinSymEnd)
    (source : List UInt8) :
    EndsInput lang source where
  accepts := accepts
  lexes := by
    intro lexer state token placed lexed
    have capture : lang.ts.keywordCaptureToken < lang.ts.tokenCount :=
      noWords ▸ tokens
    have spanning :=
      spanningTokens_of_letters lexes noKeywords some_ terminals capture
    have fresh : lexer.getLookahead = lexer := by
      unfold getLookahead
      rw [← placed.settled.decoded, ← placed.settled.decodedSize]
    have noWord : ∀ other : TFLexer, other.isWord lang = false := by
      intro other
      unfold TFLexer.isWord
      rw [noWords, bne, Bool.and_not_self]
    have nexts := lexer.next_spec lang state
    generalize lexer.next lang state = result at nexts lexed
    cases nexts with
    | missed main =>
        cases lexed
    | word main isWord _ _ =>
        rw [noWord] at isWord
        cases isWord
    | keyword main isWord _ _ =>
        rw [noWord] at isWord
        cases isWord
    | plain main _ =>
        rename_i ended
        cases lexed
        have onPath := (placed.mainLex main).2
        have found : (lexer.mainLex lang state).1 = true := by rw [main]
        have terminal := spanning.terminal lexer state fresh found
        rw [main] at terminal
        refine ⟨terminal, ?_⟩
        intro isEnd
        have sized := (placed.entered state).start.placed.settled.sized
        unfold TFLexer.mainLex TFLexer.lexWith at main
        rw [lexes] at main
        rcases ran : (lexLetters letters).run (lexer.entered state).start with
          ⟨well, outcome⟩
        rw [ran] at main
        cases main
        have symbol : outcome.resultSymbol = tsBuiltinSymEnd := by
          rw [← isEnd]
          change _ = outcome.finish.resultSymbol
          unfold TFLexer.finish
          split <;> rfl
        obtain ⟨marked, atEnd⟩ := run_letters_end ordinary ran symbol
        rw [sized] at atEnd
        have ends_ : outcome.finish.token.endByte = outcome.byte :=
          finish_marked marked
        refine Nat.le_antisymm onPath.byte_le ?_
        rw [ends_]
        exact atEnd
  capture := noWords ▸ tokens

/-- The end token ends what the pair of letters parses. -/
theorem linedGrammar_endsInput (source : List UInt8) :
    EndsInput linedGrammar source := by
  have isTables : linedGrammar.ts = linedTables :=
    TSLanguage.loaded_ts linedTables
  refine @endsInput_of_letters linedGrammar [(120, 1), (10, 2)] ?_ ?_ ?_ ?_
    ?_ ?_ ?_ ?_ source
  · rw [isTables]
    rfl
  · rw [isTables]
    rfl
  · rw [isTables]
    rfl
  · rw [isTables]
    decide
  · decide
  · rw [isTables]
    decide
  · decide
  · intro state symbol terminal known
    refine accepts_of_cells linedGrammar_loaded ?_ ?_ ?_ terminal known
    · rw [isTables]
      decide +kernel
    · rw [isTables]
      rfl
    · decide +kernel

/-- The positions handed over on the way through two lines, with a fork. -/
theorem tfParse_reports_positions_lined :
    ∃ result,
      tfParse linedGrammar countingSink 60 [120, 10, 120, 10] 0 .reliable =
          some result ∧
        result.parser.splitCount = 1 ∧
        (∃ event ∈ result.parser.events, ∃ position ∈ event.positions,
          position = (4, ⟨2, 0⟩)) ∧
        (∀ event ∈ result.parser.events, ∀ position ∈ event.positions,
          IsPosition [120, 10, 120, 10] position) ∧
        ∀ error, result.parser.error = some error →
          IsPosition [120, 10, 120, 10] error.position := by
  have computed :
      (tfParse linedGrammar countingSink 60 [120, 10, 120, 10] 0
            .reliable).map
          (fun result =>
            (result.parser.splitCount,
              result.parser.events.any (fun event =>
                event.positions.any (· == (4, ⟨2, 0⟩))))) =
        some (1, true) := by
    decide +kernel
  obtain ⟨result, ran, computed⟩ := Option.map_eq_some_iff.mp computed
  obtain ⟨splits, far⟩ := Prod.mk.inj computed
  have onLastRow :
      ∃ event ∈ result.parser.events, ∃ position ∈ event.positions,
        position = (4, ⟨2, 0⟩) := by
    simpa only [List.any_eq_true, beq_iff_eq] using far
  exact ⟨result, ran, splits, onLastRow,
    tfParse_reports_positions (linedGrammar_endsInput _) ran⟩

end TreeFeller
