import TreeFeller.Positions
import TreeFeller.SmallTables

/-!
# Lexing forgets its history

A lexer is driven by going to positions it was at before, by single advances
and by lexing tokens.  Whatever drove it, it stands on the path of the buffer
with its lookahead decoded, also at every callback of a generated function, and
lexing a token from there depends on the byte and the parse state only.
-/

namespace TreeFeller

/-- The lexer at each step of a generated function, and as it returns. -/
def LexProgram.states : LexProgram → TFLexer → List TFLexer
  | .finish _, lexer => [lexer]
  | .lookahead next, lexer => lexer :: (next lexer.lookahead).states lexer
  | .advance skip next, lexer =>
      lexer :: next.states (lexer.advance skip)
  | .markEnd next, lexer => lexer :: next.states lexer.markEnd
  | .resultSymbol symbol next, lexer =>
      lexer :: next.states { lexer with resultSymbol := symbol }
  | .eof next, lexer => lexer :: (next lexer.eof).states lexer
  | .getColumn next, lexer => lexer :: (next lexer.getColumn).states lexer
  | .isAtIncludedRangeStart next, lexer =>
      lexer :: (next lexer.isAtIncludedRangeStart).states lexer

namespace TFLexer

/-- The lexer as it sets out for a token in a parse state. -/
def entered (self : TFLexer) (state : TSStateId) : TFLexer :=
  { self with
    tokenIsKeyword := false
    tokenLexState := state }

/-- What the main lexing function makes of the token that follows. -/
def mainLex
    (self : TFLexer)
    (lang : TFLanguage)
    (state : TSStateId) :
    Bool × TFLexer :=
  (self.entered state).lexWith (lang.ts.lexFn (lang.lexMode state).lexState)

/-- The lexer back at the start of the token that was lexed. -/
def rewound (self : TFLexer) : TFLexer :=
  self.seek self.tokenStartByte self.tokenStartPoint

/-- What the keyword lexing function makes of a word token. -/
def keywordLex (self : TFLexer) (lang : TFLanguage) : Bool × TFLexer :=
  self.rewound.lexWith (lang.ts.keywordLexFn 0)

/-- Whether the token that was lexed is lexed again as a keyword. -/
def isWord (self : TFLexer) (lang : TFLanguage) : Bool :=
  self.resultSymbol == lang.ts.keywordCaptureToken &&
    self.resultSymbol != 0

/-- The lexer at each step of lexing one token. -/
def nextStates
    (self : TFLexer)
    (lang : TFLanguage)
    (state : TSStateId) :
    List TFLexer :=
  let main := self.mainLex lang state
  (lang.ts.lexFn (lang.lexMode state).lexState).states
      (self.entered state).start ++
    (if main.1 && main.2.isWord lang then
      main.2.rewound ::
        (lang.ts.keywordLexFn 0).states main.2.rewound.start
    else
      []) ++
    [(self.next lang state).2]

/--
Driving a lexer over a buffer: starting it, also again, going to a position it
was at before, advancing it, and lexing a token in any state of any language.
The list holds the lexer at each step so far, the callbacks included.
-/
inductive Lexes (source : List UInt8) : List TFLexer → TFLexer → Prop where
  | init :
      Lexes source [.init source source.length]
        (.init source source.length)
  | again
      {visited : List TFLexer}
      {lexer : TFLexer}
      (before : Lexes source visited lexer) :
      Lexes source (visited ++ [.init source source.length])
        (.init source source.length)
  | seek
      {visited : List TFLexer}
      {lexer held : TFLexer}
      (before : Lexes source visited lexer)
      (reached : held ∈ visited) :
      Lexes source (visited ++ [lexer.seek held.byte held.point])
        (lexer.seek held.byte held.point)
  | advance
      {visited : List TFLexer}
      {lexer : TFLexer}
      (before : Lexes source visited lexer)
      (skip : Bool) :
      Lexes source (visited ++ [lexer.advance skip]) (lexer.advance skip)
  | next
      {visited : List TFLexer}
      {lexer : TFLexer}
      (before : Lexes source visited lexer)
      (lang : TFLanguage)
      (state : TSStateId) :
      Lexes source (visited ++ lexer.nextStates lang state)
        (lexer.next lang state).2

/-! ## One token from its parts -/

/-- The four ways of lexing one token. -/
inductive Nexts
    (lexer : TFLexer)
    (lang : TFLanguage)
    (state : TSStateId) :
    Option TFToken × TFLexer → Prop where
  /-- No token matches. -/
  | missed
      {stopped : TFLexer}
      (main : lexer.mainLex lang state = (false, stopped)) :
      Nexts lexer lang state (none, stopped)
  /-- A token that is no word. -/
  | plain
      {lexed : TFLexer}
      (main : lexer.mainLex lang state = (true, lexed))
      (noWord : lexed.isWord lang = false) :
      Nexts lexer lang state
        (some lexed.token, lexed.seek lexed.tokenEndByte lexed.tokenEndPoint)
  /-- A word that the state has no use for as a keyword. -/
  | word
      {lexed again : TFLexer}
      {found : Bool}
      (main : lexer.mainLex lang state = (true, lexed))
      (isWord : lexed.isWord lang = true)
      (keyword : lexed.keywordLex lang = (found, again))
      (rejected : again.acceptsKeyword lang state found lexed.token = false) :
      Nexts lexer lang state
        (some lexed.token, again.seek lexed.tokenEndByte lexed.tokenEndPoint)
  /-- A word that is a keyword here. -/
  | keyword
      {lexed again : TFLexer}
      {found : Bool}
      (main : lexer.mainLex lang state = (true, lexed))
      (isWord : lexed.isWord lang = true)
      (keyword : lexed.keywordLex lang = (found, again))
      (accepted : again.acceptsKeyword lang state found lexed.token = true) :
      Nexts lexer lang state
        (some { lexed.token with symbol := again.resultSymbol },
          TFLexer.seek { again with tokenIsKeyword := true }
            lexed.tokenEndByte lexed.tokenEndPoint)

/-- Lexing a token goes one of the four ways. -/
theorem next_spec
    (self : TFLexer)
    (lang : TFLanguage)
    (state : TSStateId) :
    Nexts self lang state (self.next lang state) := by
  cases main : self.mainLex lang state with
  | mk found lexed =>
  unfold mainLex entered at main
  unfold next
  dsimp only
  rw [main]
  cases found with
  | false => exact .missed main
  | true =>
      rw [if_neg (by simp)]
      by_cases isWord : lexed.isWord lang = true
      · have branch :
            lexed.token.symbol = lang.ts.keywordCaptureToken ∧
              lexed.token.symbol ≠ 0 := by
          simpa [TFLexer.isWord, token] using isWord
        rw [if_pos branch]
        cases keyword : lexed.keywordLex lang with
        | mk known again =>
        have rewinding :
            (lexed.seek lexed.token.startByte lexed.token.startPoint).lexWith
                (lang.ts.keywordLexFn 0) =
              (known, again) := keyword
        dsimp only
        rw [rewinding]
        cases accepted :
            again.acceptsKeyword lang state known lexed.token with
        | true =>
            rw [if_pos rfl]
            exact .keyword main isWord keyword accepted
        | false =>
            rw [if_neg Bool.false_ne_true]
            exact .word main isWord keyword accepted
      · have branch :
            ¬ (lexed.token.symbol = lang.ts.keywordCaptureToken ∧
              lexed.token.symbol ≠ 0) := by
          simpa [TFLexer.isWord, token] using isWord
        rw [if_neg branch]
        exact .plain main (Bool.eq_false_iff.mpr isWord)

/-! ## Where the token under way lies -/

/-- Where the token under way starts. -/
def tokenStart (self : TFLexer) : Nat × TFPoint :=
  (self.tokenStartByte, self.tokenStartPoint)

/-- Where the token under way was marked to end. -/
def tokenEnd (self : TFLexer) : Nat × TFPoint :=
  (self.tokenEndByte, self.tokenEndPoint)

/--
A lexer on the path, with the start of the token under way on it, and its end
unless that was not marked.
-/
structure Underway (source : List UInt8) (lexer : TFLexer) : Prop where
  placed : lexer.Placed source
  start : OnPath source lexer.tokenStart
  marked : lexer.tokenEndByte = tfNoEnd ∨ OnPath source lexer.tokenEnd

/-- Skipping starts the token anew, any other advance leaves its start. -/
theorem advance_tokenStart
    (self : TFLexer)
    (skip : Bool) :
    (self.advance skip).tokenStart = self.tokenStart ∨
      (self.advance skip).tokenStart = (self.advance skip).position := by
  unfold advance
  split
  · exact .inl rfl
  · unfold doAdvance
    cases skip with
    | true => exact .inr rfl
    | false =>
        left
        unfold getLookahead tokenStart
        by_cases sized : self.lookaheadSize = 0 <;> simp [sized]

/-- An advance leaves the mark. -/
theorem advance_tokenEnd
    (self : TFLexer)
    (skip : Bool) :
    (self.advance skip).tokenEnd = self.tokenEnd := by
  unfold advance doAdvance
  split
  · rfl
  · dsimp only
    split <;> split <;> rfl

namespace Underway

variable {source : List UInt8}
variable {self : TFLexer}

/-- An advance keeps the token under way. -/
theorem advance
    (underway : self.Underway source)
    (skip : Bool) :
    (self.advance skip).Underway source := by
  have placed := underway.placed.advance skip
  refine ⟨placed, ?_, ?_⟩
  · rcases self.advance_tokenStart skip with same | same
    · rw [same]
      exact underway.start
    · rw [same]
      exact placed.onPath
  · have same := self.advance_tokenEnd skip
    have sameByte :
        (self.advance skip).tokenEndByte = self.tokenEndByte :=
      congrArg Prod.fst same
    rw [sameByte, same]
    exact underway.marked

/-- Marking the end keeps the token under way. -/
theorem markEnd (underway : self.Underway source) :
    self.markEnd.Underway source := by
  obtain ⟨⟨⟨reading, sized, within, decoded, decodedSize⟩, onPath⟩, start,
    _⟩ := underway
  exact
    ⟨⟨⟨reading, sized, within, decoded, decodedSize⟩, onPath⟩, start,
      .inr onPath⟩

/-- Naming the token keeps it under way. -/
theorem resultSymbol
    (underway : self.Underway source)
    (symbol : TSSymbol) :
    TFLexer.Underway source { self with resultSymbol := symbol } := by
  obtain ⟨⟨⟨reading, sized, within, decoded, decodedSize⟩, onPath⟩, start,
    marked⟩ := underway
  exact
    ⟨⟨⟨reading, sized, within, decoded, decodedSize⟩, onPath⟩, start,
      marked⟩

/-- Finishing a token marks its end on the path. -/
theorem finish (underway : self.Underway source) :
    self.finish.Underway source ∧ OnPath source self.finish.tokenEnd := by
  unfold TFLexer.finish
  split
  · exact ⟨underway.markEnd, underway.placed.onPath⟩
  · rename_i isMarked
    exact ⟨underway, underway.marked.resolve_left isMarked⟩

/-- A generated function keeps the token under way at every step. -/
theorem states
    (program : LexProgram)
    (underway : self.Underway source) :
    (∀ held ∈ program.states self, held.Underway source) ∧
      (program.run self).2.Underway source := by
  induction program generalizing self with
  | finish found =>
      refine ⟨?_, underway⟩
      intro held member
      rw [List.mem_singleton.mp member]
      exact underway
  | lookahead next inductionHypothesis =>
      obtain ⟨later, ran⟩ := inductionHypothesis self.lookahead underway
      exact ⟨List.forall_mem_cons.mpr ⟨underway, later⟩, ran⟩
  | advance skip next inductionHypothesis =>
      obtain ⟨later, ran⟩ := inductionHypothesis (underway.advance skip)
      exact ⟨List.forall_mem_cons.mpr ⟨underway, later⟩, ran⟩
  | markEnd next inductionHypothesis =>
      obtain ⟨later, ran⟩ := inductionHypothesis underway.markEnd
      exact ⟨List.forall_mem_cons.mpr ⟨underway, later⟩, ran⟩
  | resultSymbol symbol next inductionHypothesis =>
      obtain ⟨later, ran⟩ :=
        inductionHypothesis (underway.resultSymbol symbol)
      exact ⟨List.forall_mem_cons.mpr ⟨underway, later⟩, ran⟩
  | eof next inductionHypothesis =>
      obtain ⟨later, ran⟩ := inductionHypothesis self.eof underway
      exact ⟨List.forall_mem_cons.mpr ⟨underway, later⟩, ran⟩
  | getColumn next inductionHypothesis =>
      obtain ⟨later, ran⟩ := inductionHypothesis self.getColumn underway
      exact ⟨List.forall_mem_cons.mpr ⟨underway, later⟩, ran⟩
  | isAtIncludedRangeStart next inductionHypothesis =>
      obtain ⟨later, ran⟩ :=
        inductionHypothesis self.isAtIncludedRangeStart underway
      exact ⟨List.forall_mem_cons.mpr ⟨underway, later⟩, ran⟩

end Underway

namespace Placed

variable {source : List UInt8}
variable {self : TFLexer}

/-- Setting out for a token stays in place. -/
theorem entered
    (placed : self.Placed source)
    (state : TSStateId) :
    (self.entered state).Placed source := by
  obtain ⟨⟨reading, sized, within, decoded, decodedSize⟩, onPath⟩ := placed
  exact ⟨⟨reading, sized, within, decoded, decodedSize⟩, onPath⟩

/-- A token starts on the path. -/
theorem start (placed : self.Placed source) :
    self.start.Underway source := by
  obtain ⟨⟨reading, sized, within, decoded, decodedSize⟩, onPath⟩ := placed
  have started :
      Underway source
        { self with
          tokenStartByte := self.byte
          tokenStartPoint := self.point
          tokenEndByte := tfNoEnd
          resultSymbol := 0 } :=
    ⟨⟨⟨reading, sized, within, decoded, decodedSize⟩, onPath⟩, onPath,
      .inl rfl⟩
  unfold TFLexer.start
  dsimp only
  split
  · exact started.advance true
  · exact started

/-- Running a generated function gets to the end of a token on the path. -/
theorem lexWith
    (placed : self.Placed source)
    (program : LexProgram) :
    (∀ held ∈ program.states self.start, held.Underway source) ∧
      (self.lexWith program).2.Underway source ∧
      OnPath source (self.lexWith program).2.tokenEnd := by
  obtain ⟨every, ran⟩ := placed.start.states program
  exact ⟨every, ran.finish⟩

/-- Going back to the start of a token stays on the path. -/
theorem rewound (underway : self.Underway source) :
    self.rewound.Placed source :=
  underway.placed.seek underway.start

end Placed

/-- What the main lexing function makes of a token lies on the path. -/
theorem Placed.mainLex
    {source : List UInt8}
    {self lexed : TFLexer}
    {lang : TFLanguage}
    {state : TSStateId}
    {found : Bool}
    (placed : self.Placed source)
    (main : self.mainLex lang state = (found, lexed)) :
    lexed.Underway source ∧ OnPath source lexed.tokenEnd := by
  have ended := ((placed.entered state).lexWith
    (lang.ts.lexFn (lang.lexMode state).lexState)).2
  have same : (self.mainLex lang state).2 = lexed := congrArg Prod.snd main
  rw [← same]
  exact ended

/-- What the keyword lexing function makes of a word lies on the path. -/
theorem Underway.keywordLex
    {source : List UInt8}
    {lexed again : TFLexer}
    {lang : TFLanguage}
    {found : Bool}
    (underway : lexed.Underway source)
    (keyword : lexed.keywordLex lang = (found, again)) :
    again.Underway source := by
  have ended :=
    ((Placed.rewound underway).lexWith (lang.ts.keywordLexFn 0)).2.1
  have same : (lexed.keywordLex lang).2 = again := congrArg Prod.snd keyword
  rw [← same]
  exact ended

/-- A lexer on the path is left there by a token. -/
theorem Placed.next_placed
    {source : List UInt8}
    {self : TFLexer}
    (placed : self.Placed source)
    (lang : TFLanguage)
    (state : TSStateId) :
    (self.next lang state).2.Placed source := by
  have nexts := self.next_spec lang state
  generalize self.next lang state = result at nexts
  cases nexts with
  | missed main =>
      exact (placed.mainLex main).1.placed
  | plain main _ =>
      obtain ⟨ended, onPath⟩ := placed.mainLex main
      exact ended.placed.seek onPath
  | word main _ keyword _ =>
      obtain ⟨ended, onPath⟩ := placed.mainLex main
      exact (ended.keywordLex keyword).placed.seek onPath
  | @keyword lexed again _ main _ keyword _ =>
      obtain ⟨ended, onPath⟩ := placed.mainLex main
      obtain ⟨⟨reading, sized, within, decoded, decodedSize⟩, there⟩ :=
        (ended.keywordLex keyword).placed
      have marked : Placed source { again with tokenIsKeyword := true } :=
        ⟨⟨reading, sized, within, decoded, decodedSize⟩, there⟩
      exact marked.seek onPath

/-- A lexer on the path stays there through a token. -/
theorem Placed.nextStates
    {source : List UInt8}
    {self : TFLexer}
    (placed : self.Placed source)
    (lang : TFLanguage)
    (state : TSStateId) :
    ∀ held ∈ self.nextStates lang state, held.Placed source := by
  obtain ⟨every, ended, onPath⟩ :=
    (placed.entered state).lexWith
      (lang.ts.lexFn (lang.lexMode state).lexState)
  have rewound := Placed.rewound ended
  obtain ⟨everyAgain, _, _⟩ :=
    rewound.lexWith (lang.ts.keywordLexFn 0)
  intro held member
  unfold TFLexer.nextStates at member
  rcases List.mem_append.mp member with earlier | isLast
  · rcases List.mem_append.mp earlier with inMain | inKeyword
    · exact (every held inMain).placed
    · split at inKeyword
      · rcases List.mem_cons.mp inKeyword with isRewound | inAgain
        · rw [isRewound]
          exact rewound
        · exact (everyAgain held inAgain).placed
      · cases inKeyword
  · rw [List.mem_singleton.mp isLast]
    exact placed.next_placed lang state

/-- Whatever drove a lexer, it stood on the path all along. -/
theorem Lexes.placed
    {source : List UInt8}
    {visited : List TFLexer}
    {lexer : TFLexer}
    (lexes : Lexes source visited lexer) :
    (∀ held ∈ visited, held.Placed source) ∧ lexer.Placed source := by
  have extended
      {visited more : List TFLexer}
      (earlier : ∀ held ∈ visited, held.Placed source)
      (later : ∀ held ∈ more, held.Placed source) :
      ∀ held ∈ visited ++ more, held.Placed source := by
    intro held member
    rcases List.mem_append.mp member with inVisited | inMore
    · exact earlier held inVisited
    · exact later held inMore
  induction lexes with
  | init =>
      have placed := placed_init source
      exact ⟨by simpa using placed, placed⟩
  | again before inductionHypothesis =>
      have placed := placed_init source
      exact
        ⟨extended inductionHypothesis.1 (by simpa using placed), placed⟩
  | @seek visited lexer held before reached inductionHypothesis =>
      obtain ⟨earlier, here⟩ := inductionHypothesis
      have placed : (lexer.seek held.byte held.point).Placed source :=
        here.seek (earlier held reached).onPath
      exact ⟨extended earlier (by simpa using placed), placed⟩
  | advance before skip inductionHypothesis =>
      obtain ⟨earlier, here⟩ := inductionHypothesis
      have placed := here.advance skip
      exact ⟨extended earlier (by simpa using placed), placed⟩
  | next before lang state inductionHypothesis =>
      obtain ⟨earlier, here⟩ := inductionHypothesis
      exact
        ⟨extended earlier (here.nextStates lang state),
          here.next_placed lang state⟩

/-! ## What a token depends on -/

/-- Lexing a token depends on what the main lexing function makes of it. -/
theorem next_of_mainLex
    {self other : TFLexer}
    {lang : TFLanguage}
    {state : TSStateId}
    (same : self.mainLex lang state = other.mainLex lang state) :
    self.next lang state = other.next lang state := by
  unfold mainLex entered at same
  unfold next
  dsimp only
  rw [same]

/--
Two lexers that agree on everything, but for an end of the token that only
counts once it is marked.
-/
def Alike (self other : TFLexer) : Prop :=
  self = other ∨
    self.tokenEndByte = tfNoEnd ∧
      ∃ point, other = { self with tokenEndPoint := point }

/-- The column does not depend on the mark. -/
theorem columnFrom_tokenEndPoint
    (self : TFLexer)
    (point : TFPoint)
    (limit fuel index column : Nat) :
    TFLexer.columnFrom { self with tokenEndPoint := point }
        limit fuel index column =
      self.columnFrom limit fuel index column := by
  induction fuel generalizing index column with
  | zero => rfl
  | succ fuel inductionHypothesis =>
      unfold columnFrom
      dsimp only
      rw [inductionHypothesis]

namespace Alike

variable {self other : TFLexer}

/-- An advance does not look at the mark. -/
theorem advance
    (alike : Alike self other)
    (skip : Bool) :
    Alike (self.advance skip) (other.advance skip) := by
  rcases alike with rfl | ⟨unmarked, point, rfl⟩
  · exact .inl rfl
  · right
    have same := self.advance_tokenEnd skip
    refine ⟨(congrArg Prod.fst same).trans unmarked, point, ?_⟩
    unfold TFLexer.advance
    split
    · rfl
    · unfold doAdvance getLookahead
      by_cases sized : self.lookaheadSize = 0 <;> cases skip <;>
        simp [sized, advancedPoint, decode]

/-- A mark leaves no difference. -/
theorem markEnd (alike : Alike self other) :
    self.markEnd = other.markEnd := by
  rcases alike with rfl | ⟨_, point, rfl⟩
  · rfl
  · rfl

/-- Naming the token does not look at the mark. -/
theorem resultSymbol
    (alike : Alike self other)
    (symbol : TSSymbol) :
    Alike { self with resultSymbol := symbol }
      { other with resultSymbol := symbol } := by
  rcases alike with rfl | ⟨unmarked, point, rfl⟩
  · exact .inl rfl
  · exact .inr ⟨unmarked, point, rfl⟩

/-- Finishing a token leaves no difference. -/
theorem finish (alike : Alike self other) :
    self.finish = other.finish := by
  rcases alike with rfl | ⟨unmarked, point, rfl⟩
  · rfl
  · unfold TFLexer.finish
    rw [if_pos unmarked, if_pos unmarked]
    rfl

/-- A generated function does the same with both. -/
theorem run
    (program : LexProgram)
    (alike : Alike self other) :
    (program.run self).1 = (program.run other).1 ∧
      Alike (program.run self).2 (program.run other).2 := by
  induction program generalizing self other with
  | finish found => exact ⟨rfl, alike⟩
  | lookahead next inductionHypothesis =>
      have same : self.lookahead = other.lookahead := by
        rcases alike with rfl | ⟨_, point, rfl⟩ <;> rfl
      unfold LexProgram.run
      rw [same]
      exact inductionHypothesis other.lookahead alike
  | advance skip next inductionHypothesis =>
      exact inductionHypothesis (alike.advance skip)
  | markEnd next inductionHypothesis =>
      exact inductionHypothesis (.inl alike.markEnd)
  | resultSymbol symbol next inductionHypothesis =>
      exact inductionHypothesis (alike.resultSymbol symbol)
  | eof next inductionHypothesis =>
      have same : self.eof = other.eof := by
        rcases alike with rfl | ⟨_, point, rfl⟩ <;> rfl
      unfold LexProgram.run
      rw [same]
      exact inductionHypothesis other.eof alike
  | getColumn next inductionHypothesis =>
      have same : self.getColumn = other.getColumn := by
        rcases alike with rfl | ⟨_, point, rfl⟩
        · rfl
        · exact (columnFrom_tokenEndPoint self point _ _ _ _).symm
      unfold LexProgram.run
      rw [same]
      exact inductionHypothesis other.getColumn alike
  | isAtIncludedRangeStart next inductionHypothesis =>
      have same :
          self.isAtIncludedRangeStart = other.isAtIncludedRangeStart := by
        rcases alike with rfl | ⟨_, point, rfl⟩ <;> rfl
      unfold LexProgram.run
      rw [same]
      exact inductionHypothesis other.isAtIncludedRangeStart alike

end Alike

/-- Two settled lexers at one position start a token alike. -/
theorem alike_start
    {source : List UInt8}
    {self other : TFLexer}
    (settled : self.Settled source)
    (settled' : other.Settled source)
    (same : self.position = other.position)
    (keyword : self.tokenIsKeyword = other.tokenIsKeyword)
    (lexState : self.tokenLexState = other.tokenLexState) :
    Alike self.start other.start := by
  have sameByte : self.byte = other.byte := congrArg Prod.fst same
  have samePoint : self.point = other.point := congrArg Prod.snd same
  obtain ⟨lookahead, lookaheadSize⟩ :=
    settled.lookahead_eq settled' sameByte
  have reading := settled.reading.trans settled'.reading.symm
  have sized := settled.sized.trans settled'.sized.symm
  have started :
      Alike
        { self with
          tokenStartByte := self.byte
          tokenStartPoint := self.point
          tokenEndByte := tfNoEnd
          resultSymbol := 0 }
        { other with
          tokenStartByte := other.byte
          tokenStartPoint := other.point
          tokenEndByte := tfNoEnd
          resultSymbol := 0 } := by
    refine .inr ⟨rfl, other.tokenEndPoint, ?_⟩
    rw [reading, sized, sameByte, samePoint, lookahead, lookaheadSize,
      keyword, lexState]
  unfold start
  dsimp only
  rw [sameByte, sized, lookahead] at started ⊢
  split
  · exact started.advance true
  · exact started

/-- Lexing a token depends on the byte and the parse state only. -/
theorem Placed.next_eq_of_byte
    {source : List UInt8}
    {self other : TFLexer}
    (placed : self.Placed source)
    (placed' : other.Placed source)
    (same : self.byte = other.byte)
    (lang : TFLanguage)
    (state : TSStateId) :
    self.next lang state = other.next lang state := by
  apply next_of_mainLex
  have here := placed.entered state
  have here' := placed'.entered state
  have position :
      (self.entered state).position = (other.entered state).position :=
    placed.onPath.point_unique placed'.onPath same
  obtain ⟨found, ran⟩ :=
    (alike_start here.settled here'.settled position rfl rfl).run
      (lang.ts.lexFn (lang.lexMode state).lexState)
  exact Prod.ext found ran.finish

/-! ## The arithmetic of 32 bits -/

/-- What 32 bits hold of a number. -/
def wrap32 (number : Nat) : Nat :=
  number % 2 ^ 32

/-- Stepping over the lookahead in the arithmetic of 32 bits. -/
def doAdvance32 (self : TFLexer) (skip : Bool) : TFLexer :=
  let moved :=
    if self.lookaheadSize ≠ 0 then
      { self with
        byte := wrap32 (self.byte + self.lookaheadSize)
        point :=
          if self.lookahead = 10 then
            ⟨wrap32 (self.point.row + 1), 0⟩
          else
            ⟨self.point.row,
              wrap32 (self.point.column + self.lookaheadSize)⟩ }
    else
      self
  let started :=
    if skip then
      { moved with
        tokenStartByte := moved.byte
        tokenStartPoint := moved.point }
    else
      moved
  started.getLookahead

/-- The rows and the columns that are passed are bytes that are passed. -/
theorem OnPath.point_le
    {source : List UInt8}
    {position : Nat × TFPoint}
    (onPath : OnPath source position) :
    position.2.row + position.2.column ≤ position.1 := by
  obtain ⟨count, rfl⟩ := onPath
  have settled := settled_init source
  induction count with
  | zero => exact Nat.le_refl _
  | succ count inductionHypothesis =>
      rw [march_succ]
      have here := settled.march count
      generalize (init source source.length).march count = lexer at *
      by_cases inside : lexer.byte < source.length
      · rw [here.advance_of_lt inside]
        unfold position at *
        rw [here.doAdvance_byte, here.doAdvance_point]
        have positive := here.lookaheadSize_pos
        unfold advancedPoint
        split
        · dsimp only at *
          omega
        · dsimp only at *
          omega
      · rw [here.advance_of_eof (Nat.le_of_not_lt inside)]
        exact inductionHypothesis

/-- On a buffer that 32 bits can size, no advance wraps. -/
theorem Placed.doAdvance32_eq
    {source : List UInt8}
    {self : TFLexer}
    (small : source.length ≤ 2 ^ 32 - 1)
    (placed : self.Placed source)
    (inside : self.byte < source.length)
    (skip : Bool) :
    self.doAdvance32 skip = self.doAdvance skip := by
  have within := placed.settled.lookahead_within inside
  have point : self.point.row + self.point.column ≤ self.byte :=
    placed.onPath.point_le
  have positive := placed.settled.lookaheadSize_pos
  have byte :
      wrap32 (self.byte + self.lookaheadSize) =
        self.byte + self.lookaheadSize :=
    Nat.mod_eq_of_lt (by omega)
  have row : wrap32 (self.point.row + 1) = self.point.row + 1 :=
    Nat.mod_eq_of_lt (by omega)
  have column :
      wrap32 (self.point.column + self.lookaheadSize) =
        self.point.column + self.lookaheadSize :=
    Nat.mod_eq_of_lt (by omega)
  unfold doAdvance32 doAdvance advancedPoint
  rw [byte, row, column]

/--
What holds of a lexer at every step: it reads its buffer, stands within it, and
its lookahead is what stands at its byte, 0 at the end; an advance before the
end stays within the buffer and does not wrap.
-/
structure Sound (source : List UInt8) (lexer : TFLexer) : Prop where
  reading : lexer.source = source ∧ lexer.size = source.length
  reads :
    Reads (source.drop lexer.byte) lexer.lookahead lexer.lookaheadSize
  atEnd :
    lexer.byte = lexer.size →
      lexer.lookahead = 0 ∧ lexer.lookaheadSize = 1
  within : lexer.byte ≤ lexer.size
  advances :
    lexer.byte < lexer.size →
      lexer.byte + lexer.lookaheadSize ≤ lexer.size ∧
        ∀ skip, lexer.doAdvance32 skip = lexer.doAdvance skip

/-- A lexer on the path is sound. -/
theorem Placed.sound
    {source : List UInt8}
    {self : TFLexer}
    (small : source.length ≤ 2 ^ 32 - 1)
    (placed : self.Placed source) :
    self.Sound source := by
  have settled := placed.settled
  refine ⟨⟨settled.reading, settled.sized⟩, settled.reads, ?_, ?_, ?_⟩
  · intro atEnd
    rw [settled.decoded, settled.decodedSize]
    unfold decode
    rw [if_pos (Nat.le_of_eq atEnd.symm)]
    exact ⟨rfl, rfl⟩
  · rw [settled.sized]
    exact settled.within
  · rw [settled.sized]
    intro inside
    exact
      ⟨settled.lookahead_within inside,
        placed.doAdvance32_eq small inside⟩

/-! ## The span of a token -/

/-- An advance leaves the keyword flag. -/
theorem advance_tokenIsKeyword
    (self : TFLexer)
    (skip : Bool) :
    (self.advance skip).tokenIsKeyword = self.tokenIsKeyword := by
  unfold advance doAdvance
  split
  · rfl
  · dsimp only
    split <;> split <;> rfl

/-- A generated function leaves the keyword flag. -/
theorem run_tokenIsKeyword
    (program : LexProgram)
    (self : TFLexer) :
    (program.run self).2.tokenIsKeyword = self.tokenIsKeyword := by
  induction program generalizing self with
  | finish found => rfl
  | lookahead next inductionHypothesis => exact inductionHypothesis _ _
  | advance skip next inductionHypothesis =>
      exact (inductionHypothesis _).trans (self.advance_tokenIsKeyword skip)
  | markEnd next inductionHypothesis => exact inductionHypothesis _
  | resultSymbol symbol next inductionHypothesis =>
      exact inductionHypothesis _
  | eof next inductionHypothesis => exact inductionHypothesis _ _
  | getColumn next inductionHypothesis => exact inductionHypothesis _ _
  | isAtIncludedRangeStart next inductionHypothesis =>
      exact inductionHypothesis _ _

/-- Lexing with a generated function leaves the keyword flag. -/
theorem lexWith_tokenIsKeyword
    (self : TFLexer)
    (program : LexProgram) :
    (self.lexWith program).2.tokenIsKeyword = self.tokenIsKeyword := by
  have finished (lexer : TFLexer) :
      lexer.finish.tokenIsKeyword = lexer.tokenIsKeyword := by
    unfold finish
    split <;> rfl
  have started : self.start.tokenIsKeyword = self.tokenIsKeyword := by
    unfold start
    dsimp only
    split
    · exact advance_tokenIsKeyword _ true
    · rfl
  exact (finished _).trans
    ((run_tokenIsKeyword program self.start).trans started)

/-- The main lexing function's token is no keyword yet. -/
theorem mainLex_tokenIsKeyword
    {self lexed : TFLexer}
    {lang : TFLanguage}
    {state : TSStateId}
    {found : Bool}
    (main : self.mainLex lang state = (found, lexed)) :
    lexed.tokenIsKeyword = false := by
  have kept :=
    (self.entered state).lexWith_tokenIsKeyword
      (lang.ts.lexFn (lang.lexMode state).lexState)
  have same : (self.mainLex lang state).2 = lexed := congrArg Prod.snd main
  rw [← same]
  exact kept

/--
A token ends where the lexer is left, and has the span of the token that the
main lexing function made, whatever became of its symbol.
-/
theorem next_span
    {self : TFLexer}
    {lang : TFLanguage}
    {state : TSStateId}
    {token : TFToken}
    (found : (self.next lang state).1 = some token) :
    (self.next lang state).2.position = (token.endByte, token.endPoint) ∧
      token =
        { (self.mainLex lang state).2.token with symbol := token.symbol } := by
  have nexts := self.next_spec lang state
  generalize self.next lang state = result at nexts found
  cases nexts with
  | missed main => cases found
  | plain main _ =>
      cases found
      rw [main]
      exact ⟨rfl, rfl⟩
  | word main _ _ _ =>
      cases found
      rw [main]
      exact ⟨rfl, rfl⟩
  | keyword main _ _ _ =>
      cases found
      rw [main]
      exact ⟨rfl, rfl⟩

/--
Lexing is independent of history.  Two lexers over one buffer that stand at one
byte lex the same token in a parse state, with the same flags and from there on
in the same position, whatever either was driven through.  At every step that
took, and at every callback of the token that follows, the lookahead is what
stands at the lexer's byte, and no position runs past the buffer or wraps.  A
token that is found ends where the lexer is left, and a keyword in place of a
word has the word's span.
-/
theorem lexing_forgets_history
    {source : List UInt8}
    (small : source.length ≤ 2 ^ 32 - 1)
    {visited visited' : List TFLexer}
    {lexer lexer' : TFLexer}
    (lexes : Lexes source visited lexer)
    (lexes' : Lexes source visited' lexer') :
    (lexer.byte = lexer'.byte →
      ∀ lang state, lexer.next lang state = lexer'.next lang state) ∧
    (∀ held ∈ visited, held.Sound source) ∧
    ∀ lang state,
      (∀ held ∈ lexer.nextStates lang state, held.Sound source) ∧
      ∀ token, (lexer.next lang state).1 = some token →
        (lexer.next lang state).2.position =
            (token.endByte, token.endPoint) ∧
          token =
            { (lexer.mainLex lang state).2.token with
              symbol := token.symbol } := by
  obtain ⟨earlier, here⟩ := lexes.placed
  obtain ⟨_, here'⟩ := lexes'.placed
  refine ⟨?_, ?_, ?_⟩
  · intro same lang state
    exact here.next_eq_of_byte here' same lang state
  · intro held member
    exact (earlier held member).sound small
  · intro lang state
    refine ⟨?_, fun token found => next_span found⟩
    intro held member
    exact (here.nextStates lang state held member).sound small

end TFLexer

/--
A word `k` that is a keyword in the first two states, and the word itself in
the second one too.
-/
def wordGrammar : TFLanguage :=
  TSLanguage.loaded {
    smallTables 4 3 5 [(107, 1)]
      [[], [.shift 2 false false], [.shift 3 false false],
        [.reduce 2 3 0 0], [.accept]]
      [(1, 2, 1), (2, 1, 2), (2, 2, 2), (3, 0, 3), (4, 0, 4)]
      [(1, 3, 4)] with
    keywordLexFn := fun _ => lexLetters [(107, 2)]
    keywordCaptureToken := 1
  }

/-- The tables of the grammar load. -/
theorem wordGrammar_loaded : wordGrammar.Loaded :=
  TSLanguage.loaded_of_isOk (by decide +kernel)

namespace TFLexer

/-- A lexer that was sent back lexes the keyword once more. -/
theorem lexing_forgets_history_backAgain :
    (init [107, 107] 2).next wordGrammar 1 =
        (((init [107, 107] 2).next wordGrammar 1).2.seek 0
          .origin).next wordGrammar 1 ∧
      ((init [107, 107] 2).next wordGrammar 1).1 =
        some ⟨2, 0, 1, .origin, ⟨0, 1⟩⟩ :=
  ⟨(lexing_forgets_history (by decide) .init
      (@Lexes.seek [107, 107] _ _ (init [107, 107] 2)
        (.next .init wordGrammar 1) (by simp))).1 rfl wordGrammar 1,
    by decide +kernel⟩

end TFLexer

end TreeFeller
