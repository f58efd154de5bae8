import TreeFeller.Language

/-!
# The lexer adapter

Runs a grammar's generated lexing function over an in-memory buffer: UTF-8
decoding, the position arithmetic behind the callbacks, and one token with the
keyword re-lex.  Bytes are `UInt8`; positions are natural numbers, which the
32-bit fields of the source hold as long as the buffer is at most
`2 ^ 32 - 1` bytes (see `TFParser.run` for the check).
-/

namespace TreeFeller

/-- A row and a column in bytes; only a newline advances the row. -/
structure TFPoint where
  row : Nat
  column : Nat
  deriving Repr, DecidableEq, Inhabited

/-- The start of the input. -/
def TFPoint.origin : TFPoint := ⟨0, 0⟩

/-- A terminal, as the lexer produced it. -/
structure TFToken where
  symbol : TSSymbol
  startByte : Nat
  endByte : Nat
  startPoint : TFPoint
  endPoint : TFPoint
  deriving Repr, DecidableEq, Inhabited

/-- The zeroed token a run starts with. -/
def TFToken.zero : TFToken := ⟨0, 0, 0, .origin, .origin⟩

/-- What decoding substitutes for a malformed sequence. -/
def tfDecodeError : Int := -1

/-- The byte order mark. -/
def tfBom : Int := 0xFEFF

/-- The mark of a token whose end has not been marked. -/
def tfNoEnd : Nat := 2 ^ 32 - 1

/-- Read a byte of a buffer; the callers stay within the buffer. -/
def byteAt (source : List UInt8) (index : Nat) : Nat :=
  (source.getD index 0).toNat

/-- Whether a byte continues a multi-byte sequence. -/
def isContinuation (byte : Nat) : Bool :=
  byte &&& 0xC0 == 0x80

/--
Decode the sequence that starts at a position, of which `available` bytes are
readable: the code point and the bytes it spans, or nothing on a malformed
sequence.
-/
def utf8Next
    (source : List UInt8)
    (start available : Nat) :
    Option (Nat × Nat) :=
  let lead := byteAt source start
  let second := byteAt source (start + 1)
  let third := byteAt source (start + 2)
  let fourth := byteAt source (start + 3)
  if lead < 0x80 then
    some (lead, 1)
  else if lead < 0xC2 then
    none
  else if lead < 0xE0 then
    if available < 2 || !isContinuation second then
      none
    else
      some (((lead &&& 0x1F) <<< 6) ||| (second &&& 0x3F), 2)
  else if lead < 0xF0 then
    if available < 3 || !isContinuation second ||
        !isContinuation third then
      none
    else if
        (if lead = 0xE0 then second < 0xA0
          else lead = 0xED ∧ 0x9F < second) then
      none
    else
      some (((lead &&& 0x0F) <<< 12) ||| ((second &&& 0x3F) <<< 6) |||
        (third &&& 0x3F), 3)
  else if lead < 0xF5 then
    if available < 4 || !isContinuation second ||
        !isContinuation third || !isContinuation fourth then
      none
    else if
        (if lead = 0xF0 then second < 0x90
          else lead = 0xF4 ∧ 0x8F < second) then
      none
    else
      some (((lead &&& 0x07) <<< 18) ||| ((second &&& 0x3F) <<< 12) |||
        ((third &&& 0x3F) <<< 6) ||| (fourth &&& 0x3F), 4)
  else
    none

/-- The lexer's position, its decoded lookahead and the token under way. -/
structure TFLexer where
  source : List UInt8
  size : Nat
  byte : Nat
  point : TFPoint
  lookahead : Int
  lookaheadSize : Nat
  resultSymbol : TSSymbol
  tokenStartByte : Nat
  tokenStartPoint : TFPoint
  tokenEndByte : Nat
  tokenEndPoint : TFPoint
  tokenIsKeyword : Bool
  tokenLexState : TSStateId
  deriving Repr, DecidableEq, Inhabited

namespace TFLexer

/-- Whether the input is used up. -/
def eof (self : TFLexer) : Bool :=
  self.size ≤ self.byte

/-- The lookahead at the current byte and the bytes it spans. -/
def decode (self : TFLexer) : Int × Nat :=
  if self.size ≤ self.byte then
    (0, 1)
  else if byteAt self.source self.byte < 0x80 then
    (byteAt self.source self.byte, 1)
  else
    match utf8Next self.source self.byte (self.size - self.byte) with
    | some (codePoint, length) => (codePoint, length)
    | none => (tfDecodeError, 1)

/-- Refresh the lookahead from the current byte. -/
def getLookahead (self : TFLexer) : TFLexer :=
  { self with
    lookahead := self.decode.1
    lookaheadSize := self.decode.2 }

/-- Move to a position. -/
def seek (self : TFLexer) (byte : Nat) (point : TFPoint) : TFLexer :=
  getLookahead { self with byte := byte, point := point }

/-- The point past the current lookahead. -/
def advancedPoint (self : TFLexer) : TFPoint :=
  if self.lookahead = 10 then
    ⟨self.point.row + 1, 0⟩
  else
    ⟨self.point.row, self.point.column + self.lookaheadSize⟩

/-- Step over the lookahead, starting the token anew when skipping. -/
def doAdvance (self : TFLexer) (skip : Bool) : TFLexer :=
  let moved :=
    if self.lookaheadSize ≠ 0 then
      { self with
        byte := self.byte + self.lookaheadSize
        point := self.advancedPoint }
    else
      self
  let started :=
    if skip then
      { moved with
        tokenStartByte := moved.byte
        tokenStartPoint := moved.point }
    else
      moved
  started.getLookahead

/-- The advance callback: nothing at the end of the input. -/
def advance (self : TFLexer) (skip : Bool) : TFLexer :=
  if self.size ≤ self.byte then
    self
  else
    self.doAdvance skip

/-- The callback that marks the token's end here. -/
def markEnd (self : TFLexer) : TFLexer :=
  { self with
    tokenEndByte := self.byte
    tokenEndPoint := self.point }

/-- Count the code points from a byte up to `limit`. -/
def columnFrom
    (self : TFLexer)
    (limit : Nat) :
    Nat → Nat → Nat → Nat
  | 0, _, column => column
  | fuel + 1, index, column =>
      if index < limit then
        let decoded := utf8Next self.source index (self.size - index)
        let length := (decoded.map Prod.snd).getD 1
        let isBom := decoded.map (fun step => (step.1 : Int)) == some tfBom
        let counted :=
          if index ≠ 0 || !isBom then column + 1 else column
        self.columnFrom limit fuel (index + length) counted
      else
        column

/-- The column callback: code points since the start of the line. -/
def getColumn (self : TFLexer) : Nat :=
  self.columnFrom self.byte self.size
    (self.byte - self.point.column) 0

/-- Whether the lexer stands at the very start of the input. -/
def isAtIncludedRangeStart (self : TFLexer) : Bool :=
  self.byte == 0 && 0 < self.size

/-- The lexer at the start of a buffer. -/
def init (source : List UInt8) (size : Nat) : TFLexer :=
  getLookahead {
    source := source
    size := size
    byte := 0
    point := .origin
    lookahead := 0
    lookaheadSize := 0
    resultSymbol := 0
    tokenStartByte := 0
    tokenStartPoint := .origin
    tokenEndByte := 0
    tokenEndPoint := .origin
    tokenIsKeyword := false
    tokenLexState := 0
  }

/-- Begin a token here, past a byte order mark at the start of the input. -/
def start (self : TFLexer) : TFLexer :=
  let started := { self with
    tokenStartByte := self.byte
    tokenStartPoint := self.point
    tokenEndByte := tfNoEnd
    resultSymbol := 0 }
  if self.byte = 0 ∧ 0 < self.size ∧ self.lookahead = tfBom then
    started.advance true
  else
    started

/-- Mark the end here when the generated function never did. -/
def finish (self : TFLexer) : TFLexer :=
  if self.tokenEndByte = tfNoEnd then
    self.markEnd
  else
    self

end TFLexer

/-- Run a generated lexing function over the callbacks. -/
def LexProgram.run : LexProgram → TFLexer → Bool × TFLexer
  | .finish found, lexer => (found, lexer)
  | .lookahead next, lexer => (next lexer.lookahead).run lexer
  | .advance skip next, lexer => next.run (lexer.advance skip)
  | .markEnd next, lexer => next.run lexer.markEnd
  | .resultSymbol symbol next, lexer =>
      next.run { lexer with resultSymbol := symbol }
  | .eof next, lexer => (next lexer.eof).run lexer
  | .getColumn next, lexer => (next lexer.getColumn).run lexer
  | .isAtIncludedRangeStart next, lexer =>
      (next lexer.isAtIncludedRangeStart).run lexer

namespace TFLexer

/-- The token under way. -/
def token (self : TFLexer) : TFToken where
  symbol := self.resultSymbol
  startByte := self.tokenStartByte
  endByte := self.tokenEndByte
  startPoint := self.tokenStartPoint
  endPoint := self.tokenEndPoint

/-- Run a generated function from the start of a token to its end. -/
def lexWith (self : TFLexer) (program : LexProgram) : Bool × TFLexer :=
  let ran := program.run self.start
  (ran.1, ran.2.finish)

/--
Whether the keyword lexer's token replaces the word token: it accepted, spans
the same bytes, and the state has a use for it.
-/
def acceptsKeyword
    (self : TFLexer)
    (lang : TFLanguage)
    (state : TSStateId)
    (found : Bool)
    (word : TFToken) :
    Bool :=
  found && self.tokenEndByte == word.endByte &&
    (lang.lookup state self.resultSymbol != 0 ||
      lang.isReservedWord state self.resultSymbol)

/--
Lex the token that follows in a parse state.  Without one, the lexer is left
at the offending character.
-/
def next
    (self : TFLexer)
    (lang : TFLanguage)
    (state : TSStateId) :
    Option TFToken × TFLexer :=
  let entered := { self with
    tokenIsKeyword := false
    tokenLexState := state }
  let main := entered.lexWith (lang.ts.lexFn (lang.lexMode state).lexState)
  if !main.1 then
    (none, main.2)
  else
    let word := main.2.token
    if word.symbol = lang.ts.keywordCaptureToken ∧ word.symbol ≠ 0 then
      let keyword :=
        (main.2.seek word.startByte word.startPoint).lexWith
          (lang.ts.keywordLexFn 0)
      if keyword.2.acceptsKeyword lang state keyword.1 word then
        let replaced := { keyword.2 with tokenIsKeyword := true }
        (some { word with symbol := keyword.2.resultSymbol },
          replaced.seek word.endByte word.endPoint)
      else
        (some word, keyword.2.seek word.endByte word.endPoint)
    else
      (some word, main.2.seek word.endByte word.endPoint)

end TFLexer

/--
A keyword token the state has no action for, demoted to the word token it was
lexed as.  A reserved word, or a state without an action for the word token
either, keeps the token.
-/
def TFToken.demoteKeyword
    (lang : TFLanguage)
    (state : TSStateId)
    (token : TFToken)
    (wasKeyword : Bool) :
    Option TFToken :=
  let word := lang.ts.keywordCaptureToken
  if !wasKeyword || token.symbol == word then
    none
  else if lang.isReservedWord state token.symbol then
    none
  else if (lang.actions state word).isEmpty then
    none
  else
    some { token with symbol := word }

end TreeFeller
