import Mathlib.Algebra.Ring.Int.Defs
import Mathlib.Algebra.Ring.Nat
import Mathlib.Data.List.Basic

/-!
# Grammar tables

The generated tables (`TSLanguage`), their expansion by `tf_language_load`
(`TFLanguage`) and the accessors the parse driver reads them through.

A generated table is a pointer to a constant array whose extent the grammar
does not carry, so it is a function from indices here.  An array that loading
allocates is a list.  State ids, symbols, field ids and counts are natural
numbers.  Leaves out the tables no modelled function reads (`field_names`,
supertypes, primary states, the external scanner's callbacks).
-/

namespace TreeFeller

/-- A parse state. -/
abbrev TSStateId := Nat

/-- A grammar symbol: terminals come before nonterminals. -/
abbrev TSSymbol := Nat

/-- A field name's id; 0 is no field. -/
abbrev TSFieldId := Nat

/-- The end token. -/
def tsBuiltinSymEnd : TSSymbol := 0

/-- The error symbol, `(TSSymbol)-1`. -/
def tsBuiltinSymError : TSSymbol := 65535

/-- The hidden repetition of errors, one below the error symbol. -/
def tfBuiltinSymErrorRepeat : TSSymbol := tsBuiltinSymError - 1

/-- The only grammar ABI that loads. -/
def tfAbiVersion : Nat := 15

/-- One entry of a production's field map. -/
structure TSFieldMapEntry where
  fieldId : TSFieldId
  childIndex : Nat
  inherited : Bool
  deriving Repr, DecidableEq, Inhabited

/-- A run of a flat table. -/
structure TSMapSlice where
  index : Nat
  length : Nat
  deriving Repr, DecidableEq, Inhabited

/-- What a symbol contributes to the visible tree. -/
structure TSSymbolMetadata where
  visible : Bool
  named : Bool
  supertype : Bool
  deriving Repr, DecidableEq, Inhabited

/-- How a state lexes. -/
structure TSLexerMode where
  lexState : Nat
  externalLexState : Nat
  reservedWordSetId : Nat
  deriving Repr, DecidableEq, Inhabited

/-- A parse action. -/
inductive TSParseAction where
  | shift (state : TSStateId) (extra repetition : Bool)
  | reduce
      (childCount : Nat)
      (symbol : TSSymbol)
      (dynamicPrecedence : Int)
      (productionId : Nat)
  | accept
  | recover
  deriving Repr, DecidableEq, Inhabited

/-- One slot of the action table, a union of an action and an entry's header. -/
structure TSParseActionEntry where
  action : TSParseAction
  count : Nat
  reusable : Bool
  deriving Repr, DecidableEq, Inhabited

/--
A generated lexing function, as the finite interaction it has with the lexer
callbacks: it reads the lookahead, asks for the column or for the end of the
input, advances, marks the token's end, names the token and returns.
-/
inductive LexProgram where
  | finish (found : Bool)
  | lookahead (next : Int → LexProgram)
  | advance (skip : Bool) (next : LexProgram)
  | markEnd (next : LexProgram)
  | resultSymbol (symbol : TSSymbol) (next : LexProgram)
  | eof (next : Bool → LexProgram)
  | getColumn (next : Nat → LexProgram)
  | isAtIncludedRangeStart (next : Bool → LexProgram)

/-- The generated tables of a grammar. -/
structure TSLanguage where
  abiVersion : Nat
  symbolCount : Nat
  aliasCount : Nat
  tokenCount : Nat
  externalTokenCount : Nat
  stateCount : Nat
  largeStateCount : Nat
  productionIdCount : Nat
  fieldCount : Nat
  maxAliasSequenceLength : Nat
  parseTable : Nat → Nat
  smallParseTable : Nat → Nat
  smallParseTableMap : Nat → Nat
  parseActions : Nat → TSParseActionEntry
  symbolNames : Nat → String
  fieldMapSlices : Nat → TSMapSlice
  fieldMapEntries : Nat → TSFieldMapEntry
  symbolMetadata : Nat → TSSymbolMetadata
  publicSymbolMap : Nat → TSSymbol
  aliasMap : Nat → Nat
  aliasSequences : Nat → TSSymbol
  lexModes : Nat → TSLexerMode
  lexFn : Nat → LexProgram
  keywordLexFn : Nat → LexProgram
  keywordCaptureToken : TSSymbol
  reservedWords : Nat → TSSymbol
  maxReservedWordSetSize : Nat

/-- A loaded language: the tables and their expansions. -/
structure TFLanguage where
  ts : TSLanguage
  /-- One row of `symbolCount` action indices or goto states per state. -/
  dense : List Nat
  /-- Action counts without `SHIFT_REPEAT`, by action index. -/
  actionCounts : List Nat
  /-- `fieldAtWidth` columns per production: the field a child fills directly. -/
  fieldAt : List TSFieldId
  fieldAtWidth : Nat
  /-- By symbol: whether any production aliases it. -/
  aliasable : List Bool
  /-- By state: whether the end of the file is accepted there. -/
  acceptsEnd : List Bool

namespace TFLanguage

/-- The table's cell for a state and a symbol. -/
def lookup (self : TFLanguage) (state : TSStateId) (symbol : TSSymbol) : Nat :=
  self.dense.getD (state * self.ts.symbolCount + symbol) 0

/-- The `count` actions that follow an entry's header. -/
def actionsAt (ts : TSLanguage) (index count : Nat) : List TSParseAction :=
  (List.range count).map
    (fun offset => (ts.parseActions (index + 1 + offset)).action)

/-- The actions of a state on a terminal, `SHIFT_REPEAT` left out. -/
def actions
    (self : TFLanguage)
    (state : TSStateId)
    (symbol : TSSymbol) :
    List TSParseAction :=
  let index := self.lookup state symbol
  actionsAt self.ts index (self.actionCounts.getD index 0)

/--
The state a symbol leads to.  A terminal's is read from the last action of its
entry, `SHIFT_REPEAT` included.
-/
def nextState
    (self : TFLanguage)
    (state : TSStateId)
    (symbol : TSSymbol) :
    TSStateId :=
  if symbol = tsBuiltinSymError ∨ symbol = tfBuiltinSymErrorRepeat then
    0
  else if symbol < self.ts.tokenCount then
    let index := self.lookup state symbol
    let count := (self.ts.parseActions index).count
    if 0 < count then
      match (self.ts.parseActions (index + 1 + (count - 1))).action with
      | .shift target extra _ => if extra then state else target
      | _ => 0
    else
      0
  else
    self.lookup state symbol

/-- The alias row of a production; production 0 has none. -/
def aliasSequence
    (self : TFLanguage)
    (productionId : Nat) :
    Option (Nat → TSSymbol) :=
  if productionId = 0 then
    none
  else
    some (fun childIndex =>
      self.ts.aliasSequences
        (productionId * self.ts.maxAliasSequenceLength + childIndex))

/-- The field map entries of a production, in order. -/
def fieldMap (ts : TSLanguage) (productionId : Nat) : List TSFieldMapEntry :=
  if ts.fieldCount = 0 then
    []
  else
    let slice := ts.fieldMapSlices productionId
    (List.range slice.length).map
      (fun offset => ts.fieldMapEntries (slice.index + offset))

/-- What a symbol contributes to the visible tree. -/
def symbolMetadata (self : TFLanguage) (symbol : TSSymbol) :
    TSSymbolMetadata :=
  if symbol = tsBuiltinSymError then
    { visible := true, named := true, supertype := false }
  else if symbol = tfBuiltinSymErrorRepeat then
    { visible := false, named := false, supertype := false }
  else
    self.ts.symbolMetadata symbol

/-- The symbol reported for a symbol. -/
def publicSymbol (self : TFLanguage) (symbol : TSSymbol) : TSSymbol :=
  if symbol = tsBuiltinSymError then
    symbol
  else
    self.ts.publicSymbolMap symbol

/-- How a state lexes. -/
def lexMode (self : TFLanguage) (state : TSStateId) : TSLexerMode :=
  self.ts.lexModes state

/-- Scan one reserved word set, which ends early at a 0. -/
def reservedFrom
    (words : Nat → TSSymbol)
    (symbol : TSSymbol) :
    Nat → Nat → Bool
  | _, 0 => false
  | index, remaining + 1 =>
      if words index = symbol then
        true
      else if words index = 0 then
        false
      else
        reservedFrom words symbol (index + 1) remaining

/-- Whether a state reserves a symbol. -/
def isReservedWord
    (self : TFLanguage)
    (state : TSStateId)
    (symbol : TSSymbol) :
    Bool :=
  let setId := (self.ts.lexModes state).reservedWordSetId
  if setId = 0 then
    false
  else
    reservedFrom self.ts.reservedWords symbol
      (setId * self.ts.maxReservedWordSetSize)
      self.ts.maxReservedWordSetSize

/-- The field a production gives the child at a structural index directly. -/
def fieldRowAt
    (self : TFLanguage)
    (productionId structural : Nat) :
    TSFieldId :=
  if structural < self.fieldAtWidth then
    self.fieldAt.getD
      (productionId * self.fieldAtWidth + structural) 0
  else
    0

/-- A hidden rule no production can alias into visibility. -/
def foldable (self : TFLanguage) (symbol : TSSymbol) : Bool :=
  !self.aliasable.getD symbol false &&
    !(self.symbolMetadata symbol).visible

/-- A symbol's diagnostic name. -/
def symbolName (self : TFLanguage) (symbol : TSSymbol) : Option String :=
  if symbol = tsBuiltinSymEnd then
    some "end of file"
  else if self.ts.symbolCount + self.ts.aliasCount ≤ symbol then
    none
  else
    some (self.ts.symbolNames symbol)

/-! ## Loading -/

/-- Whether an action exists for incremental reuse only. -/
def isRepeatShift : TSParseAction → Bool
  | .shift _ _ repetition => repetition
  | _ => false

/-- Write a section's value at each of its symbols. -/
def expandSection
    (table : Nat → Nat)
    (value : Nat) :
    Nat → Nat → List Nat → List Nat
  | 0, _, row => row
  | remaining + 1, position, row =>
      expandSection table value remaining (position + 1)
        (row.set (table position) value)

/-- Expand the `(value, symbols...)` groups of a small state. -/
def expandGroups
    (table : Nat → Nat) :
    Nat → Nat → List Nat → List Nat
  | 0, _, row => row
  | remaining + 1, position, row =>
      let value := table position
      let symbolCount := table (position + 1)
      expandGroups table remaining (position + 2 + symbolCount)
        (expandSection table value symbolCount (position + 2) row)

/-- The expanded row of one state. -/
def expandRow (ts : TSLanguage) (state : TSStateId) : List Nat :=
  if state < ts.largeStateCount then
    (List.range ts.symbolCount).map
      (fun symbol => ts.parseTable (state * ts.symbolCount + symbol))
  else
    let position := ts.smallParseTableMap (state - ts.largeStateCount)
    expandGroups ts.smallParseTable (ts.smallParseTable position)
      (position + 1) (List.replicate ts.symbolCount 0)

/-- Expand the parse table to one row per state. -/
def expandDense (ts : TSLanguage) : List Nat :=
  (List.range ts.stateCount).flatMap (expandRow ts)

/-- The columns the flattened field map needs. -/
def expandFieldWidth (ts : TSLanguage) : Nat :=
  (List.range ts.productionIdCount).foldl
    (fun width production =>
      (fieldMap ts production).foldl
        (fun width entry =>
          if !entry.inherited && width < entry.childIndex + 1 then
            entry.childIndex + 1
          else
            width)
        width)
    ts.maxAliasSequenceLength

/-- One production's row of the flattened field map: the first match wins. -/
def expandFieldRow
    (width : Nat)
    (entries : List TSFieldMapEntry) :
    List TSFieldId :=
  entries.foldl
    (fun row entry =>
      if !entry.inherited && row.getD entry.childIndex 0 == 0 then
        row.set entry.childIndex entry.fieldId
      else
        row)
    (List.replicate width 0)

/-- Flatten the field maps. -/
def expandFieldAt (ts : TSLanguage) (width : Nat) : List TSFieldId :=
  (List.range ts.productionIdCount).flatMap
    (fun production => expandFieldRow width (fieldMap ts production))

/--
The symbols of the alias map, a run of `{symbol, count, aliases...}` that a 0
ends.  Each symbol has one group, so the id range bounds their number.
-/
def aliasedSymbols (aliasMap : Nat → Nat) : Nat → Nat → List TSSymbol
  | 0, _ => []
  | fuel + 1, index =>
      let symbol := aliasMap index
      if symbol = 0 then
        []
      else
        symbol ::
          aliasedSymbols aliasMap fuel (index + 2 + aliasMap (index + 1))

/-- Flag the symbols of the alias map. -/
def expandAliasable (ts : TSLanguage) : List Bool :=
  let aliased := aliasedSymbols ts.aliasMap 65536 0
  (List.range ts.symbolCount).map (fun symbol => aliased.contains symbol)

/-- Every state paired with every terminal, in scanning order. -/
def stateTerminals (ts : TSLanguage) : List (TSStateId × TSSymbol) :=
  (List.range ts.stateCount).flatMap
    (fun state => (List.range ts.tokenCount).map (fun symbol => (state, symbol)))

/-- The extent of the action table that states and terminals refer to. -/
def actionTableExtent
    (ts : TSLanguage)
    (lookup : TSStateId → TSSymbol → Nat) :
    Nat :=
  (stateTerminals ts).foldl
    (fun extent cell =>
      let index := lookup cell.1 cell.2
      if index = 0 then
        extent
      else
        max extent (index + 1 + (ts.parseActions index).count))
    1

/-- The leading actions of an entry that are not `SHIFT_REPEAT`. -/
def keptCount (actions : List TSParseAction) : Nat :=
  (actions.takeWhile (fun action => !isRepeatShift action)).length

/-- Record the filtered count of one cell's entry. -/
def fillCount
    (ts : TSLanguage)
    (extent index : Nat)
    (counts : List Nat) :
    Except String (List Nat) :=
  if index = 0 then
    .ok counts
  else if extent ≤ index then
    .error "parse table refers to an action index that does not exist"
  else if counts.getD index 0 ≠ 0 then
    .ok counts
  else
    let actions := actionsAt ts index (ts.parseActions index).count
    let kept := keptCount actions
    if (actions.drop kept).all isRepeatShift then
      .ok (counts.set index kept)
    else
      .error "SHIFT_REPEAT actions are not trailing in an action entry"

/-- Record the filtered counts of a list of cells. -/
def fillCounts
    (ts : TSLanguage)
    (lookup : TSStateId → TSSymbol → Nat)
    (extent : Nat) :
    List (TSStateId × TSSymbol) → List Nat → Except String (List Nat)
  | [], counts => .ok counts
  | cell :: rest, counts =>
      match fillCount ts extent (lookup cell.1 cell.2) counts with
      | .error message => .error message
      | .ok filled => fillCounts ts lookup extent rest filled

/-- Whether a state's end entry is exactly one accept. -/
def acceptsEndAt (self : TFLanguage) (state : TSStateId) : Bool :=
  self.actions state tsBuiltinSymEnd == [.accept]

/--
Check that the driver can run a grammar and expand its tables.  The allocations
are assumed to succeed.
-/
def load (language : Option TSLanguage) : Except String TFLanguage :=
  match language with
  | none => .error "language is NULL"
  | some ts =>
      if ts.abiVersion ≠ tfAbiVersion then
        .error "language ABI version is not 15"
      else if
          ts.symbolCount = 0 ∨ ts.stateCount = 0 ∨ ts.tokenCount = 0 ∨
            ts.productionIdCount = 0 then
        .error "language has an empty symbol, state or production table"
      else if ts.externalTokenCount ≠ 0 then
        .error "grammars with an external scanner are not supported"
      else if
          (List.range ts.stateCount).any
            (fun state => (ts.lexModes state).lexState == 65535) then
        .error "grammars with non-terminal extras are not supported"
      else if 64 * 1024 * 1024 < ts.stateCount * ts.symbolCount then
        .error "parse table is too large to expand"
      else
        let width := expandFieldWidth ts
        let expanded : TFLanguage := {
          ts := ts
          dense := expandDense ts
          actionCounts := []
          fieldAt := expandFieldAt ts width
          fieldAtWidth := width
          aliasable := expandAliasable ts
          acceptsEnd := []
        }
        let extent := actionTableExtent ts expanded.lookup
        match
          fillCounts ts expanded.lookup extent
            (stateTerminals ts) (List.replicate extent 0) with
        | .error message => .error message
        | .ok counts =>
            let counted := { expanded with actionCounts := counts }
            .ok {
              counted with
              acceptsEnd :=
                (List.range ts.stateCount).map counted.acceptsEndAt
            }

/-- A language that loading built from its own tables. -/
def Loaded (self : TFLanguage) : Prop :=
  load (some self.ts) = .ok self

/-- Loading leaves the tables it was given in place. -/
theorem load_ts
    {ts : TSLanguage}
    {self : TFLanguage}
    (loaded : load (some ts) = .ok self) :
    self.ts = ts := by
  simp only [load] at loaded
  split_ifs at loaded
  split at loaded
  · cases loaded
  · cases loaded
    rfl

/-- Whatever loads is loaded. -/
theorem loaded_of_load
    {ts : TSLanguage}
    {self : TFLanguage}
    (loaded : load (some ts) = .ok self) :
    self.Loaded := by
  have tables := load_ts loaded
  subst tables
  exact loaded

/-- The accept flag of a loaded language is read from its end entries. -/
theorem Loaded.actions_of_acceptsEnd
    {self : TFLanguage}
    (loaded : self.Loaded)
    {state : TSStateId}
    (accepts : self.acceptsEnd.getD state false = true) :
    self.actions state tsBuiltinSymEnd = [.accept] := by
  simp only [Loaded, load] at loaded
  split_ifs at loaded
  split at loaded
  · cases loaded
  · rename_i counts filled
    rw [← Except.ok.inj loaded] at accepts ⊢
    by_cases inRange : state < self.ts.stateCount
    · simpa [List.getD_eq_getElem?_getD, inRange, acceptsEndAt, actions,
        lookup] using accepts
    · simp [List.getD_eq_getElem?_getD, inRange] at accepts

end TFLanguage

end TreeFeller
