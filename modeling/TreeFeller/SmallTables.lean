import TreeFeller.Language

namespace TreeFeller

/-!
# Small grammars

Tables written out as lists: the entries of the action table, the cells of the
parse table that are not empty, and the letters that are tokens.  They serve
to run the driver on concrete grammars.
-/

/-- A lexer of single letters, and of the end of the input. -/
def lexLetters : List (Int × TSSymbol) → LexProgram
  | [] =>
      .eof (fun atEnd =>
        if atEnd then
          .resultSymbol tsBuiltinSymEnd (.markEnd (.finish true))
        else
          .finish false)
  | (letter, symbol) :: rest =>
      .lookahead (fun next =>
        if next = letter then
          .advance false (.resultSymbol symbol (.markEnd (.finish true)))
        else
          lexLetters rest)

/-- The slots of one entry: its header and its actions. -/
def entrySlots (actions : List TSParseAction) : List TSParseActionEntry :=
  ⟨.recover, actions.length, true⟩ ::
    actions.map (fun action => ⟨action, 0, false⟩)

/-- The slots before an entry, which is where the entry starts. -/
def entryIndex (entries : List (List TSParseAction)) (entry : Nat) : Nat :=
  ((entries.take entry).flatMap entrySlots).length

/-- A cell of a parse table: a state, a symbol and what stands there. -/
abbrev TableCell : Type :=
  Nat × Nat × Nat

/-- The value of the cell at a state and a symbol. -/
def cellAt (cells : List TableCell) (state symbol : Nat) : Nat :=
  ((cells.find? (fun cell => cell.1 == state && cell.2.1 == symbol)).map
    (fun cell => cell.2.2)).getD 0

/--
A grammar without fields, aliases, keywords or hidden symbols.  A terminal's
cell holds the number of its entry, a nonterminal's the state to go to.
-/
def smallTables
    (symbolCount tokenCount stateCount : Nat)
    (letters : List (Int × TSSymbol))
    (entries : List (List TSParseAction))
    (terminals gotos : List TableCell) :
    TSLanguage where
  abiVersion := tfAbiVersion
  symbolCount := symbolCount
  aliasCount := 0
  tokenCount := tokenCount
  externalTokenCount := 0
  stateCount := stateCount
  largeStateCount := stateCount
  productionIdCount := 1
  fieldCount := 0
  maxAliasSequenceLength := 0
  parseTable := fun index =>
    let state := index / symbolCount
    let symbol := index % symbolCount
    if symbol < tokenCount then
      entryIndex entries (cellAt terminals state symbol)
    else
      cellAt gotos state symbol
  smallParseTable := fun _ => 0
  smallParseTableMap := fun _ => 0
  parseActions := fun index =>
    (entries.flatMap entrySlots).getD index ⟨.recover, 0, false⟩
  symbolNames := fun _ => ""
  fieldMapSlices := fun _ => ⟨0, 0⟩
  fieldMapEntries := fun _ => ⟨0, 0, false⟩
  symbolMetadata := fun _ => ⟨true, true, false⟩
  publicSymbolMap := fun symbol => symbol
  aliasMap := fun _ => 0
  aliasSequences := fun _ => 0
  lexModes := fun _ => ⟨0, 0, 0⟩
  lexFn := fun _ => lexLetters letters
  keywordLexFn := fun _ => .finish false
  keywordCaptureToken := 0
  reservedWords := fun _ => 0
  maxReservedWordSetSize := 0

/-- A grammar as it loads; tables that do not load expand to nothing. -/
def TSLanguage.loaded (self : TSLanguage) : TFLanguage :=
  match TFLanguage.load (some self) with
  | .ok language => language
  | .error _ => ⟨self, [], [], [], 0, [], []⟩

/-- Tables that load are loaded. -/
theorem TSLanguage.loaded_of_isOk
    {self : TSLanguage}
    (loads :
      (TFLanguage.load (some self)).toOption.isSome = true) :
    self.loaded.Loaded := by
  unfold TSLanguage.loaded
  split
  · rename_i language result
    exact TFLanguage.loaded_of_load result
  · rename_i message result
    rw [result] at loads
    cases loads

/-- Tables are their own, whether they load or not. -/
theorem TSLanguage.loaded_ts
    (self : TSLanguage) :
    self.loaded.ts = self := by
  unfold TSLanguage.loaded
  split
  · rename_i language result
    exact TFLanguage.load_ts result
  · rfl

/--
A root over a hidden rule over the letter `a`, an anonymous token.  The root's
production gives the hidden rule a field.
-/
def fieldedGrammar : TFLanguage :=
  TSLanguage.loaded {
    smallTables 4 2 5 [(97, 1)]
      [[], [.shift 2 false false], [.reduce 1 2 0 0], [.reduce 1 3 0 1],
        [.accept]]
      [(1, 1, 1), (2, 0, 2), (3, 0, 3), (4, 0, 4)]
      [(1, 2, 3), (1, 3, 4)] with
    productionIdCount := 2
    fieldCount := 1
    maxAliasSequenceLength := 1
    fieldMapSlices := fun production =>
      if production = 1 then ⟨0, 1⟩ else ⟨0, 0⟩
    fieldMapEntries := fun _ => ⟨1, 0, false⟩
    symbolMetadata := fun symbol => ⟨symbol != 2, symbol == 3, false⟩
  }

/-- The tables of the grammar load. -/
theorem fieldedGrammar_loaded : fieldedGrammar.Loaded :=
  TSLanguage.loaded_of_isOk (by decide +kernel)

/--
A root over two hidden repetitions, the first of the letter `a` and the second
of the letter `b`.
-/
def repeatsGrammar : TFLanguage :=
  TSLanguage.loaded {
    smallTables 6 3 9 [(97, 1), (98, 2)]
      [[], [.shift 2 false false], [.reduce 1 4 0 0], [.shift 5 false false],
        [.shift 6 false false], [.reduce 2 4 0 0], [.reduce 1 5 0 0],
        [.shift 8 false false], [.reduce 2 3 0 0], [.reduce 2 5 0 0],
        [.accept]]
      [(1, 1, 1), (2, 1, 2), (2, 2, 2), (3, 0, 10), (4, 1, 3), (4, 2, 4),
        (5, 1, 5), (5, 2, 5), (6, 0, 6), (6, 2, 6), (7, 0, 8), (7, 2, 7),
        (8, 0, 9), (8, 2, 9)]
      [(1, 3, 3), (1, 4, 4), (4, 5, 7)] with
    symbolMetadata := fun symbol => ⟨0 < symbol && symbol < 4, true, false⟩
  }

/-- The tables of the repetitions load. -/
theorem repeatsGrammar_loaded : repeatsGrammar.Loaded :=
  TSLanguage.loaded_of_isOk (by decide +kernel)

end TreeFeller
