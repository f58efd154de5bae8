import TreeFeller.Parser

/-!
# The driver

Splits, the replay of the selected alternative, the main loop, and the private
replay of the prefix that recovers the shapes of inherited cells.

The main loop is a step function run on fuel: a run has a result exactly when
enough fuel reaches the end of the loop.
-/

namespace TreeFeller

open StatefulProgram

/--
What a split asks first: whether a private replay has reached its fork.  Reads
the cells, the split count and the token; updates the collector.
-/
abbrev TFCaptureHook (σ V : Type) : Type :=
  List (TFCell V) → Nat → TFToken → σ → Heap → Bool × σ × Heap

/-- What a run is given, apart from its source. -/
structure TFRunEnv (σ V : Type) where
  lang : TFLanguage
  sink : TFSink σ V
  hook : TFCaptureHook σ V
  materialize : SpecM Unit
  fuel : Nat

namespace TFRunEnv

variable {σ V : Type}

/-- The part of the environment that speculation uses. -/
def spec (env : TFRunEnv σ V) : TFSpecEnv where
  lang := env.lang
  materialize := env.materialize
  fuel := env.fuel

end TFRunEnv

/-- An item of the replay's stack: a tree to visit, or a parent to reduce. -/
inductive TFReplayItem where
  | visit (tree : Nat)
  | reduce (tree : Nat)
  deriving Repr, DecidableEq

/-- Where a replay stands after an item. -/
inductive TFReplayStep (σ V : Type) where
  | next (parser : TFParser σ V) (items : List TFReplayItem)
  | failed (parser : TFParser σ V)
  | stuck

namespace TFParser

variable {σ V : Type}

/-- The parser as speculation sees it. -/
def owner (self : TFParser σ V) : TFSpecOwner where
  cells := self.cells.map TFCell.forget
  splitCount := self.splitCount

/-- Reserve replay room in the graph's scratch array. -/
def reserveScratch
    (self : TFParser σ V)
    (spec : TFSpec)
    (needed : Nat) :
    Option (TFSpec × TFParser σ V) :=
  match TFSpec.reserve .scratch needed ⟨spec, self.lexer, self.heap⟩ with
  | .ok (_, state) => some (state.spec, { self with heap := state.heap })
  | .error _ => none

/-- The state a replayed leaf is shifted into. -/
def leafState
    (self : TFParser σ V)
    (lang : TFLanguage)
    (tree : TFSpecTree) :
    TSStateId :=
  if tree.extra then
    self.state
  else
    lang.nextState self.state tree.token.symbol

/--
Replay one item.  Inherited cells are on the stack already; a leaf is shifted,
and a parent is reduced once its children have been visited.
-/
def replayItem
    (env : TFRunEnv σ V)
    (self : TFParser σ V)
    (spec : TFSpec)
    (rest : List TFReplayItem) :
    TFReplayItem → TFSpec × TFReplayStep σ V
  | .reduce index =>
      let tree := spec.tree index
      match self.reduce env.sink env.lang tree.token.symbol
          tree.structuralCount tree.productionId none with
      | none => (spec, .stuck)
      | some (true, parser) => (spec, .next parser rest)
      | some (false, parser) => (spec, .failed parser)
  | .visit index =>
      let tree := spec.tree index
      if tree.inherited then
        (spec, .next self rest)
      else if tree.leaf then
        match self.shift env.sink tree.token tree.extra
            (self.leafState env.lang tree) with
        | (true, parser) => (spec, .next parser rest)
        | (false, parser) => (spec, .failed parser)
      else if tree.children.isEmpty then
        (spec, .next self (.reduce index :: rest))
      else
        match self.reserveScratch spec (rest.length + tree.children.length) with
        | none => (spec, .failed self)
        | some (spec, parser) =>
            (spec, .next parser
              (tree.children.map .visit ++ .reduce index :: rest))

/-- Replay the items on the stack in postorder. -/
def replayItems
    (env : TFRunEnv σ V) :
    Nat → TFParser σ V → TFSpec → List TFReplayItem →
      Option (Bool × TFSpec × TFParser σ V)
  | 0, _, _, _ => none
  | _ + 1, self, spec, [] => some (true, spec, self)
  | fuel + 1, self, spec, item :: rest =>
      match self.replayItem env spec rest item with
      | (spec, .next parser items) => replayItems env fuel parser spec items
      | (spec, .failed parser) => some (false, spec, parser)
      | (_, .stuck) => none

/-- Replay a selected forest through the sink. -/
def replay
    (env : TFRunEnv σ V)
    (self : TFParser σ V)
    (spec : TFSpec)
    (forest : List Nat) :
    Option (Bool × TFSpec × TFParser σ V) :=
  match self.reserveScratch spec forest.length with
  | none => some (false, spec, self)
  | some (spec, parser) =>
      replayItems env env.fuel parser spec (forest.map .visit)

/-- Take over what speculation left of the lexer and the allocator. -/
def resume (self : TFParser σ V) (state : TFSpecState) : TFParser σ V :=
  { self with
    lexer := state.lexer
    heap := state.heap
    spec := some state.spec }

/-- The failure of a split that ran out of memory. -/
def outOfMemory (self : TFParser σ V) (token : TFToken) : TFParser σ V :=
  self.fail token.startByte token.startPoint .outOfMemory

/-- The failure of a split without an alternative left. -/
def failDead
    (lang : TFLanguage)
    (self : TFParser σ V)
    (spec : TFSpec) :
    TFParser σ V :=
  if spec.errorIsLex then
    self.fail spec.errorByte spec.errorPoint .unexpectedCharacter
  else
    { self with
      error := some (TFError.unexpected lang spec.errorState
        { TFToken.zero with
          symbol := spec.errorSymbol
          startByte := spec.errorByte
          startPoint := spec.errorPoint }) }

/-- The end token of an accepted root. -/
def acceptedEnd (self : TFParser σ V) (spec : TFSpec) (root : Nat) :
    TFToken where
  symbol := tsBuiltinSymEnd
  startByte := self.lexer.size
  endByte := self.lexer.size
  startPoint := (spec.tree root).token.endPoint
  endPoint := (spec.tree root).token.endPoint

/-- Replay the one stack that is left, then lex the token that follows it. -/
def commitPath
    (env : TFRunEnv σ V)
    (self : TFParser σ V)
    (spec : TFSpec)
    (forest : List Nat)
    (top : Nat)
    (token : TFToken) :
    Option (Bool × TFToken × TFParser σ V) :=
  match self.replay env spec forest with
  | none => none
  | some (false, spec, parser) =>
      some (false, token, { parser with spec := some spec }.outOfMemory token)
  | some (true, spec, parser) =>
      match TFSpec.lex env.spec top ⟨spec, parser.lexer, parser.heap⟩ with
      | .error .stuck => none
      | .error .outOfMemory =>
          some (false, token,
            { parser with spec := some spec }.outOfMemory token)
      | .ok (none, state) =>
          some (false, token,
            (parser.resume state).fail state.spec.errorByte
              state.spec.errorPoint .unexpectedCharacter)
      | .ok (some (next, keyword), state) =>
          let sought := state.lexer.seek next.endByte next.endPoint
          some (true, next,
            parser.resume
              { state with
                lexer :=
                  { sought with
                    tokenIsKeyword := keyword
                    tokenLexState := state.spec.cachedState } })

/-- Replay an accepted root's children, then reduce it on the end token. -/
def commitRoot
    (env : TFRunEnv σ V)
    (self : TFParser σ V)
    (spec : TFSpec)
    (root : Nat)
    (token : TFToken) :
    Option (Bool × TFToken × TFParser σ V) :=
  let next := self.acceptedEnd spec root
  match self.replay env spec (spec.tree root).children.dropLast with
  | none => none
  | some (false, spec, parser) =>
      some (false, next, { parser with spec := some spec }.outOfMemory token)
  | some (true, spec, parser) =>
      let tree := spec.tree root
      match parser.reduce env.sink env.lang tree.token.symbol
          tree.structuralCount tree.productionId (some next) with
      | none => none
      | some (false, parser) =>
          some (false, next,
            { parser with spec := some spec }.outOfMemory token)
      | some (true, parser) =>
          some (true, next,
            { parser with
              spec := some spec
              lexer := parser.lexer.seek next.endByte next.endPoint })

/-- The graph a split works on: the parser's own, or a new one. -/
def ownSpec (self : TFParser σ V) : Option TFSpec × TFParser σ V :=
  match self.spec with
  | some spec => (some spec, self)
  | none =>
      let allocated := self.heap.allocate
      let parser := { self with heap := allocated.2 }
      if allocated.1 then
        (some .zero, parser)
      else
        (none, parser)

/-- The state speculation starts from. -/
def splitState
    (self : TFParser σ V)
    (spec : TFSpec)
    (token : TFToken) :
    TFSpecState where
  spec :=
    spec.begin self.owner token self.lexer.tokenLexState
      self.lexer.tokenIsKeyword
  lexer := self.lexer
  heap := self.heap

/--
Work a conflict out speculatively and replay the alternative that is left:
whether that went well, the token to go on with, and the parser.
-/
def split
    (env : TFRunEnv σ V)
    (self : TFParser σ V)
    (token : TFToken) :
    Option (Bool × TFToken × TFParser σ V) :=
  let counted := { self with splitCount := self.splitCount + 1 }
  let hooked :=
    env.hook counted.cells counted.splitCount token counted.payload
      counted.heap
  let asked := { counted with payload := hooked.2.1, heap := hooked.2.2 }
  if hooked.1 then
    some (false, token, asked)
  else
    match asked.ownSpec with
    | (none, parser) => some (false, token, parser.outOfMemory token)
    | (some spec, parser) =>
        match TFSpec.explore env.spec (parser.splitState spec token) with
        | .error .stuck => none
        | .error .outOfMemory =>
            some (false, token, parser.outOfMemory token)
        | .ok (.dead, state) =>
            some (false, token,
              (parser.resume state).failDead env.lang state.spec)
        | .ok (.path forest top, state) =>
            (parser.resume state).commitPath env state.spec forest top token
        | .ok (.accepted root, state) =>
            (parser.resume state).commitRoot env state.spec root token

end TFParser

/-- Where a run stands: about to lex, about to act on a token, or at its end. -/
inductive TFStep (σ V : Type) where
  | lex (parser : TFParser σ V)
  | act (parser : TFParser σ V) (token : TFToken)
  | stop (ok : Bool) (root : Option V) (parser : TFParser σ V)
  | stuck

namespace TFStep

variable {σ V : Type}

/-- Lex the token that follows. -/
def lexStep (env : TFRunEnv σ V) (parser : TFParser σ V) : TFStep σ V :=
  let lexed := parser.lexer.next env.lang parser.state
  let parser := { parser with lexer := lexed.2 }
  match lexed.1 with
  | some token => .act parser token
  | none =>
      .stop false none
        (parser.fail parser.lexer.byte parser.lexer.point
          .unexpectedCharacter)

/-- Fail on a token the state has no use for. -/
def unexpected
    (env : TFRunEnv σ V)
    (parser : TFParser σ V)
    (token : TFToken) :
    TFStep σ V :=
  .stop false none
    { parser with
      error := some (TFError.unexpected env.lang parser.state token) }

/-- The value of the root, as the accept action stores it. -/
def acceptedRoot (parser : TFParser σ V) : Option V :=
  match parser.cells[parser.leading]? with
  | some cell => cell.node.value
  | none => none

/-- Take the one action of an entry. -/
def actionStep
    (env : TFRunEnv σ V)
    (parser : TFParser σ V)
    (token : TFToken) :
    TSParseAction → TFStep σ V
  | .shift target extra _ =>
      let shifted :=
        parser.shift env.sink token extra
          (if extra then parser.state else target)
      if shifted.1 then
        .lex shifted.2
      else
        .stop false none (shifted.2.outOfMemory token)
  | .reduce childCount symbol _ productionId =>
      match parser.reduce env.sink env.lang symbol childCount productionId
          (some token) with
      | none => .stuck
      | some (true, reduced) => .act reduced token
      | some (false, reduced) =>
          .stop false none (reduced.outOfMemory token)
  | .accept => .stop true (acceptedRoot parser) parser
  | .recover => unexpected env parser token

/-- Act on a token: act, demote a keyword, split, or fail. -/
def actStep
    (env : TFRunEnv σ V)
    (parser : TFParser σ V)
    (token : TFToken) :
    TFStep σ V :=
  match env.lang.actions parser.state token.symbol with
  | [] =>
      match token.demoteKeyword env.lang parser.state
          parser.lexer.tokenIsKeyword with
      | some demoted => .act parser demoted
      | none => unexpected env parser token
  | [action] => actionStep env parser token action
  | _ =>
      match parser.split env token with
      | none => .stuck
      | some (true, next, parser) => .act parser next
      | some (false, _, parser) => .stop false none parser

/-- One step of the main loop. -/
def step (env : TFRunEnv σ V) : TFStep σ V → TFStep σ V
  | .lex parser => lexStep env parser
  | .act parser token => actStep env parser token
  | .stop ok root parser => .stop ok root parser
  | .stuck => .stuck

/-- Any number of steps of the main loop. -/
def steps (env : TFRunEnv σ V) : Nat → TFStep σ V → TFStep σ V
  | 0, current => current
  | count + 1, current => steps env count (step env current)

end TFStep

/-- What a run comes to. -/
structure TFResult (σ V : Type) where
  ok : Bool
  root : Option V
  parser : TFParser σ V

namespace TFParser

variable {σ V : Type}

/-- A parser before its stack is allocated. -/
def initial
    (source : List UInt8)
    (payload : σ)
    (heap : Heap) :
    TFParser σ V where
  lexer := TFLexer.init source source.length
  cells := []
  capacity := 0
  leading := 0
  rootEmitted := false
  error := none
  splitCount := 0
  spec := none
  payload := payload
  heap := heap
  events := []

/-- Where a run starts: the size check and the first allocation. -/
def enter
    (source : List UInt8)
    (payload : σ)
    (heap : Heap) :
    TFStep σ V :=
  let parser : TFParser σ V := initial source payload heap
  if 2 ^ 32 ≤ source.length then
    .stop false none (parser.fail 0 .origin .tooLarge)
  else
    let grown := parser.grow 64 false
    if grown.1 then
      .lex grown.2
    else
      .stop false none (grown.2.outOfMemory .zero)

/-- The end of a run: a failed one gives back every value on the stack. -/
def finish
    (env : TFRunEnv σ V) :
    TFStep σ V → Option (TFResult σ V)
  | .stop true root parser => some ⟨true, root, parser⟩
  | .stop false _ parser => some ⟨false, none, parser.discardAll env.sink⟩
  | _ => none

/-- Run the driver over a buffer. -/
def run
    (env : TFRunEnv σ V)
    (source : List UInt8)
    (payload : σ)
    (heap : Heap) :
    Option (TFResult σ V) :=
  finish env (TFStep.steps env env.fuel (enter source payload heap))

end TFParser

/-! ## The private replay of the prefix -/

namespace TFSpec

/-- The index that stands for no tree. -/
def noTree : Nat := 2 ^ 32 - 1

/-- Collect a tree, unless the collector has failed. -/
def collect
    (program : SpecM Nat)
    (self : TFSpec)
    (heap : Heap) :
    Option Nat × TFSpec × Heap :=
  if self.failed then
    (none, self, heap)
  else
    match program ⟨self, default, heap⟩ with
    | .ok (id, state) => (some id, state.spec, state.heap)
    | .error _ => (none, { self with failed := true }, heap.allocate.2)

/-- Collect a shifted token. -/
def captureShift (token : TFToken) (extra : Bool) : SpecM Nat :=
  newTree {
    token := token
    paddingStart := 0
    children := []
    productionId := 0
    structuralCount := 0
    leaf := true
    extra := extra
    inherited := false
    isOpaque := false
    precedence := 0
  }

/-- Collect a reduction over the trees of its children. -/
def captureReduce (reduction : TFReduction Nat) : SpecM Nat := do
  let children :=
    reduction.children.map (fun child => child.value.getD noTree)
  reserve .children ((← asks TFSpec.childCount) + children.length)
  update (fun s => { s with childCount := s.childCount + children.length })
  newTree {
    token := {
      symbol := reduction.symbol
      startByte := reduction.startByte
      endByte := reduction.endByte
      startPoint := reduction.startPoint
      endPoint := reduction.endPoint
    }
    paddingStart := 0
    children := children
    productionId := 0
    structuralCount := 0
    leaf := false
    extra := false
    inherited := false
    isOpaque := false
    precedence := 0
  }

/-- The collector's sink; a value is the index of a tree. -/
def captureSink : TFSink TFSpec Nat where
  onShift := some (fun token extra => collect (captureShift token extra))
  onReduce := some (fun reduction => collect (captureReduce reduction))
  onDiscard := none

/-- Whether a private replay stands at the owner's fork. -/
def atFork
    (self : TFSpec)
    (cells : List (TFCell Nat))
    (splitCount : Nat)
    (token : TFToken) :
    Bool :=
  splitCount == self.owner.splitCount &&
    token.startByte == self.forkByte &&
    cells.map TFCell.state == self.owner.cells.map TFCell.state

/-- Record the trees of the cells below the fork. -/
def captureCells (self : TFSpec) (cells : List (TFCell Nat)) : TFSpec :=
  let recorded := { self with
    captureId := cells.map (fun cell => cell.node.value.getD noTree)
    captured := true }
  (List.range recorded.prefixTree.length).foldl resolve recorded

/--
Stop a private replay at the owner's fork, with the shapes of the cells below
it; a collector that failed has nothing left to find.
-/
def captureHook : TFCaptureHook TFSpec Nat :=
  fun cells splitCount token self heap =>
    if self.failed then
      (true, self, heap)
    else if self.atFork cells splitCount token then
      match reserve .captureId cells.length ⟨self, default, heap⟩ with
      | .ok (_, state) => (true, state.spec.captureCells cells, state.heap)
      | .error _ => (true, { self with failed := true }, heap.allocate.2)
    else
      (false, self, heap)

/--
Recover the shapes of the inherited cells, once a split, by running the driver
privately over the same source up to the fork.
-/
def materializeWith
    (replay : List UInt8 → TFSpec → Heap → Option (TFResult TFSpec Nat)) :
    SpecM Unit := do
  if ← asks TFSpec.materialized then
    pure ()
  else
    update (fun s => { s with materialized := true })
    let state ← Program.get
    match replay state.lexer.source state.spec state.heap with
    | none => Program.stop .stuck
    | some result =>
        Program.modify (fun state =>
          { state with
            spec := result.parser.payload
            heap := result.parser.heap })
        if !result.parser.payload.captured then
          outOfMemory

/-- `tf_spec__materialize`: each nested replay has one level of fuel less. -/
def materialize (lang : TFLanguage) : Nat → SpecM Unit
  | 0 => Program.stop .stuck
  | fuel + 1 =>
      materializeWith
        (TFParser.run {
          lang := lang
          sink := captureSink
          hook := captureHook
          materialize := materialize lang fuel
          fuel := fuel
        })

end TFSpec

/-- A run of the driver for a consumer, which captures nothing. -/
def TFRunEnv.consumer {σ V : Type}
    (lang : TFLanguage)
    (sink : TFSink σ V)
    (fuel : Nat) :
    TFRunEnv σ V where
  lang := lang
  sink := sink
  hook := fun _ _ _ payload heap => (false, payload, heap)
  materialize := TFSpec.materialize lang fuel
  fuel := fuel

/-- Parse a buffer into a consumer's sink. -/
def tfParse {σ V : Type}
    (lang : TFLanguage)
    (sink : TFSink σ V)
    (fuel : Nat)
    (source : List UInt8)
    (payload : σ)
    (heap : Heap) :
    Option (TFResult σ V) :=
  TFParser.run (.consumer lang sink fuel) source payload heap

end TreeFeller
