import TreeFeller.Speculation

/-!
# The parse stack

The driver's state and the two operations that change its stack: shifting a
token and reducing a production.  Both call the sink as they go.  Cells are
listed from the bottom of the stack; the source's `states[i]` is `stateAt` of
the cells below index `i`.

A reduction that reads below the bottom of the stack is undefined in the
source, and has no result here.
-/

namespace TreeFeller

/-- The driver's state, with the consumer's payload and the allocator. -/
structure TFParser (σ V : Type) where
  lexer : TFLexer
  cells : List (TFCell V)
  capacity : Nat
  /-- Extras at the bottom of the stack, which only the root takes. -/
  leading : Nat
  /-- Whether the root went to the sink with the end token. -/
  rootEmitted : Bool
  error : Option TFError
  splitCount : Nat
  spec : Option TFSpec
  payload : σ
  heap : Heap
  /-- Everything the run has done that is visible from outside. -/
  events : List (Event V)

namespace TFParser

variable {σ V : Type}

/-- The number of cells on the stack. -/
def depth (self : TFParser σ V) : Nat :=
  self.cells.length

/-- The current state. -/
def state (self : TFParser σ V) : TSStateId :=
  topState self.cells

/-- Record an event. -/
def record (self : TFParser σ V) (event : Event V) : TFParser σ V :=
  { self with events := self.events ++ [event] }

/-- Fill in the error of a failed parse. -/
def fail
    (self : TFParser σ V)
    (byte : Nat)
    (point : TFPoint)
    (message : TFMessage) :
    TFParser σ V :=
  { self with error := some ⟨byte, point, message⟩ }

/--
Make room for `needed` cells.  The states and the nodes are two allocations,
both of which are always asked for.  `answered` says whether a callback has
been made for the cell that needs the room; it is recorded only.
-/
def grow
    (self : TFParser σ V)
    (needed : Nat)
    (answered : Bool) :
    Bool × TFParser σ V :=
  if needed ≤ self.capacity then
    (true, self)
  else
    let states := self.heap.allocate
    let nodes := states.2.allocate
    let asked := { self with heap := nodes.2 }
    if states.1 && nodes.1 then
      (true, { asked with capacity := grownCapacity self.capacity needed })
    else
      (false, asked.record (.growthFailed answered))

/-- Push a node and the state after it. -/
def push
    (self : TFParser σ V)
    (node : TFNode V)
    (state : TSStateId) :
    Bool × TFParser σ V :=
  let grown := self.grow (self.depth + 1) true
  if grown.1 then
    (true, { grown.2 with cells := grown.2.cells ++ [⟨node, state⟩] })
  else
    grown

/-- Hand a token to the sink. -/
def emitShift
    (sink : TFSink σ V)
    (self : TFParser σ V)
    (token : TFToken)
    (extra : Bool) :
    Option V × TFParser σ V :=
  match sink.onShift with
  | none => (none, self)
  | some onShift =>
      let answer := onShift token extra self.payload self.heap
      (answer.1,
        { self with
          payload := answer.2.1
          heap := answer.2.2
          events := self.events ++ [.shift token extra answer.1] })

/-- Hand a reduction to the sink. -/
def emitReduce
    (sink : TFSink σ V)
    (self : TFParser σ V)
    (reduction : TFReduction V) :
    Option V × TFParser σ V :=
  match sink.onReduce with
  | none => (none, self)
  | some onReduce =>
      let answer := onReduce reduction self.payload self.heap
      (answer.1,
        { self with
          payload := answer.2.1
          heap := answer.2.2
          events := self.events ++ [.reduce reduction answer.1] })

/-- Shift a token: hand it to the sink, then push its cell. -/
def shift
    (sink : TFSink σ V)
    (self : TFParser σ V)
    (token : TFToken)
    (extra : Bool)
    (state : TSStateId) :
    Bool × TFParser σ V :=
  let emitted := emitShift sink self token extra
  let counted :=
    if extra && emitted.2.depth == emitted.2.leading then
      { emitted.2 with leading := emitted.2.leading + 1 }
    else
      emitted.2
  counted.push (token.node extra emitted.1) state

/--
Walk down from the top of the stack over `childCount` cells that are not
extras: how many cells that pops, and how many extras lie above the first one.
Nothing, when the walk would leave the stack.
-/
def scanPop (childCount : Nat) :
    List (TFCell V) → Nat → Nat → Nat → Option (Nat × Nat)
  | [], structural, popped, trailing =>
      if structural < childCount then none else some (popped, trailing)
  | cell :: below, structural, popped, trailing =>
      if structural < childCount then
        if !cell.node.extra then
          scanPop childCount below (structural + 1) (popped + 1) trailing
        else if structural = 0 then
          scanPop childCount below structural (popped + 1) (trailing + 1)
        else
          scanPop childCount below structural (popped + 1) trailing
      else
        some (popped, trailing)

/-- The three parts a reduction cuts the stack into. -/
structure Popped (V : Type) where
  below : List (TFCell V)
  children : List (TFCell V)
  trailing : List (TFCell V)

/-- Cut the stack at the base of a reduction and below its trailing extras. -/
def popped (cells : List (TFCell V)) (childCount : Nat) :
    Option (Popped V) :=
  (scanPop childCount cells.reverse 0 0 0).map (fun counts =>
    let base := cells.length - counts.1
    let stop := cells.length - counts.2
    {
      below := cells.take base
      children := (cells.take stop).drop base
      trailing := cells.drop stop
    })

/--
A reduction over the children popped for it.  An empty production sits at the
current position, above any extras.
-/
def reductionOf
    (cells : List (TFCell V))
    (children : List (TFCell V))
    (symbol : TSSymbol)
    (childCount productionId : Nat) :
    TFReduction V :=
  let nodes := children.map TFCell.node
  {
    symbol := symbol
    productionId := productionId
    childCount := childCount
    children := nodes
    startByte := (nodes.head?.map TFNode.startByte).getD (topByte cells)
    endByte := (nodes.getLast?.map TFNode.endByte).getD (topByte cells)
    startPoint := (nodes.head?.map TFNode.startPoint).getD (topPoint cells)
    endPoint := (nodes.getLast?.map TFNode.endPoint).getD (topPoint cells)
  }

/-- The root's reduction: every cell of the stack and the end token. -/
def rootReduction
    (cells : List (TFCell V))
    (own : TFReduction V)
    (lookahead : TFToken)
    (value : Option V) :
    TFReduction V :=
  let nodes := cells.map TFCell.node
  { own with
    children := nodes ++ [lookahead.node true value]
    startByte := (nodes.head?.map TFNode.startByte).getD lookahead.startByte
    startPoint := (nodes.head?.map TFNode.startPoint).getD lookahead.startPoint
    endByte := lookahead.endByte
    endPoint := lookahead.endPoint }

/-- The node that takes a reduction's place on the stack. -/
def parentNode (own : TFReduction V) (value : Option V) : TFNode V where
  symbol := own.symbol
  extra := false
  startByte := own.startByte
  endByte := own.endByte
  startPoint := own.startPoint
  endPoint := own.endPoint
  value := value

/--
Whether a reduction is the root's: made on the end token, above nothing but
leading extras, into a state that accepts the end.
-/
def isRoot
    (lang : TFLanguage)
    (lookahead : Option TFToken)
    (base leading : Nat)
    (state : TSStateId) :
    Option TFToken :=
  match lookahead with
  | some token =>
      if token.symbol = tsBuiltinSymEnd ∧ base = leading ∧
          lang.acceptsEnd.getD state false = true then
        some token
      else
        none
  | none => none

/-- Put a parent in place of its children, below their trailing extras. -/
def place
    (self : TFParser σ V)
    (cut : Popped V)
    (parent : TFNode V)
    (state : TSStateId) :
    Bool × TFParser σ V :=
  let grown :=
    self.grow (cut.below.length + 1 + cut.trailing.length) true
  if grown.1 then
    (true,
      { grown.2 with
        cells :=
          cut.below ++ [⟨parent, state⟩] ++
            cut.trailing.map (fun cell => { cell with state := state }) })
  else
    grown

/--
Reduce a production: hand its children to the sink and put the result in their
place.  The root takes every cell of the stack and the end token.
-/
def reduce
    (sink : TFSink σ V)
    (lang : TFLanguage)
    (self : TFParser σ V)
    (symbol : TSSymbol)
    (childCount productionId : Nat)
    (lookahead : Option TFToken) :
    Option (Bool × TFParser σ V) :=
  match popped self.cells childCount with
  | none => none
  | some cut =>
      let own :=
        reductionOf self.cells cut.children symbol childCount productionId
      let base := cut.below.length
      let state := lang.nextState (stateAt self.cells base) symbol
      match isRoot lang lookahead base self.leading state with
      | none =>
          let emitted := emitReduce sink self own
          some (emitted.2.place cut (parentNode own emitted.1) state)
      | some token =>
          let grown := self.grow (self.depth + 1) false
          if !grown.1 then
            some grown
          else
            let ended :=
              emitShift sink { grown.2 with rootEmitted := true } token true
            let emitted :=
              emitReduce sink ended.2
                (rootReduction self.cells own token ended.1)
            some (emitted.2.place cut (parentNode own emitted.1) state)

/-- Give back every value on the stack. -/
def discardAll (sink : TFSink σ V) (self : TFParser σ V) : TFParser σ V :=
  match sink.onDiscard with
  | none => self
  | some onDiscard =>
      self.cells.foldl
        (fun parser cell =>
          match cell.node.value with
          | none => parser
          | some value =>
              { parser with
                payload := onDiscard value parser.payload
                events := parser.events ++ [.discard value] })
        self

end TFParser

end TreeFeller
