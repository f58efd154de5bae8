import TreeFeller.Lexer

/-!
# Stack cells, sinks and the allocator

What the driver keeps on its stack and what it hands to a sink.  Sinks are
generic in the values they return: `none` is the null pointer.  A callback may
be absent, and reads and updates its own payload; the sinks the library itself
installs also allocate, so a callback is handed the allocator.

The allocator is an oracle that decides, for each allocation in turn, whether
it fails.  Quantifying over oracles quantifies over every pattern of failures.
-/

namespace TreeFeller

/-- The allocator: which allocations fail, and how many were asked for. -/
structure Heap where
  fails : Nat → Bool
  served : Nat

namespace Heap

/-- An allocator that never fails. -/
def reliable : Heap := ⟨fun _ => false, 0⟩

/-- Ask for one allocation. -/
def allocate (self : Heap) : Bool × Heap :=
  (!self.fails self.served, { self with served := self.served + 1 })

/-- No allocation fails. -/
def Reliable (self : Heap) : Prop :=
  ∀ request, self.fails request = false

end Heap

/--
Double a capacity until it covers what is needed.  Starting from a positive
capacity, `needed` doublings always do.
-/
def doubleUntil (needed : Nat) : Nat → Nat → Nat
  | 0, capacity => capacity
  | fuel + 1, capacity =>
      if capacity < needed then
        doubleUntil needed fuel (2 * capacity)
      else
        capacity

/-- The capacity that growing an array to hold `needed` entries asks for. -/
def grownCapacity (capacity needed : Nat) : Nat :=
  doubleUntil needed needed (if capacity = 0 then 64 else capacity)

/-- Enough doublings of a positive capacity cover the need. -/
theorem le_doubleUntil
    {needed fuel capacity : Nat}
    (positive : 0 < capacity)
    (enough : needed ≤ capacity + fuel) :
    needed ≤ doubleUntil needed fuel capacity := by
  induction fuel generalizing capacity with
  | zero =>
      simpa [doubleUntil] using enough
  | succ fuel inductionHypothesis =>
      simp only [doubleUntil]
      split
      · exact inductionHypothesis (by omega) (by omega)
      · omega

/-- A grown capacity covers the need. -/
theorem le_grownCapacity (capacity needed : Nat) :
    needed ≤ grownCapacity capacity needed := by
  unfold grownCapacity
  split
  · exact le_doubleUntil (by omega) (by omega)
  · exact le_doubleUntil (by omega) (by omega)

/-- A shifted token or a completed reduction. -/
structure TFNode (V : Type) where
  symbol : TSSymbol
  extra : Bool
  startByte : Nat
  endByte : Nat
  startPoint : TFPoint
  endPoint : TFPoint
  value : Option V
  deriving Repr, DecidableEq, Inhabited

/-- A completed production, handed to the sink with its children. -/
structure TFReduction (V : Type) where
  symbol : TSSymbol
  productionId : Nat
  childCount : Nat
  children : List (TFNode V)
  startByte : Nat
  endByte : Nat
  startPoint : TFPoint
  endPoint : TFPoint
  deriving Repr, DecidableEq, Inhabited

/-- A stack cell: a node and the state after pushing it. -/
structure TFCell (V : Type) where
  node : TFNode V
  state : TSStateId
  deriving Repr, DecidableEq, Inhabited

/-- A node without its value. -/
def TFNode.forget {V : Type} (self : TFNode V) : TFNode Unit where
  symbol := self.symbol
  extra := self.extra
  startByte := self.startByte
  endByte := self.endByte
  startPoint := self.startPoint
  endPoint := self.endPoint
  value := none

/-- A cell without its value. -/
def TFCell.forget {V : Type} (self : TFCell V) : TFCell Unit where
  node := self.node.forget
  state := self.state

/-- The state a parse starts in. -/
def startState : TSStateId := 1

/-- The state below the cell at an index, `states[index]` of the source. -/
def stateAt {V : Type} (cells : List (TFCell V)) : Nat → TSStateId
  | 0 => startState
  | index + 1 => ((cells[index]?).map TFCell.state).getD 0

/-- The current state of a stack. -/
def topState {V : Type} (cells : List (TFCell V)) : TSStateId :=
  stateAt cells cells.length

/-- The position the top of a stack ends at. -/
def topByte {V : Type} (cells : List (TFCell V)) : Nat :=
  (cells.getLast?.map (fun cell => cell.node.endByte)).getD 0

/-- The point the top of a stack ends at. -/
def topPoint {V : Type} (cells : List (TFCell V)) : TFPoint :=
  (cells.getLast?.map (fun cell => cell.node.endPoint)).getD .origin

/-- The node of a shifted token. -/
def TFToken.node {V : Type}
    (token : TFToken)
    (extra : Bool)
    (value : Option V) :
    TFNode V where
  symbol := token.symbol
  extra := extra
  startByte := token.startByte
  endByte := token.endByte
  startPoint := token.startPoint
  endPoint := token.endPoint
  value := value

/-- What a parse does that is visible from outside, in order. -/
inductive Event (V : Type) where
  /-- A call of `on_shift` and the value it returned. -/
  | shift (token : TFToken) (extra : Bool) (value : Option V)
  /-- A call of `on_reduce` and the value it returned. -/
  | reduce (reduction : TFReduction V) (value : Option V)
  /-- A call of `on_discard`. -/
  | discard (value : V)
  /-- Growing the parse stack failed, after a callback for the new cell or before. -/
  | growthFailed (answered : Bool)
  deriving Repr, DecidableEq

/-- A consumer of raw events, with payloads `σ` and values `V`. -/
structure TFSink (σ V : Type) where
  onShift :
    Option (TFToken → Bool → σ → Heap → Option V × σ × Heap)
  onReduce :
    Option (TFReduction V → σ → Heap → Option V × σ × Heap)
  onDiscard : Option (V → σ → σ)

/-- The messages of a failed parse. -/
inductive TFMessage where
  /-- "input is larger than 4 GiB" -/
  | tooLarge
  /-- "unexpected character" -/
  | unexpectedCharacter
  /-- "expected one of {...}, found ..." -/
  | unexpected (expected : List TSSymbol) (found : TSSymbol)
  /-- "out of memory" -/
  | outOfMemory
  deriving Repr, DecidableEq

/-- The error of a failed parse. -/
structure TFError where
  byte : Nat
  point : TFPoint
  message : TFMessage
  deriving Repr, DecidableEq

/-- The terminals a state would have accepted. -/
def describeExpected (lang : TFLanguage) (state : TSStateId) :
    List TSSymbol :=
  (List.range lang.ts.tokenCount).filter
    (fun symbol => !(lang.actions state symbol).isEmpty)

/-- The error for a token a state has no action for. -/
def TFError.unexpected
    (lang : TFLanguage)
    (state : TSStateId)
    (token : TFToken) :
    TFError where
  byte := token.startByte
  point := token.startPoint
  message := .unexpected (describeExpected lang state) token.symbol

/-- `TF_ERROR_MESSAGE_SIZE`: the bytes an error has for its message. -/
def tfErrorMessageSize : Nat :=
  512

/-- The bytes of a text. -/
def textBytes (text : String) : List UInt8 :=
  text.toUTF8.data.toList

/-- What a buffer keeps of the bytes printed into it, the null byte apart. -/
def printed (size : Nat) (text : List UInt8) : List UInt8 :=
  text.take (size - 1)

/--
`tf_parser__describe_expected`, once the tokens are known: their names in a
buffer, which ends in dots from where a name has no room.
-/
def printNames (size : Nat) :
    List (List UInt8) → Bool → List UInt8 → List UInt8
  | [], _, out => out
  | name :: rest, found, out =>
      let item := (if found then textBytes ", " else []) ++ name
      if size - out.length ≤ item.length then
        let kept := out.take (out.length - 4)
        kept ++ printed (size - kept.length) (textBytes ", ...")
      else
        printNames size rest true (out ++ item)

/-- `tf_parser__symbol_name`. -/
def symbolText (lang : TFLanguage) (symbol : TSSymbol) : List UInt8 :=
  textBytes ((lang.symbolName symbol).getD "?")

/-- The bytes of a message, as `tf_parser__fail` prints it. -/
def TFMessage.text (lang : TFLanguage) (self : TFMessage) : List UInt8 :=
  printed tfErrorMessageSize
    (match self with
    | .tooLarge => textBytes "input is larger than 4 GiB"
    | .unexpectedCharacter => textBytes "unexpected character"
    | .outOfMemory => textBytes "out of memory"
    | .unexpected expected found =>
        textBytes "expected one of \x7b" ++
          printNames (tfErrorMessageSize / 2)
            (expected.map (symbolText lang)) false [] ++
          textBytes "\x7d, found " ++ symbolText lang found)

/-- The names leave room for the null byte. -/
theorem length_printNames
    {size : Nat}
    {names : List (List UInt8)}
    {found : Bool}
    {out : List UInt8}
    (room : out.length < size) :
    (printNames size names found out).length < size := by
  induction names generalizing found out with
  | nil =>
      exact room
  | cons name rest inductionHypothesis =>
      simp only [printNames]
      generalize (if found then textBytes ", " else []) ++ name = item
      split
      · have kept : (out.take (out.length - 4)).length < size :=
          Nat.lt_of_le_of_lt (List.length_take_le' _ _) room
        rw [List.length_append]
        have dots :
            (printed (size - (out.take (out.length - 4)).length)
                  (textBytes ", ...")).length ≤
              size - (out.take (out.length - 4)).length - 1 :=
          List.length_take_le _ _
        omega
      · rename_i fits
        refine inductionHypothesis ?_
        rw [List.length_append]
        omega

/-- A message leaves room for the null byte. -/
theorem TFMessage.length_text
    (lang : TFLanguage)
    (self : TFMessage) :
    (self.text lang).length < tfErrorMessageSize :=
  Nat.lt_of_le_of_lt (List.length_take_le _ _) (by decide)

end TreeFeller
