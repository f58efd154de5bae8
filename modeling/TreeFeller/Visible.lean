import TreeFeller.Driver

/-!
# The visible-node filter

A raw sink that applies the grammar's visibility, alias and field rules and
forwards what survives.  The settled visible children of all stack cells stand
in one arena, in source order; a cell remembers how many entries it owns.

A cell's count and production are stored in the pointer the driver keeps for
the filter, which a 64-bit pointer holds exactly.  A run's growth is cut off at
`2 ^ 32 - 1` entries in the source, which no buffer that parses reaches.
-/

namespace TreeFeller

/-- What the filter remembers of a stack cell. -/
structure TFVisibleCell where
  children : Nat
  production : Nat
  deriving Repr, DecidableEq, Inhabited

/-- A value of the filter: a packed cell, or what the consumer made of the root. -/
inductive TFFilterValue (W : Type) where
  | cell (packed : TFVisibleCell)
  | root (value : W)
  deriving Repr, DecidableEq

/-- A settled visible child, as its parent will see it. -/
structure TFVisibleChild (W : Type) where
  symbol : TSSymbol
  fieldId : TSFieldId
  extra : Bool
  value : Option W
  deriving Repr, DecidableEq, Inhabited

/-- A visible node, handed to the consumer with its children. -/
structure TFVisibleNode (W : Type) where
  symbol : TSSymbol
  productionId : Nat
  named : Bool
  extra : Bool
  startByte : Nat
  endByte : Nat
  startPoint : TFPoint
  endPoint : TFPoint
  children : List (TFVisibleChild W)
  deriving Repr, DecidableEq, Inhabited

/-- A visible node without its children. -/
def TFVisibleNode.head {W : Type} (self : TFVisibleNode W) :
    TFVisibleNode Unit :=
  { self with children := [] }

/-- A consumer of visible nodes, with payloads `τ` and values `W`. -/
structure TFVisibleSink (τ W : Type) where
  onNode : Option (TFVisibleNode W → τ → Option W × τ)
  onHidden : Option (TFVisibleNode W → τ → Option W × τ)
  onDiscard : Option (W → τ → τ)
  namedOnly : Bool

/-- What a filtered parse does that its consumer sees, in order. -/
inductive VisibleEvent (W : Type) where
  /-- A call of `on_node` and the value it returned. -/
  | node (node : TFVisibleNode W) (value : Option W)
  /-- A call of `on_hidden` and the value it returned. -/
  | hidden (node : TFVisibleNode W) (value : Option W)
  /-- A call of `on_discard`. -/
  | discard (value : W)
  /-- The filter gave up, after a call for the same reduction or before any. -/
  | gaveUp (answered : Bool)
  deriving Repr, DecidableEq

/-- The nodes that a list of events reports, in order. -/
def reportedNodes {W : Type} (events : List (VisibleEvent W)) :
    List (TFVisibleNode W) :=
  events.filterMap (fun event =>
    match event with
    | .node node _ => some node
    | _ => none)

/-- A consumer as the filter has left it: its payload and every call made. -/
structure TFConsumer (τ W : Type) where
  payload : τ
  events : List (VisibleEvent W)

namespace TFConsumer

variable {τ W : Type}

/-- Hand a node to `on_node`. -/
def callNode
    (sink : TFVisibleSink τ W)
    (self : TFConsumer τ W)
    (node : TFVisibleNode W) :
    Option W × TFConsumer τ W :=
  match sink.onNode with
  | none => (none, self)
  | some onNode =>
      let answer := onNode node self.payload
      (answer.1, ⟨answer.2, self.events ++ [.node node answer.1]⟩)

/-- The nodes handed to `on_node`, in order. -/
def calls (self : TFConsumer τ W) : List (TFVisibleNode W) :=
  reportedNodes self.events

/-- Offer a hidden run to `on_hidden`. -/
def callHidden
    (onHidden : TFVisibleNode W → τ → Option W × τ)
    (self : TFConsumer τ W)
    (node : TFVisibleNode W) :
    Option W × TFConsumer τ W :=
  let answer := onHidden node self.payload
  (answer.1, ⟨answer.2, self.events ++ [.hidden node answer.1]⟩)

/-- Give the value of an entry back, if it has one. -/
def callDiscard
    (onDiscard : W → τ → τ)
    (self : TFConsumer τ W)
    (entry : TFVisibleChild W) :
    TFConsumer τ W :=
  match entry.value with
  | none => self
  | some value =>
      ⟨onDiscard value self.payload, self.events ++ [.discard value]⟩

end TFConsumer

/-- The filter's state. -/
structure TFFilter (τ W : Type) where
  /-- Settled children; a cell's run stands right below those above it. -/
  arena : List (TFVisibleChild W)
  arenaCapacity : Nat
  scratchCapacity : Nat
  /-- By symbol: whether the consumer refused to fold its runs. -/
  declined : Option (List Bool)
  failed : Bool
  consumer : TFConsumer τ W

namespace TFFilter

variable {τ W : Type}

/-- The filter before any event. -/
def initial (payload : τ) : TFFilter τ W where
  arena := []
  arenaCapacity := 0
  scratchCapacity := 0
  declined := none
  failed := false
  consumer := ⟨payload, []⟩

/-- What a value says of its cell; the null pointer owns nothing. -/
def cellOf : Option (TFFilterValue W) → TFVisibleCell
  | some (.cell packed) => packed
  | _ => ⟨0, 0⟩

/-- How many entries a child owns. -/
def owns (child : TFNode (TFFilterValue W)) : Nat :=
  (cellOf child.value).children

/-- The alias a production gives a child; an extra has none. -/
def childAlias {V : Type}
    (lang : TFLanguage)
    (productionId structural : Nat)
    (child : TFNode V) :
    TSSymbol :=
  match lang.aliasSequence productionId with
  | some row => if child.extra then 0 else row structural
  | none => 0

/-- The field a production gives a child; an extra has none. -/
def childField {V : Type}
    (lang : TFLanguage)
    (productionId structural : Nat)
    (child : TFNode V) :
    TSFieldId :=
  if child.extra then 0 else lang.fieldRowAt productionId structural

/-- Whether a child shows: it is aliased, or its own symbol is visible. -/
def childVisible {V : Type}
    (lang : TFLanguage)
    (productionId structural : Nat)
    (child : TFNode V) :
    Bool :=
  childAlias lang productionId structural child != 0 ||
    (lang.symbolMetadata child.symbol).visible

/-- The structural index after a child. -/
def nextStructural {V : Type} (structural : Nat) (child : TFNode V) : Nat :=
  if child.extra then structural else structural + 1

/-- Give an entry a hidden ancestor's field, unless it has one or is extra. -/
def inheritField
    (field : TSFieldId)
    (entry : TFVisibleChild W) :
    TFVisibleChild W :=
  if !entry.extra && entry.fieldId == 0 then
    { entry with fieldId := field }
  else
    entry

/-- The entries of a hidden child, as its production passes them on. -/
def inheritRun
    (field : TSFieldId)
    (entries : List (TFVisibleChild W)) :
    List (TFVisibleChild W) :=
  if field ≠ 0 then entries.map (inheritField field) else entries

/-- Make room in an array of entries. -/
def reserve (capacity needed : Nat) (heap : Heap) : Bool × Nat × Heap :=
  if needed ≤ capacity then
    (true, capacity, heap)
  else
    let allocated := heap.allocate
    if allocated.1 then
      (true, grownCapacity capacity needed, allocated.2)
    else
      (false, capacity, allocated.2)

/-- A run of entries not yet read and the children it belongs to. -/
structure Unread (W : Type) where
  children : List (TFNode (TFFilterValue W))
  structural : Nat
  run : List (TFVisibleChild W)

/--
Pass over the leading hidden children, whose entries stay in place but for
their fields: the entries settled so, and what is left to read.
-/
def settleHidden
    (lang : TFLanguage)
    (productionId : Nat) :
    List (TFNode (TFFilterValue W)) → Nat → List (TFVisibleChild W) →
      List (TFVisibleChild W) × Unread W
  | [], structural, run => ([], ⟨[], structural, run⟩)
  | child :: rest, structural, run =>
      if childVisible lang productionId structural child then
        ([], ⟨child :: rest, structural, run⟩)
      else
        let field := childField lang productionId structural child
        let later :=
          settleHidden lang productionId rest
            (nextStructural structural child) (run.drop (owns child))
        (inheritRun field (run.take (owns child)) ++ later.1, later.2)

/-- Whether the alias, or else the symbol, of a child is named. -/
def childNamed {V : Type}
    (lang : TFLanguage)
    (productionId structural : Nat)
    (child : TFNode V) :
    Bool :=
  let aliased := childAlias lang productionId structural child
  if aliased ≠ 0 then
    (lang.symbolMetadata aliased).named
  else
    (lang.symbolMetadata child.symbol).named

/-- The node a visible child is reported as. -/
def childNode
    (lang : TFLanguage)
    (productionId structural : Nat)
    (child : TFNode (TFFilterValue W))
    (children : List (TFVisibleChild W)) :
    TFVisibleNode W :=
  let aliased := childAlias lang productionId structural child
  {
    symbol :=
      lang.publicSymbol (if aliased ≠ 0 then aliased else child.symbol)
    productionId := (cellOf child.value).production
    named := childNamed lang productionId structural child
    extra := child.extra
    startByte := child.startByte
    endByte := child.endByte
    startPoint := child.startPoint
    endPoint := child.endPoint
    children := children
  }

/-- Whether a child is punctuation the consumer does not want. -/
def dropsChild
    (sink : TFVisibleSink τ W)
    (lang : TFLanguage)
    (productionId structural : Nat)
    (child : TFNode (TFFilterValue W)) :
    Bool :=
  sink.namedOnly && !childNamed lang productionId structural child &&
    childField lang productionId structural child == 0 && owns child == 0

/--
Build the entries from the first visible child on in scratch: a visible child
is reported over the entries it owns and becomes one entry, a hidden one moves
its entries.  No entries, when growing scratch fails.
-/
def buildScratch
    (sink : TFVisibleSink τ W)
    (lang : TFLanguage)
    (productionId : Nat) :
    List (TFNode (TFFilterValue W)) → Nat → List (TFVisibleChild W) →
      List (TFVisibleChild W) → TFFilter τ W → Heap →
        Option (List (TFVisibleChild W)) × TFFilter τ W × Heap
  | [], _, _, produced, self, heap => (some produced, self, heap)
  | child :: rest, structural, run, produced, self, heap =>
      let own := run.take (owns child)
      let further := run.drop (owns child)
      let next := nextStructural structural child
      let field := childField lang productionId structural child
      if childVisible lang productionId structural child then
        if dropsChild sink lang productionId structural child then
          buildScratch sink lang productionId rest next run produced self heap
        else
          let room :=
            reserve self.scratchCapacity (produced.length + 1) heap
          let self := { self with scratchCapacity := room.2.1 }
          if !room.1 then
            (none, self, room.2.2)
          else
            let node := childNode lang productionId structural child own
            let answer := self.consumer.callNode sink node
            let entry : TFVisibleChild W := {
              symbol := node.symbol
              fieldId := field
              extra := child.extra
              value := answer.1
            }
            buildScratch sink lang productionId rest next further
              (produced ++ [entry])
              { self with consumer := answer.2 } room.2.2
      else
        let room :=
          reserve self.scratchCapacity (produced.length + owns child) heap
        let self := { self with scratchCapacity := room.2.1 }
        if !room.1 then
          (none, self, room.2.2)
        else
          buildScratch sink lang productionId rest next further
            (produced ++ inheritRun field own) self room.2.2

/-- Give up; `answered` says whether a call came first, and is recorded only. -/
def fail (self : TFFilter τ W) (answered : Bool) : TFFilter τ W :=
  { self with
    failed := true
    consumer :=
      ⟨self.consumer.payload, self.consumer.events ++ [.gaveUp answered]⟩ }

/-- Whether a filter has called its consumer since an earlier state. -/
def hasCalledSince (self earlier : TFFilter τ W) : Bool :=
  decide (earlier.consumer.events.length < self.consumer.events.length)

/--
Settle the children of a reduction at the end of the arena: whether there was
room.
-/
def settle
    (sink : TFVisibleSink τ W)
    (lang : TFLanguage)
    (self : TFFilter τ W)
    (productionId : Nat)
    (children : List (TFNode (TFFilterValue W)))
    (base : Nat)
    (heap : Heap) :
    Bool × TFFilter τ W × Heap :=
  let leading :=
    settleHidden lang productionId children 0 (self.arena.drop base)
  let below := self.arena.take base ++ leading.1
  let unread := leading.2
  let patched := { self with arena := below ++ unread.run }
  match
      buildScratch sink lang productionId unread.children unread.structural
        unread.run [] patched heap with
  | (none, built, heap) =>
      (false, built.fail (built.hasCalledSince self), heap)
  | (some produced, built, heap) =>
      let room :=
        if produced.isEmpty then
          (true, built.arenaCapacity, heap)
        else
          reserve built.arenaCapacity (below.length + produced.length) heap
      let grown := { built with arenaCapacity := room.2.1 }
      if room.1 then
        (true, { grown with arena := below ++ produced }, room.2.2)
      else
        (false, grown.fail (grown.hasCalledSince self), room.2.2)

/-- The node for a reduction itself, over the run it owns. -/
def parentNode
    (lang : TFLanguage)
    (reduction : TFReduction (TFFilterValue W))
    (named : Bool)
    (children : List (TFVisibleChild W)) :
    TFVisibleNode W where
  symbol := lang.publicSymbol reduction.symbol
  productionId := reduction.productionId
  named := named
  extra := false
  startByte := reduction.startByte
  endByte := reduction.endByte
  startPoint := reduction.startPoint
  endPoint := reduction.endPoint
  children := children

/-- Whether the consumer has refused to fold a symbol. -/
def hasDeclined (self : TFFilter τ W) (symbol : TSSymbol) : Bool :=
  match self.declined with
  | some flags => flags.getD symbol false
  | none => false

/-- Remember a refusal, if the flags can be allocated. -/
def decline
    (lang : TFLanguage)
    (self : TFFilter τ W)
    (symbol : TSSymbol)
    (heap : Heap) :
    TFFilter τ W × Heap :=
  match self.declined with
  | some flags => ({ self with declined := some (flags.set symbol true) }, heap)
  | none =>
      let allocated := heap.allocate
      if allocated.1 then
        ({ self with
            declined :=
              some ((List.replicate lang.ts.symbolCount false).set
                symbol true) },
          allocated.2)
      else
        (self, allocated.2)

/-- Offer a hidden run to the consumer to fold. -/
def offerFold
    (sink : TFVisibleSink τ W)
    (lang : TFLanguage)
    (self : TFFilter τ W)
    (reduction : TFReduction (TFFilterValue W))
    (base : Nat)
    (heap : Heap) :
    TFFilter τ W × Heap :=
  match sink.onHidden with
  | none => (self, heap)
  | some onHidden =>
      if 1 < self.arena.length - base && lang.foldable reduction.symbol &&
          !self.hasDeclined reduction.symbol then
        let node := parentNode lang reduction false (self.arena.drop base)
        let answer := self.consumer.callHidden onHidden node
        let asked := { self with consumer := answer.2 }
        match answer.1 with
        | some folded =>
            ({ asked with
                arena := asked.arena.take base ++
                  [⟨node.symbol, 0, false, some folded⟩] },
              heap)
        | none => asked.decline lang reduction.symbol heap
      else
        (self, heap)

/-- Whether a reduction is the root's: its last child is the end token. -/
def isRoot (reduction : TFReduction (TFFilterValue W)) : Bool :=
  reduction.children.getLast?.any
    (fun child => child.symbol == tsBuiltinSymEnd)

/-- Report the root on its own terms: no parent judges it. -/
def reportRoot
    (sink : TFVisibleSink τ W)
    (lang : TFLanguage)
    (self : TFFilter τ W)
    (reduction : TFReduction (TFFilterValue W))
    (base : Nat) :
    Option (TFFilterValue W) × TFFilter τ W :=
  let metadata := lang.symbolMetadata reduction.symbol
  if metadata.visible then
    let answer :=
      self.consumer.callNode sink
        (parentNode lang reduction metadata.named (self.arena.drop base))
    (answer.1.map .root, { self with consumer := answer.2 })
  else
    (none, self)

/-- `tf_filter__on_shift`: a token owns nothing. -/
def onShift
    (_ : TFToken)
    (_ : Bool)
    (self : TFFilter τ W)
    (heap : Heap) :
    Option (TFFilterValue W) × TFFilter τ W × Heap :=
  (some (.cell ⟨0, 0⟩), self, heap)

/-- `tf_filter__on_reduce`. -/
def onReduce
    (sink : TFVisibleSink τ W)
    (lang : TFLanguage)
    (reduction : TFReduction (TFFilterValue W))
    (self : TFFilter τ W)
    (heap : Heap) :
    Option (TFFilterValue W) × TFFilter τ W × Heap :=
  if self.failed then
    (none, self, heap)
  else
    let total := (reduction.children.map owns).sum
    let base := self.arena.length - total
    match
        self.settle sink lang reduction.productionId reduction.children
          base heap with
    | (false, settled, heap) => (none, settled, heap)
    | (true, settled, heap) =>
        let offered := settled.offerFold sink lang reduction base heap
        if isRoot reduction then
          let answer := offered.1.reportRoot sink lang reduction base
          (answer.1, answer.2, offered.2)
        else
          (some (.cell
              ⟨offered.1.arena.length - base, reduction.productionId⟩),
            offered.1, offered.2)

/-- The raw sink the filter installs; it takes nothing back itself. -/
def rawSink
    (sink : TFVisibleSink τ W)
    (lang : TFLanguage) :
    TFSink (TFFilter τ W) (TFFilterValue W) where
  onShift := some onShift
  onReduce := some (onReduce sink lang)
  onDiscard := none

/-- Give back every value in the arena. -/
def discardArena
    (sink : TFVisibleSink τ W)
    (self : TFFilter τ W) :
    TFFilter τ W :=
  match sink.onDiscard with
  | none => self
  | some onDiscard =>
      { self with
        consumer :=
          self.arena.foldl
            (fun consumer entry => consumer.callDiscard onDiscard entry)
            self.consumer }

end TFFilter

/-- What a filtered parse comes to. -/
structure TFVisibleResult (τ W : Type) where
  ok : Bool
  root : Option W
  error : Option TFError
  /-- The filter ran out of memory in a parse that went through: only the
  error's message is written. -/
  filterFailed : Bool
  filter : TFFilter τ W

namespace TFVisibleResult

variable {τ W : Type}

/--
The root the consumer made.  A packed cell, which the assertion at the accept
action keeps from being stored, counts as none.
-/
def rootOf : Option (TFFilterValue W) → Option W
  | some (.root value) => some value
  | _ => none

/-- Turn the raw result into the consumer's. -/
def ofRaw
    (sink : TFVisibleSink τ W)
    (raw : TFResult (TFFilter τ W) (TFFilterValue W)) :
    TFVisibleResult τ W :=
  let filter := raw.parser.payload
  let ok := raw.ok && !filter.failed
  {
    ok := ok
    root := if ok then rootOf raw.root else none
    error := raw.parser.error
    filterFailed := raw.ok && filter.failed
    filter := if ok then filter else filter.discardArena sink
  }

end TFVisibleResult

/-- Parse a buffer into a consumer of visible nodes. -/
def tfParseVisible {τ W : Type}
    (lang : TFLanguage)
    (sink : TFVisibleSink τ W)
    (fuel : Nat)
    (source : List UInt8)
    (payload : τ)
    (heap : Heap) :
    Option (TFVisibleResult τ W) :=
  (tfParse lang (TFFilter.rawSink sink lang) fuel source
    (.initial payload) heap).map (.ofRaw sink)

end TreeFeller
