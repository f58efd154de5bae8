import TreeFeller.Allocators
import TreeFeller.Traces

namespace TreeFeller

open StatefulProgram

/-!
# The driver over two sinks

The driver never looks at the values its sink returns.  So two runs over the
same source go through the same steps, whatever their sinks are: the same
states, the same tokens, the same splits, the same error, and the same calls
but for the values in them.  What the two sinks have built stays related by
any relation that single calls keep.
-/

/-! ## What is left without the values -/

/-- A reduction without the values of its children. -/
def TFReduction.forget {V : Type} (self : TFReduction V) :
    TFReduction Unit where
  symbol := self.symbol
  productionId := self.productionId
  childCount := self.childCount
  children := self.children.map TFNode.forget
  startByte := self.startByte
  endByte := self.endByte
  startPoint := self.startPoint
  endPoint := self.endPoint

/-- The call an event stands for, without values. -/
def Event.call {V : Type} : Event V → Option (Event Unit)
  | .shift token extra _ => some (.shift token extra none)
  | .reduce reduction _ => some (.reduce reduction.forget none)
  | .discard _ => none
  | .growthFailed _ => none

/-- The calls that report the parse, without values. -/
def callsOf {V : Type} (events : List (Event V)) : List (Event Unit) :=
  events.filterMap Event.call

/-- Calls are made in the order of the log. -/
@[simp] theorem callsOf_append {V : Type} (first second : List (Event V)) :
    callsOf (first ++ second) = callsOf first ++ callsOf second :=
  List.filterMap_append

namespace TFParser

/-- A cut without values. -/
def Popped.forget {V : Type} (self : Popped V) : Popped Unit where
  below := self.below.map TFCell.forget
  children := self.children.map TFCell.forget
  trailing := self.trailing.map TFCell.forget

section Forgetting

variable {V : Type}

/-- Where a reduction cuts the stack does not depend on values. -/
theorem popped_forget
    (cells : List (TFCell V))
    (childCount : Nat) :
    popped (cells.map TFCell.forget) childCount =
      (popped cells childCount).map Popped.forget := by
  have scans :
      scanPop childCount (cells.map TFCell.forget).reverse 0 0 0 =
        scanPop childCount cells.reverse 0 0 0 := by
    apply scanPop_congr
    simp [TFCell.forget, TFNode.forget]
  simp only [popped, scans, List.length_map, Option.map_map]
  congr 1
  funext counts
  simp [Popped.forget, List.map_take, List.map_drop]

/-- Nor do the states. -/
theorem stateAt_map_forget
    (cells : List (TFCell V))
    (index : Nat) :
    stateAt (cells.map TFCell.forget) index = stateAt cells index := by
  cases index with
  | zero =>
      rfl
  | succ index =>
      simp only [stateAt, List.getElem?_map, Option.map_map]
      rfl

/-- Nor does a reduction's span. -/
theorem reductionOf_forget
    (cells children : List (TFCell V))
    (symbol : TSSymbol)
    (childCount productionId : Nat) :
    (reductionOf cells children symbol childCount productionId).forget =
      reductionOf (cells.map TFCell.forget) (children.map TFCell.forget)
        symbol childCount productionId := by
  simp [reductionOf, TFReduction.forget, topByte, topPoint, TFCell.forget,
    TFNode.forget, Function.comp_def]

/-- Nor does the root's. -/
theorem rootReduction_forget
    (cells : List (TFCell V))
    (own : TFReduction V)
    (lookahead : TFToken)
    (value : Option V) :
    (rootReduction cells own lookahead value).forget =
      rootReduction (cells.map TFCell.forget) own.forget lookahead none := by
  simp [rootReduction, TFReduction.forget, TFCell.forget, TFNode.forget,
    TFToken.node, Function.comp_def]

/-- The cells after a reduction. -/
theorem placed_forget
    (cut : Popped V)
    (parent : TFNode V)
    (state : TSStateId) :
    (RawStack.placed cut parent state).map TFCell.forget =
      RawStack.placed cut.forget parent.forget state := by
  simp [RawStack.placed, Popped.forget, TFCell.forget, Function.comp_def]

end Forgetting

variable {σ σ' V V' : Type}

/-- The stack a parser's values stand on. -/
def stack (self : TFParser σ V) : RawStack σ V :=
  ⟨self.cells, self.payload, self.heap⟩

/-- Two parsers that differ in what their sinks returned only. -/
structure Twins
    (alike : Heap → Heap → Prop)
    (first : TFParser σ V)
    (second : TFParser σ' V') : Prop where
  lexer : first.lexer = second.lexer
  cells :
    first.cells.map TFCell.forget = second.cells.map TFCell.forget
  capacity : first.capacity = second.capacity
  leading : first.leading = second.leading
  rootEmitted : first.rootEmitted = second.rootEmitted
  error : first.error = second.error
  splitCount : first.splitCount = second.splitCount
  spec : first.spec = second.spec
  heap : alike first.heap second.heap
  calls : callsOf first.events = callsOf second.events

/--
Two sinks in step: a relation between the stacks they build is kept by every
call made of both.
-/
structure InStep
    (alike : Heap → Heap → Prop)
    (sink : TFSink σ V)
    (sink' : TFSink σ' V')
    (together : RawStack σ V → RawStack σ' V' → Prop)
    (parted : σ → σ' → Prop)
    (rooted : Option V → σ → Option V' → σ' → Prop) : Prop where
  shifts : sink.onShift.isSome = sink'.onShift.isSome
  reduces : sink.onReduce.isSome = sink'.onReduce.isSome
  /-- The relation does not depend on what the driver allocates. -/
  allocated :
    ∀ {stack stack' heap heap'},
      together stack stack' → alike heap heap' →
        together { stack with heap := heap } { stack' with heap := heap' }
  step :
    ∀ {stack stack' next next' event},
      together stack stack' → alike stack.heap stack'.heap →
        stack.cells.map TFCell.forget = stack'.cells.map TFCell.forget →
          stack.step sink event = some next →
            stack'.step sink' event = some next' →
              alike next.heap next'.heap ∧ together next next'
  close :
    ∀ {stack stack' symbol childCount productionId token},
      ∀ {root root' payload payload' heap heap'},
        together stack stack' → alike stack.heap stack'.heap →
          stack.cells.map TFCell.forget = stack'.cells.map TFCell.forget →
            stack.close sink symbol childCount productionId token =
                some (root, payload, heap) →
              stack'.close sink' symbol childCount productionId token =
                  some (root', payload', heap') →
                alike heap heap' ∧ rooted root payload root' payload'
  /-- What is left of the relation when a cell cannot be pushed. -/
  parts :
    ∀ {stack stack'},
      together stack stack' → parted stack.payload stack'.payload
  rootParts :
    ∀ {root payload root' payload'},
      rooted root payload root' payload' → parted payload payload'

/-- Twins whose sinks have kept their relation, and whose root is to come. -/
structure Abreast
    (alike : Heap → Heap → Prop)
    (together : RawStack σ V → RawStack σ' V' → Prop)
    (first : TFParser σ V)
    (second : TFParser σ' V') : Prop where
  twins : Twins alike first second
  together : together first.stack second.stack
  open_ : first.rootEmitted = false

/-- Twins one of whose calls was in vain. -/
structure Stranded
    (alike : Heap → Heap → Prop)
    (parted : σ → σ' → Prop)
    (first : TFParser σ V)
    (second : TFParser σ' V') : Prop where
  twins : Twins alike first second
  parted : parted first.payload second.payload

/-- Twins whose root has been reported. -/
structure Crowned
    (lang : TFLanguage)
    (alike : Heap → Heap → Prop)
    (rooted : Option V → σ → Option V' → σ' → Prop)
    (first : TFParser σ V)
    (second : TFParser σ' V') : Prop where
  twins : Twins alike first second
  emitted : Rooted lang first
  rooted :
    rooted (TFStep.acceptedRoot first) first.payload
      (TFStep.acceptedRoot second) second.payload

/-- The same outcome on both sides: both went well, or both failed. -/
inductive SameOutcome
    (went failed : TFParser σ V → TFParser σ' V' → Prop) :
    Bool × TFParser σ V → Bool × TFParser σ' V' → Prop where
  | went
      {first : TFParser σ V}
      {second : TFParser σ' V'}
      (related : went first second) :
      SameOutcome went failed (true, first) (true, second)
  | failed
      {first : TFParser σ V}
      {second : TFParser σ' V'}
      (related : failed first second) :
      SameOutcome went failed (false, first) (false, second)

/-- Outcomes are the same under weaker relations. -/
theorem SameOutcome.mono
    {went failed went' failed' : TFParser σ V → TFParser σ' V' → Prop}
    {outcome : Bool × TFParser σ V}
    {outcome' : Bool × TFParser σ' V'}
    (same : SameOutcome went failed outcome outcome')
    (weaker : ∀ first second, went first second → went' first second)
    (weakerFailed :
      ∀ first second, failed first second → failed' first second) :
    SameOutcome went' failed' outcome outcome' := by
  cases same with
  | went related =>
      exact .went (weaker _ _ related)
  | failed related =>
      exact .failed (weakerFailed _ _ related)

section Memory

variable {alike : Heap → Heap → Prop}
variable {first : TFParser σ V}
variable {second : TFParser σ' V'}

/-- Twins are equally deep. -/
theorem Twins.depth (twins : Twins alike first second) :
    first.depth = second.depth := by
  simpa [TFParser.depth] using congrArg List.length twins.cells

/-- Twins are in the same state. -/
theorem Twins.state (twins : Twins alike first second) :
    first.state = second.state := by
  have tops := congrArg (fun cells => stateAt cells cells.length) twins.cells
  simp only [List.length_map, stateAt_map_forget] at tops
  exact tops

/-- Nothing but its cells and its memory has changed of a parser. -/
structure Restacked
    (before : TFParser σ V)
    (cells : List (TFCell V))
    (after : TFParser σ V) : Prop where
  cells : after.cells = cells
  payload : after.payload = before.payload
  leading : after.leading = before.leading
  rootEmitted : after.rootEmitted = before.rootEmitted

/-- Growing the stack leaves what stands on it alone. -/
theorem grow_keeps
    (self : TFParser σ V)
    (needed : Nat)
    (answered : Bool) :
    Restacked self self.cells (self.grow needed answered).2 := by
  rcases self.grow_cases needed answered with
    ⟨heap, capacity, _, _, grown⟩ | ⟨heap, _, grown⟩
  · rw [grown]
    exact ⟨rfl, rfl, rfl, rfl⟩
  · rw [grown]
    exact ⟨rfl, rfl, rfl, rfl⟩

/-- Twins grow alike. -/
theorem Twins.grow
    (bisimulation : Heap.Bisimulation alike)
    (twins : Twins alike first second)
    (needed : Nat)
    (answered : Bool) :
    (first.grow needed answered).1 = (second.grow needed answered).1 ∧
      Twins alike (first.grow needed answered).2
        (second.grow needed answered).2 := by
  have states := bisimulation.answers twins.heap
  have between := bisimulation.after twins.heap
  have nodes := bisimulation.answers between
  have after := bisimulation.after between
  unfold TFParser.grow
  by_cases fits : needed ≤ first.capacity
  · have fits' : needed ≤ second.capacity := twins.capacity ▸ fits
    rw [if_pos fits, if_pos fits']
    exact ⟨rfl, twins⟩
  · have full' : ¬ needed ≤ second.capacity := twins.capacity ▸ fits
    rw [if_neg fits, if_neg full']
    dsimp only
    rw [states, nodes]
    split
    · exact ⟨rfl, { twins with
        heap := after
        capacity :=
          congrArg (fun capacity => grownCapacity capacity needed)
            twins.capacity }⟩
    · refine ⟨rfl, { twins with heap := after, calls := ?_ }⟩
      simp only [record, callsOf_append, twins.calls]
      rfl

end Memory

section Operations

variable {alike : Heap → Heap → Prop}
variable {sink : TFSink σ V}
variable {sink' : TFSink σ' V'}
variable {together : RawStack σ V → RawStack σ' V' → Prop}
variable {parted : σ → σ' → Prop}
variable {rooted : Option V → σ → Option V' → σ' → Prop}
variable {first : TFParser σ V}
variable {second : TFParser σ' V'}
variable (bisimulation : Heap.Bisimulation alike)
variable
  (inStep : InStep alike sink sink' together parted rooted)

/-- Calls of two sinks are logged alike. -/
theorem InStep.callsOf_shiftEvents
    (inStep : InStep alike sink sink' together parted rooted)
    (token : TFToken)
    (extra : Bool)
    (value : Option V)
    (value' : Option V') :
    callsOf (sink.shiftEvents token extra value) =
      callsOf (sink'.shiftEvents token extra value') := by
  unfold TFSink.shiftEvents
  rw [inStep.shifts]
  split
  · rfl
  · rfl

/-- And so are reductions. -/
theorem InStep.callsOf_reduceEvents
    (inStep : InStep alike sink sink' together parted rooted)
    {reduction : TFReduction V}
    {reduction' : TFReduction V'}
    (same : reduction.forget = reduction'.forget)
    (value : Option V)
    (value' : Option V') :
    callsOf (sink.reduceEvents reduction value) =
      callsOf (sink'.reduceEvents reduction' value') := by
  unfold TFSink.reduceEvents
  rw [inStep.reduces]
  split
  · simp only [callsOf, List.filterMap_cons, Event.call, same,
      List.filterMap_nil]
  · rfl

include bisimulation

/-- Putting cells on twins' stacks, once there is room. -/
theorem Twins.regrow
    (twins : Twins alike first second)
    (needed : Nat)
    {cells : List (TFCell V)}
    {cells' : List (TFCell V')}
    (same : cells.map TFCell.forget = cells'.map TFCell.forget) :
    SameOutcome
      (fun after after' =>
        Twins alike after after' ∧ Restacked first cells after ∧
          Restacked second cells' after')
      (fun after after' =>
        Twins alike after after' ∧ after.payload = first.payload ∧
          after'.payload = second.payload)
      (if (first.grow needed true).1 then
        (true, { (first.grow needed true).2 with cells := cells })
      else
        first.grow needed true)
      (if (second.grow needed true).1 then
        (true, { (second.grow needed true).2 with cells := cells' })
      else
        second.grow needed true) := by
  obtain ⟨answers, grown⟩ := twins.grow bisimulation needed true
  have kept := first.grow_keeps needed true
  have kept' := second.grow_keeps needed true
  rw [← answers]
  by_cases well : (first.grow needed true).1 = true
  · rw [if_pos well, if_pos well]
    exact .went ⟨{ grown with cells := same },
      ⟨rfl, kept.payload, kept.leading, kept.rootEmitted⟩,
      ⟨rfl, kept'.payload, kept'.leading, kept'.rootEmitted⟩⟩
  · have failed := Bool.eq_false_iff.mpr well
    rw [if_neg well, if_neg well]
    have first_eq :
        first.grow needed true = (false, (first.grow needed true).2) :=
      Prod.ext failed rfl
    have second_eq :
        second.grow needed true = (false, (second.grow needed true).2) :=
      Prod.ext (answers.symm.trans failed) rfl
    rw [first_eq, second_eq]
    exact .failed ⟨grown, kept.payload, kept'.payload⟩

/-- Both push a cell. -/
theorem Twins.push
    (twins : Twins alike first second)
    {node : TFNode V}
    {node' : TFNode V'}
    (nodes : node.forget = node'.forget)
    (state : TSStateId) :
    SameOutcome
      (fun after after' =>
        Twins alike after after' ∧
          Restacked first (first.cells ++ [⟨node, state⟩]) after ∧
          Restacked second (second.cells ++ [⟨node', state⟩]) after')
      (fun after after' =>
        Twins alike after after' ∧ after.payload = first.payload ∧
          after'.payload = second.payload)
      (first.push node state) (second.push node' state) := by
  have cells := (first.grow_keeps (first.depth + 1) true).cells
  have cells' := (second.grow_keeps (first.depth + 1) true).cells
  have same :
      ((first.grow (first.depth + 1) true).2.cells ++
          [(⟨node, state⟩ : TFCell V)]).map TFCell.forget =
        ((second.grow (first.depth + 1) true).2.cells ++
          [(⟨node', state⟩ : TFCell V')]).map TFCell.forget := by
    rw [cells, cells', List.map_append, List.map_append, twins.cells]
    simp only [List.map_cons, List.map_nil, TFCell.forget, nodes]
  unfold TFParser.push
  rw [← twins.depth]
  refine (twins.regrow bisimulation _ same).mono ?_ (fun _ _ kept => kept)
  rintro after after' ⟨afterTwins, kept, kept'⟩
  rw [cells] at kept
  rw [cells'] at kept'
  exact ⟨afterTwins, kept, kept'⟩

/-- Both put a parent in place of its children. -/
theorem Twins.place
    (twins : Twins alike first second)
    {cut : Popped V}
    {cut' : Popped V'}
    (cuts : cut.forget = cut'.forget)
    {parent : TFNode V}
    {parent' : TFNode V'}
    (parents : parent.forget = parent'.forget)
    (state : TSStateId) :
    SameOutcome
      (fun after after' =>
        Twins alike after after' ∧
          Restacked first (RawStack.placed cut parent state) after ∧
          Restacked second (RawStack.placed cut' parent' state) after')
      (fun after after' =>
        Twins alike after after' ∧ after.payload = first.payload ∧
          after'.payload = second.payload)
      (first.place cut parent state) (second.place cut' parent' state) := by
  have below : cut.below.length = cut'.below.length := by
    simpa [Popped.forget] using
      congrArg (fun cut => cut.below.length) cuts
  have trailing : cut.trailing.length = cut'.trailing.length := by
    simpa [Popped.forget] using
      congrArg (fun cut => cut.trailing.length) cuts
  unfold TFParser.place
  rw [← below, ← trailing]
  apply twins.regrow bisimulation
  have placed := placed_forget cut parent state
  have placed' := placed_forget cut' parent' state
  rw [cuts, parents, ← placed'] at placed
  exact placed

include inStep

/-- Both shift a token. -/
theorem Abreast.shift
    (abreast : Abreast alike together first second)
    (token : TFToken)
    (extra : Bool)
    (state : TSStateId) :
    SameOutcome (Abreast alike together) (Stranded alike parted)
      (first.shift sink token extra state)
      (second.shift sink' token extra state) := by
  obtain ⟨twins, together_, open_⟩ := abreast
  let answer := sink.callShift token extra first.payload first.heap
  let answer' := sink'.callShift token extra second.payload second.heap
  have stepped :
      first.stack.step sink (.shift token extra state) =
        some ⟨first.cells ++ [⟨token.node extra answer.1, state⟩],
          answer.2.1, answer.2.2⟩ :=
    rfl
  obtain ⟨heaps, stacked⟩ :=
    inStep.step together_ twins.heap twins.cells stepped rfl
  let counted : TFParser σ V :=
    { first with
      leading := first.leadingAfter extra
      payload := answer.2.1
      heap := answer.2.2
      events := first.events ++ sink.shiftEvents token extra answer.1 }
  let counted' : TFParser σ' V' :=
    { second with
      leading := second.leadingAfter extra
      payload := answer'.2.1
      heap := answer'.2.2
      events := second.events ++ sink'.shiftEvents token extra answer'.1 }
  have leading : counted.leading = counted'.leading := by
    simp only [counted, counted', leadingAfter, twins.depth, twins.leading]
  have calls : callsOf counted.events = callsOf counted'.events := by
    simp only [counted, counted', callsOf_append, twins.calls,
      inStep.callsOf_shiftEvents token extra answer.1 answer'.1]
  have twins' : Twins alike counted counted' :=
    { twins with leading := leading, heap := heaps, calls := calls }
  have shifted :
      first.shift sink token extra state =
        counted.push (token.node extra answer.1) state :=
    shift_eq_push sink first token extra state
  have shifted' :
      second.shift sink' token extra state =
        counted'.push (token.node extra answer'.1) state :=
    shift_eq_push sink' second token extra state
  rw [shifted, shifted']
  refine (twins'.push bisimulation rfl state).mono ?_ ?_
  · rintro after after' ⟨afterTwins, kept, kept'⟩
    refine ⟨afterTwins, ?_, kept.rootEmitted.trans open_⟩
    unfold stack
    rw [kept.cells, kept'.cells, kept.payload, kept'.payload]
    exact inStep.allocated stacked afterTwins.heap
  · rintro after after' ⟨afterTwins, kept, kept'⟩
    refine ⟨afterTwins, ?_⟩
    rw [kept, kept']
    exact inStep.parts stacked

/-- What a reduction may come to when it goes well. -/
inductive SameReduced
    (lang : TFLanguage)
    (alike : Heap → Heap → Prop)
    (together : RawStack σ V → RawStack σ' V' → Prop)
    (rooted : Option V → σ → Option V' → σ' → Prop)
    (lookahead : Option TFToken)
    (after : TFParser σ V)
    (after' : TFParser σ' V') : Prop where
  | inner (abreast : Abreast alike together after after')
  | root
      {token : TFToken}
      (crowned : Crowned lang alike rooted after after')
      (known : lookahead = some token)
      (isEnd : token.symbol = tsBuiltinSymEnd)

/-- Both reduce a production other than the root's. -/
theorem Abreast.reduceInner
    (abreast : Abreast alike together first second)
    {symbol : TSSymbol}
    {childCount productionId : Nat}
    {cut : Popped V}
    {cut' : Popped V'}
    (cuts : popped first.cells childCount = some cut)
    (cuts' : popped second.cells childCount = some cut')
    (same : cut.forget = cut'.forget)
    {own : TFReduction V}
    {own' : TFReduction V'}
    (owns :
      own =
        reductionOf first.cells cut.children symbol childCount productionId)
    (owns' :
      own' =
        reductionOf second.cells cut'.children symbol childCount
          productionId)
    (spans : own.forget = own'.forget)
    (state : TSStateId) :
    let emitted := emitReduce sink first own
    let emitted' := emitReduce sink' second own'
    SameOutcome (Abreast alike together) (Stranded alike parted)
      (emitted.2.place cut (parentNode own emitted.1) state)
      (emitted'.2.place cut' (parentNode own' emitted'.1) state) := by
  obtain ⟨twins, together_, open_⟩ := abreast
  rw [emitReduce_eq, emitReduce_eq]
  let answer := sink.callReduce own first.payload first.heap
  let answer' := sink'.callReduce own' second.payload second.heap
  have stepped :
      first.stack.step sink (.reduce symbol childCount productionId state) =
        some ⟨RawStack.placed cut (parentNode own answer.1) state,
          answer.2.1, answer.2.2⟩ := by
    simp only [RawStack.step, stack, cuts, ← owns, answer]
  have stepped' :
      second.stack.step sink'
          (.reduce symbol childCount productionId state) =
        some ⟨RawStack.placed cut' (parentNode own' answer'.1) state,
          answer'.2.1, answer'.2.2⟩ := by
    simp only [RawStack.step, stack, cuts', ← owns', answer']
  obtain ⟨heaps, stacked⟩ :=
    inStep.step together_ twins.heap twins.cells stepped stepped'
  have calls :
      callsOf (first.events ++ sink.reduceEvents own answer.1) =
        callsOf (second.events ++ sink'.reduceEvents own' answer'.1) := by
    simp only [callsOf_append, twins.calls,
      inStep.callsOf_reduceEvents spans answer.1 answer'.1]
  let emitted : TFParser σ V :=
    { first with
      payload := answer.2.1
      heap := answer.2.2
      events := first.events ++ sink.reduceEvents own answer.1 }
  let emitted' : TFParser σ' V' :=
    { second with
      payload := answer'.2.1
      heap := answer'.2.2
      events := second.events ++ sink'.reduceEvents own' answer'.1 }
  have emittedTwins : Twins alike emitted emitted' :=
    { twins with heap := heaps, calls := calls }
  have parents :
      (parentNode own answer.1).forget =
        (parentNode own' answer'.1).forget := by
    change parentNode own.forget none = parentNode own'.forget none
    rw [spans]
  refine (emittedTwins.place bisimulation same parents state).mono ?_ ?_
  · rintro after after' ⟨afterTwins, kept, kept'⟩
    refine ⟨afterTwins, ?_, kept.rootEmitted.trans open_⟩
    unfold stack
    rw [kept.cells, kept'.cells, kept.payload, kept'.payload]
    exact inStep.allocated stacked afterTwins.heap
  · rintro after after' ⟨afterTwins, kept, kept'⟩
    refine ⟨afterTwins, ?_⟩
    rw [kept, kept']
    exact inStep.parts stacked

omit bisimulation inStep in
/-- The value an accepted root is stored with. -/
theorem acceptedRoot_of_restacked
    {before after : TFParser σ V}
    {cut : Popped V}
    {own : TFReduction V}
    {value : Option V}
    {state : TSStateId}
    (kept :
      Restacked before (RawStack.placed cut (parentNode own value) state)
        after)
    (bottom : cut.below.length = before.leading) :
    TFStep.acceptedRoot after = value := by
  unfold TFStep.acceptedRoot
  rw [kept.cells, kept.leading, ← bottom]
  simp [RawStack.placed, parentNode]

/-- Both reduce the root. -/
theorem Abreast.reduceRoot
    (abreast : Abreast alike together first second)
    {lang : TFLanguage}
    {symbol : TSSymbol}
    {childCount productionId : Nat}
    {cut : Popped V}
    {cut' : Popped V'}
    (cuts : popped first.cells childCount = some cut)
    (cuts' : popped second.cells childCount = some cut')
    (same : cut.forget = cut'.forget)
    {own : TFReduction V}
    {own' : TFReduction V'}
    (owns :
      own =
        reductionOf first.cells cut.children symbol childCount productionId)
    (owns' :
      own' =
        reductionOf second.cells cut'.children symbol childCount
          productionId)
    (spans : own.forget = own'.forget)
    {state : TSStateId}
    (bottom : cut.below.length = first.leading)
    (accepts : lang.acceptsEnd.getD state false = true)
    (token : TFToken) :
    let ended := emitShift sink { first with rootEmitted := true } token true
    let ended' :=
      emitShift sink' { second with rootEmitted := true } token true
    let emitted :=
      emitReduce sink ended.2 (rootReduction first.cells own token ended.1)
    let emitted' :=
      emitReduce sink' ended'.2
        (rootReduction second.cells own' token ended'.1)
    SameOutcome (Crowned lang alike rooted) (Stranded alike parted)
      (emitted.2.place cut (parentNode own emitted.1) state)
      (emitted'.2.place cut' (parentNode own' emitted'.1) state) := by
  obtain ⟨twins, together_, _⟩ := abreast
  simp only [emitReduce_eq, emitShift_eq]
  let ended := sink.callShift token true first.payload first.heap
  let ended' := sink'.callShift token true second.payload second.heap
  let root := rootReduction first.cells own token ended.1
  let root' := rootReduction second.cells own' token ended'.1
  let answer := sink.callReduce root ended.2.1 ended.2.2
  let answer' := sink'.callReduce root' ended'.2.1 ended'.2.2
  have closed :
      first.stack.close sink symbol childCount productionId token =
        some answer := by
    simp only [RawStack.close, stack, cuts, ← owns, answer, root, ended]
  have closed' :
      second.stack.close sink' symbol childCount productionId token =
        some answer' := by
    simp only [RawStack.close, stack, cuts', ← owns', answer', root', ended']
  obtain ⟨heaps, values⟩ :=
    inStep.close together_ twins.heap twins.cells closed closed'
  have roots : root.forget = root'.forget := by
    simp only [root, root', rootReduction_forget, twins.cells, spans]
  have calls :
      callsOf
          (first.events ++ sink.shiftEvents token true ended.1 ++
            sink.reduceEvents root answer.1) =
        callsOf
          (second.events ++ sink'.shiftEvents token true ended'.1 ++
            sink'.reduceEvents root' answer'.1) := by
    simp only [callsOf_append, twins.calls,
      inStep.callsOf_shiftEvents token true ended.1 ended'.1,
      inStep.callsOf_reduceEvents roots answer.1 answer'.1]
  let emitted : TFParser σ V :=
    { first with
      rootEmitted := true
      payload := answer.2.1
      heap := answer.2.2
      events :=
        first.events ++ sink.shiftEvents token true ended.1 ++
          sink.reduceEvents root answer.1 }
  let emitted' : TFParser σ' V' :=
    { second with
      rootEmitted := true
      payload := answer'.2.1
      heap := answer'.2.2
      events :=
        second.events ++ sink'.shiftEvents token true ended'.1 ++
          sink'.reduceEvents root' answer'.1 }
  have emittedTwins : Twins alike emitted emitted' :=
    { twins with heap := heaps, calls := calls, rootEmitted := rfl }
  have parents :
      (parentNode own answer.1).forget =
        (parentNode own' answer'.1).forget := by
    change parentNode own.forget none = parentNode own'.forget none
    rw [spans]
  have below : cut.below.length = cut'.below.length := by
    simpa [Popped.forget] using
      congrArg (fun cut => cut.below.length) same
  have bottom' : cut'.below.length = second.leading := by
    rw [← below, bottom, twins.leading]
  refine (emittedTwins.place bisimulation same parents state).mono ?_ ?_
  · rintro after after' ⟨afterTwins, kept, kept'⟩
    refine ⟨afterTwins, ⟨kept.rootEmitted, ?_⟩, ?_⟩
    · unfold TFParser.state
      rw [kept.cells, topState_placed]
      exact accepts
    · rw [acceptedRoot_of_restacked kept bottom,
        acceptedRoot_of_restacked kept' bottom', kept.payload,
        kept'.payload]
      exact values
  · rintro after after' ⟨afterTwins, kept, kept'⟩
    refine ⟨afterTwins, ?_⟩
    rw [kept, kept']
    exact inStep.rootParts values

/-- Both reduce a production. -/
theorem Abreast.reduce
    (abreast : Abreast alike together first second)
    (lang : TFLanguage)
    (symbol : TSSymbol)
    (childCount productionId : Nat)
    (lookahead : Option TFToken) :
    Option.Rel
      (SameOutcome (SameReduced lang alike together rooted lookahead)
        (Stranded alike parted))
      (first.reduce sink lang symbol childCount productionId lookahead)
      (second.reduce sink' lang symbol childCount productionId
        lookahead) := by
  have twins := abreast.twins
  have pops := congrArg (fun cells => popped cells childCount) twins.cells
  simp only [popped_forget] at pops
  unfold TFParser.reduce
  cases cuts : popped first.cells childCount with
  | none =>
      cases cuts' : popped second.cells childCount with
      | none =>
          exact .none
      | some cut' =>
          simp [cuts, cuts'] at pops
  | some cut =>
      cases cuts' : popped second.cells childCount with
      | none =>
          simp [cuts, cuts'] at pops
      | some cut' =>
          simp only [cuts, cuts', Option.map_some, Option.some.injEq] at pops
          have below : cut.below.length = cut'.below.length := by
            simpa [Popped.forget] using
              congrArg (fun cut => cut.below.length) pops
          have states :
              lang.nextState (stateAt first.cells cut.below.length) symbol =
                lang.nextState (stateAt second.cells cut'.below.length)
                  symbol := by
            rw [← stateAt_map_forget, twins.cells, below,
              stateAt_map_forget]
          dsimp only
          generalize owns :
            reductionOf first.cells cut.children symbol childCount
              productionId = own
          generalize owns' :
            reductionOf second.cells cut'.children symbol childCount
              productionId = own'
          have spans : own.forget = own'.forget := by
            rw [← owns, ← owns', reductionOf_forget, reductionOf_forget,
              twins.cells]
            exact congrArg
              (fun cut : Popped Unit =>
                reductionOf _ cut.children symbol childCount productionId)
              pops
          rw [← states, ← below, ← twins.leading]
          generalize
            lang.nextState (stateAt first.cells cut.below.length) symbol =
              state
          cases known :
              isRoot lang lookahead cut.below.length first.leading state with
          | none =>
              refine .some ?_
              refine
                (abreast.reduceInner bisimulation inStep cuts cuts' pops
                  owns.symm owns'.symm spans state).mono
                  ?_ (fun _ _ failed => failed)
              exact fun _ _ related => .inner related
          | some token =>
              obtain ⟨lookaheadEq, isEnd, bottom, accepts⟩ :=
                isRoot_eq_some known
              obtain ⟨answers, grown⟩ :=
                twins.grow bisimulation (first.depth + 1) false
              have kept := first.grow_keeps (first.depth + 1) false
              have kept' := second.grow_keeps (first.depth + 1) false
              dsimp only
              rw [← twins.depth, ← answers]
              by_cases well : (first.grow (first.depth + 1) false).1 = true
              · rw [well]
                have grownAbreast :
                    Abreast alike together
                      (first.grow (first.depth + 1) false).2
                      (second.grow (first.depth + 1) false).2 := by
                  refine
                    ⟨grown, ?_, kept.rootEmitted.trans abreast.open_⟩
                  unfold stack
                  rw [kept.cells, kept'.cells, kept.payload, kept'.payload]
                  exact inStep.allocated abreast.together grown.heap
                rw [← kept.cells] at cuts owns ⊢
                rw [← kept'.cells] at cuts' owns' ⊢
                rw [← kept.leading] at bottom
                refine .some ?_
                refine
                  (grownAbreast.reduceRoot bisimulation inStep cuts cuts'
                    pops owns.symm owns'.symm spans bottom accepts
                    token).mono ?_ (fun _ _ failed => failed)
                exact fun _ _ related => .root related lookaheadEq isEnd
              · have failed := Bool.eq_false_iff.mpr well
                have first_eq :
                    first.grow (first.depth + 1) false =
                      (false, (first.grow (first.depth + 1) false).2) :=
                  Prod.ext failed rfl
                have second_eq :
                    second.grow (first.depth + 1) false =
                      (false, (second.grow (first.depth + 1) false).2) :=
                  Prod.ext (answers.symm.trans failed) rfl
                rw [failed]
                refine .some ?_
                rw [first_eq, second_eq]
                refine .failed ⟨grown, ?_⟩
                rw [kept.payload, kept'.payload]
                exact inStep.parts abreast.together

end Operations

end TFParser

end TreeFeller
