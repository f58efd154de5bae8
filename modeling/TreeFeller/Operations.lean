import TreeFeller.Raw

namespace TreeFeller

/-!
# What an operation does to the stack

The driver changes its stack, and calls its sink, in two operations only:
shifting a token and reducing a production.  One lemma for each says every
way it can end, and nothing later unfolds them.  Everything else the driver
does leaves the stack, the sink's payload and the log alone.
-/

namespace TFSink

variable {σ V : Type}

/-- What handing a token to a sink adds to the log. -/
def shiftEvents
    (sink : TFSink σ V)
    (token : TFToken)
    (extra : Bool)
    (value : Option V) :
    List (Event V) :=
  if sink.onShift.isSome then [.shift token extra value] else []

/-- What handing a reduction to a sink adds to the log. -/
def reduceEvents
    (sink : TFSink σ V)
    (reduction : TFReduction V)
    (value : Option V) :
    List (Event V) :=
  if sink.onReduce.isSome then [.reduce reduction value] else []

end TFSink

namespace TFParser

variable {σ V : Type}

/-- Emitting a token calls the sink and logs the call. -/
theorem emitShift_eq
    (sink : TFSink σ V)
    (self : TFParser σ V)
    (token : TFToken)
    (extra : Bool) :
    let answer := sink.callShift token extra self.payload self.heap
    emitShift sink self token extra =
      (answer.1,
        { self with
          payload := answer.2.1
          heap := answer.2.2
          events :=
            self.events ++ sink.shiftEvents token extra answer.1 }) := by
  unfold emitShift TFSink.callShift TFSink.shiftEvents
  cases sink.onShift with
  | none =>
      simp
  | some onShift =>
      simp

/-- Emitting a reduction calls the sink and logs the call. -/
theorem emitReduce_eq
    (sink : TFSink σ V)
    (self : TFParser σ V)
    (reduction : TFReduction V) :
    let answer := sink.callReduce reduction self.payload self.heap
    emitReduce sink self reduction =
      (answer.1,
        { self with
          payload := answer.2.1
          heap := answer.2.2
          events :=
            self.events ++ sink.reduceEvents reduction answer.1 }) := by
  unfold emitReduce TFSink.callReduce TFSink.reduceEvents
  cases sink.onReduce with
  | none =>
      simp
  | some onReduce =>
      simp

/-- Growing the stack makes room, or is logged as a failure. -/
theorem grow_cases
    (self : TFParser σ V)
    (needed : Nat)
    (answered : Bool) :
    (∃ heap capacity,
      self.capacity ≤ capacity ∧ needed ≤ capacity ∧
        self.grow needed answered =
          (true, { self with heap := heap, capacity := capacity })) ∨
      (∃ heap,
        self.capacity < needed ∧
          self.grow needed answered =
            (false,
              { self with
                heap := heap
                events := self.events ++ [.growthFailed answered] })) := by
  unfold grow
  split
  · rename_i fits
    exact Or.inl ⟨self.heap, self.capacity, Nat.le_refl _, fits, rfl⟩
  · rename_i full
    dsimp only
    split
    · refine Or.inl ⟨_, grownCapacity self.capacity needed, ?_,
        le_grownCapacity _ _, rfl⟩
      have covers := le_grownCapacity self.capacity needed
      omega
    · exact Or.inr ⟨_, Nat.lt_of_not_le full, rfl⟩

/-- Growing the stack leaves the payload. -/
theorem payload_grow
    (self : TFParser σ V)
    (needed : Nat)
    (answered : Bool) :
    (self.grow needed answered).2.payload = self.payload := by
  rcases self.grow_cases needed answered with
    ⟨heap, capacity, _, _, grown⟩ | ⟨heap, _, grown⟩
  · rw [grown]
  · rw [grown]

/-- The leading extras after shifting a token. -/
def leadingAfter (self : TFParser σ V) (extra : Bool) : Nat :=
  if extra && self.depth == self.leading then
    self.leading + 1
  else
    self.leading

/-- A shift hands the token over, then pushes its cell. -/
theorem shift_eq_push
    (sink : TFSink σ V)
    (self : TFParser σ V)
    (token : TFToken)
    (extra : Bool)
    (state : TSStateId) :
    let answer := sink.callShift token extra self.payload self.heap
    self.shift sink token extra state =
      push
        { self with
          leading := self.leadingAfter extra
          payload := answer.2.1
          heap := answer.2.2
          events := self.events ++ sink.shiftEvents token extra answer.1 }
        (token.node extra answer.1) state := by
  intro answer
  simp only [shift, emitShift_eq, answer, leadingAfter, depth]
  split
  · rename_i atBottom
    simp only [atBottom, if_true]
  · rename_i above
    simp only [above]
    rfl

/-- A shift hands the token over and pushes its cell, or fails to. -/
theorem shift_cases
    (sink : TFSink σ V)
    (self : TFParser σ V)
    (token : TFToken)
    (extra : Bool)
    (state : TSStateId) :
    let answer := sink.callShift token extra self.payload self.heap
    let events := self.events ++ sink.shiftEvents token extra answer.1
    (∃ heap capacity,
      self.capacity ≤ capacity ∧ self.depth + 1 ≤ capacity ∧
        self.shift sink token extra state =
          (true,
            { self with
              cells := self.cells ++ [⟨token.node extra answer.1, state⟩]
              capacity := capacity
              leading := self.leadingAfter extra
              payload := answer.2.1
              heap := heap
              events := events })) ∨
      (∃ heap,
        self.shift sink token extra state =
          (false,
            { self with
              leading := self.leadingAfter extra
              payload := answer.2.1
              heap := heap
              events := events ++ [.growthFailed true] })) := by
  intro answer events
  let counted : TFParser σ V :=
    { self with
      leading := self.leadingAfter extra
      payload := answer.2.1
      heap := answer.2.2
      events := events }
  have shifted :
      self.shift sink token extra state =
        counted.push (token.node extra answer.1) state :=
    shift_eq_push sink self token extra state
  rw [shifted]
  rcases counted.grow_cases (counted.depth + 1) true with
    ⟨heap, capacity, kept, room, grown⟩ | ⟨heap, _, grown⟩
  · refine Or.inl ⟨heap, capacity, kept, room, ?_⟩
    simp only [push, grown]
    rfl
  · refine Or.inr ⟨heap, ?_⟩
    simp only [push, grown]
    rfl

/-- The state a reduction leads to. -/
def reducedState
    (lang : TFLanguage)
    (cells : List (TFCell V))
    (cut : Popped V)
    (symbol : TSSymbol) :
    TSStateId :=
  lang.nextState (stateAt cells cut.below.length) symbol

/-- A root is reduced on the end token only, into a state that accepts it. -/
theorem isRoot_eq_some
    {lang : TFLanguage}
    {lookahead : Option TFToken}
    {base leading : Nat}
    {state : TSStateId}
    {token : TFToken}
    (root : isRoot lang lookahead base leading state = some token) :
    lookahead = some token ∧ token.symbol = tsBuiltinSymEnd ∧
      base = leading ∧ lang.acceptsEnd.getD state false = true := by
  unfold isRoot at root
  split at root
  · rename_i found
    split at root
    · rename_i conditions
      cases root
      exact ⟨rfl, conditions⟩
    · cases root
  · cases root

/-- A stack that has room for its cells has room to reduce some of them. -/
theorem place_cases
    (self : TFParser σ V)
    {cut : Popped V}
    {childCount : Nat}
    (cuts : popped self.cells childCount = some cut)
    (fits : self.depth ≤ self.capacity)
    (parent : TFNode V)
    (state : TSStateId) :
    (∃ heap capacity,
      self.capacity ≤ capacity ∧
        cut.below.length + 1 + cut.trailing.length ≤ capacity ∧
        self.place cut parent state =
          (true,
            { self with
              cells := RawStack.placed cut parent state
              capacity := capacity
              heap := heap })) ∨
      (∃ heap,
        cut.children = [] ∧ self.capacity = self.depth ∧
          self.place cut parent state =
            (false,
              { self with
                heap := heap
                events := self.events ++ [.growthFailed true] })) := by
  have parts := congrArg List.length (cells_of_popped cuts)
  simp only [List.length_append] at parts
  rcases self.grow_cases
      (cut.below.length + 1 + cut.trailing.length) true with
    ⟨heap, capacity, kept, room, grown⟩ | ⟨heap, full, grown⟩
  · refine Or.inl ⟨heap, capacity, kept, room, ?_⟩
    simp only [place, grown]
    rfl
  · refine Or.inr ⟨heap, ?_, ?_, ?_⟩
    · refine List.length_eq_zero_iff.mp ?_
      unfold depth at fits
      omega
    · unfold depth at fits ⊢
      omega
    · simp only [place, grown]
      rfl

/-- What is handed over in a reduction other than the root's. -/
structure InnerReduction
    (sink : TFSink σ V)
    (lang : TFLanguage)
    (before : TFParser σ V)
    (cut : Popped V)
    (symbol : TSSymbol)
    (childCount productionId : Nat)
    (placed : Bool)
    (after : TFParser σ V) : Prop where
  done :
    let own :=
      reductionOf before.cells cut.children symbol childCount productionId
    let answer := sink.callReduce own before.payload before.heap
    let events := before.events ++ sink.reduceEvents own answer.1
    ∃ heap capacity,
      before.capacity ≤ capacity ∧
        ((placed = true ∧
            cut.below.length + 1 + cut.trailing.length ≤ capacity ∧
            after =
              { before with
                cells :=
                  RawStack.placed cut (parentNode own answer.1)
                    (reducedState lang before.cells cut symbol)
                capacity := capacity
                payload := answer.2.1
                heap := heap
                events := events }) ∨
          (placed = false ∧ cut.children = [] ∧
            before.capacity = before.depth ∧
            after =
              { before with
                payload := answer.2.1
                heap := heap
                events := events ++ [.growthFailed true] }))

/-- What is handed over in the root's reduction. -/
structure RootReduction
    (sink : TFSink σ V)
    (lang : TFLanguage)
    (before : TFParser σ V)
    (cut : Popped V)
    (symbol : TSSymbol)
    (childCount productionId : Nat)
    (token : TFToken)
    (placed : Bool)
    (after : TFParser σ V) : Prop where
  isEnd : token.symbol = tsBuiltinSymEnd
  bottom : cut.below.length = before.leading
  accepts :
    lang.acceptsEnd.getD (reducedState lang before.cells cut symbol) false =
      true
  done :
    let own :=
      reductionOf before.cells cut.children symbol childCount productionId
    ∃ heap capacity,
      before.capacity ≤ capacity ∧
        ((placed = true ∧ before.depth + 1 ≤ capacity ∧
            ∃ heapBefore,
              let ended :=
                sink.callShift token true before.payload heapBefore
              let root := rootReduction before.cells own token ended.1
              let answer := sink.callReduce root ended.2.1 ended.2.2
              after =
                { before with
                  cells :=
                    RawStack.placed cut (parentNode own answer.1)
                      (reducedState lang before.cells cut symbol)
                  capacity := capacity
                  rootEmitted := true
                  payload := answer.2.1
                  heap := heap
                  events :=
                    before.events ++
                      sink.shiftEvents token true ended.1 ++
                      sink.reduceEvents root answer.1 }) ∨
          (placed = false ∧
            after =
              { before with
                heap := heap
                events := before.events ++ [.growthFailed false] }))

/-- A reduction is an inner one, or the root's on its end token. -/
theorem reduce_cases
    {sink : TFSink σ V}
    {lang : TFLanguage}
    {before after : TFParser σ V}
    {symbol : TSSymbol}
    {childCount productionId : Nat}
    {lookahead : Option TFToken}
    {placed : Bool}
    (fits : before.depth ≤ before.capacity)
    (reduced :
      before.reduce sink lang symbol childCount productionId lookahead =
        some (placed, after)) :
    ∃ cut,
      popped before.cells childCount = some cut ∧
        ((isRoot lang lookahead cut.below.length before.leading
              (reducedState lang before.cells cut symbol) = none ∧
            InnerReduction sink lang before cut symbol childCount
              productionId placed after) ∨
          ∃ token,
            lookahead = some token ∧
              RootReduction sink lang before cut symbol childCount
                productionId token placed after) := by
  unfold reduce at reduced
  split at reduced
  · cases reduced
  rename_i cut cuts
  refine ⟨cut, cuts, ?_⟩
  dsimp only at reduced
  split at reduced
  · rename_i inner
    refine Or.inl ⟨inner, ⟨?_⟩⟩
    intro own answer events
    have answered := Option.some.inj reduced
    rw [emitReduce_eq] at answered
    let emitted : TFParser σ V :=
      { before with
        payload := answer.2.1
        heap := answer.2.2
        events := events }
    change emitted.place cut (parentNode own answer.1) _ = _ at answered
    rcases emitted.place_cases cuts fits (parentNode own answer.1)
        (reducedState lang before.cells cut symbol) with
      ⟨heap, capacity, kept, room, place⟩ | ⟨heap, empty, full, place⟩
    · have same := place.symm.trans answered
      simp only [Prod.mk.injEq] at same
      exact ⟨heap, capacity, kept,
        Or.inl ⟨same.1.symm, room, same.2.symm⟩⟩
    · have same := place.symm.trans answered
      simp only [Prod.mk.injEq] at same
      exact ⟨heap, before.capacity, Nat.le_refl _,
        Or.inr ⟨same.1.symm, empty, full, same.2.symm⟩⟩
  · rename_i token root
    obtain ⟨lookaheadEq, isEnd, bottom, accepts⟩ := isRoot_eq_some root
    refine Or.inr ⟨token, lookaheadEq, ⟨isEnd, bottom, accepts, ?_⟩⟩
    intro own
    rcases before.grow_cases (before.depth + 1) false with
      ⟨heapBefore, capacity, kept, room, grown⟩ | ⟨heap, _, grown⟩
    · rw [grown] at reduced
      simp only [Bool.not_true, Bool.false_eq_true, if_false] at reduced
      have answered := Option.some.inj reduced
      rw [emitShift_eq, emitReduce_eq] at answered
      dsimp only at answered
      let ended := sink.callShift token true before.payload heapBefore
      let rootReduced := rootReduction before.cells own token ended.1
      let answer := sink.callReduce rootReduced ended.2.1 ended.2.2
      let emitted : TFParser σ V :=
        { before with
          capacity := capacity
          rootEmitted := true
          payload := answer.2.1
          heap := answer.2.2
          events :=
            before.events ++ sink.shiftEvents token true ended.1 ++
              sink.reduceEvents rootReduced answer.1 }
      change emitted.place cut (parentNode own answer.1) _ = _ at answered
      rcases emitted.place_cases cuts (Nat.le_trans fits kept)
          (parentNode own answer.1)
          (reducedState lang before.cells cut symbol) with
        ⟨heap, capacity', kept', room', place⟩ |
          ⟨heap, _, full, place⟩
      · have same := place.symm.trans answered
        simp only [Prod.mk.injEq] at same
        exact ⟨heap, capacity', Nat.le_trans kept kept',
          Or.inl ⟨same.1.symm, Nat.le_trans room kept', heapBefore,
            same.2.symm⟩⟩
      · have deeper : before.depth + 1 ≤ before.depth :=
          Nat.le_trans room (Nat.le_of_eq full)
        omega
    · rw [grown] at reduced
      simp only [Bool.not_false, if_true, Option.some.injEq,
        Prod.mk.injEq] at reduced
      exact ⟨heap, before.capacity, Nat.le_refl _,
        Or.inr ⟨reduced.1.symm, reduced.2.symm⟩⟩

end TFParser

end TreeFeller
