import TreeFeller.Extras

namespace TreeFeller

/-!
# Driving the sink that keeps everything

While the allocator serves, shifts and reductions always succeed.  What they
leave is said here for the sink that builds trees.
-/

/-- The reductions a run has handed over, in order. -/
def reductions {V : Type} (events : List (Event V)) : List (TFReduction V) :=
  events.filterMap (fun event =>
    match event with
    | .reduce reduction _ => some reduction
    | _ => none)

namespace TFParser

/-- Memory to go on with. -/
structure Supplied {σ V : Type} (parser : TFParser σ V) : Prop where
  reliable : parser.heap.Reliable
  fits : parser.depth ≤ parser.capacity

/-- Growing the stack succeeds. -/
theorem grow_supplied {σ V : Type}
    {parser : TFParser σ V}
    (reliable : parser.heap.Reliable)
    (needed : Nat)
    (answered : Bool) :
    ∃ heap capacity,
      heap.Reliable ∧ parser.capacity ≤ capacity ∧ needed ≤ capacity ∧
        parser.grow needed answered =
          (true, { parser with heap := heap, capacity := capacity }) := by
  unfold grow
  split
  · rename_i room
    exact ⟨parser.heap, parser.capacity, reliable, Nat.le_refl _, room, rfl⟩
  · obtain ⟨states, afterStates⟩ := Heap.Reliable.allocate reliable
    obtain ⟨nodes, afterNodes⟩ := Heap.Reliable.allocate afterStates
    dsimp only
    rw [states, nodes]
    have covers := le_grownCapacity parser.capacity needed
    exact ⟨_, grownCapacity parser.capacity needed, afterNodes, by omega,
      covers, rfl⟩

/-- What a shift leaves. -/
structure Shifted
    (before : TFParser Unit RawTree)
    (token : TFToken)
    (extra : Bool)
    (state : TSStateId)
    (after : TFParser Unit RawTree) : Prop where
  cells :
    after.cells =
      before.cells ++
        [⟨token.node extra (some (.token token extra)), state⟩]
  leading : after.leading = before.leadingAfter extra
  lexer : after.lexer = before.lexer
  rootEmitted : after.rootEmitted = before.rootEmitted
  events : reductions after.events = reductions before.events
  supplied : Supplied after

/-- Shifting succeeds. -/
theorem shift_supplied
    {parser : TFParser Unit RawTree}
    (supplied : Supplied parser)
    (token : TFToken)
    (extra : Bool)
    (state : TSStateId) :
    ∃ after,
      parser.shift RawTree.sink token extra state = (true, after) ∧
        Shifted parser token extra state after := by
  let counted : TFParser Unit RawTree :=
    { parser with
      leading := parser.leadingAfter extra
      events :=
        parser.events ++ [.shift token extra (some (.token token extra))] }
  have shifted :
      parser.shift RawTree.sink token extra state =
        counted.push (token.node extra (some (.token token extra)))
          state :=
    shift_eq_push RawTree.sink parser token extra state
  have counts : counted.heap.Reliable := supplied.reliable
  obtain ⟨heap, capacity, reliable, _, room, grown⟩ :=
    grow_supplied counts (counted.depth + 1) true
  rw [shifted]
  unfold push
  rw [grown]
  refine ⟨_, rfl, rfl, rfl, rfl, rfl, ?_, reliable, ?_⟩
  · simp [reductions, counted]
  · simpa [depth, counted] using room

/-- The reduction a production hands over: the root's takes the whole stack. -/
def reductionMade
    (lang : TFLanguage)
    (parser : TFParser Unit RawTree)
    (cut : Popped RawTree)
    (symbol : TSSymbol)
    (childCount productionId : Nat)
    (lookahead : Option TFToken) :
    TFReduction RawTree :=
  let own :=
    reductionOf parser.cells cut.children symbol childCount productionId
  match isRoot lang lookahead cut.below.length parser.leading
      (reducedState lang parser.cells cut symbol) with
  | none => own
  | some token =>
      rootReduction parser.cells own token (some (.token token true))

/-- What a reduction leaves. -/
structure Reduced
    (lang : TFLanguage)
    (before : TFParser Unit RawTree)
    (cut : Popped RawTree)
    (symbol : TSSymbol)
    (childCount productionId : Nat)
    (lookahead : Option TFToken)
    (after : TFParser Unit RawTree) : Prop where
  cells :
    after.cells =
      RawStack.placed cut
        (parentNode
          (reductionOf before.cells cut.children symbol childCount
            productionId)
          (some (RawTree.ofReduction
            (reductionMade lang before cut symbol childCount productionId
              lookahead))))
        (reducedState lang before.cells cut symbol)
  leading : after.leading = before.leading
  lexer : after.lexer = before.lexer
  rootEmitted :
    after.rootEmitted =
      (before.rootEmitted ||
        (isRoot lang lookahead cut.below.length before.leading
          (reducedState lang before.cells cut symbol)).isSome)
  events :
    reductions after.events =
      reductions before.events ++
        [reductionMade lang before cut symbol childCount productionId
          lookahead]
  supplied : Supplied after

/-- Putting a parent in place succeeds. -/
theorem place_supplied
    {parser : TFParser Unit RawTree}
    (reliable : parser.heap.Reliable)
    (cut : Popped RawTree)
    (parent : TFNode RawTree)
    (state : TSStateId) :
    ∃ heap capacity,
      parser.place cut parent state =
          (true,
            { parser with
              heap := heap
              capacity := capacity
              cells := RawStack.placed cut parent state }) ∧
        heap.Reliable ∧
        (RawStack.placed cut parent state).length ≤ capacity := by
  obtain ⟨heap, capacity, still, _, room, grown⟩ :=
    grow_supplied reliable (cut.below.length + 1 + cut.trailing.length) true
  refine ⟨heap, capacity, ?_, still, ?_⟩
  · unfold place
    rw [grown]
    rfl
  · simp only [RawStack.placed, List.length_append, List.length_map,
      List.length_singleton]
    exact room

/-- Reducing succeeds wherever the stack can be cut. -/
theorem reduce_supplied
    {lang : TFLanguage}
    {parser : TFParser Unit RawTree}
    {cut : Popped RawTree}
    {childCount : Nat}
    (supplied : Supplied parser)
    (cuts : CutsAt parser.cells childCount cut)
    (symbol : TSSymbol)
    (productionId : Nat)
    (lookahead : Option TFToken) :
    ∃ after,
      parser.reduce RawTree.sink lang symbol childCount productionId
          lookahead = some (true, after) ∧
        Reduced lang parser cut symbol childCount productionId lookahead
          after := by
  unfold reduce
  rw [popped_of_cutsAt cuts]
  dsimp only
  have made :
      reductionMade lang parser cut symbol childCount productionId
          lookahead =
        reductionMade lang parser cut symbol childCount productionId
          lookahead :=
    rfl
  conv at made =>
    rhs
    unfold reductionMade
  dsimp only at made
  cases root :
      isRoot lang lookahead cut.below.length parser.leading
        (reducedState lang parser.cells cut symbol) with
  | none =>
      rw [root] at made
      unfold reducedState at root
      rw [root]
      let own :=
        reductionOf parser.cells cut.children symbol childCount productionId
      let emitted : TFParser Unit RawTree :=
        { parser with
          events :=
            parser.events ++
              [.reduce own (some (RawTree.ofReduction own))] }
      have still : emitted.heap.Reliable := supplied.reliable
      obtain ⟨heap, capacity, placed, reliable, room⟩ :=
        place_supplied still cut
          (parentNode own (some (RawTree.ofReduction own)))
          (reducedState lang parser.cells cut symbol)
      refine ⟨_, congrArg some placed, ?_⟩
      refine ⟨?_, rfl, rfl, ?_, ?_, reliable, room⟩
      · rw [made]
      · unfold reducedState
        rw [root]
        exact (Bool.or_false _).symm
      · rw [made]
        simp [reductions, emitted, own]
  | some token =>
      rw [root] at made
      unfold reducedState at root
      rw [root]
      obtain ⟨heapGrown, capacityGrown, reliableGrown, _, _, grown⟩ :=
        grow_supplied supplied.reliable (parser.depth + 1) false
      rw [grown]
      let own :=
        reductionOf parser.cells cut.children symbol childCount productionId
      let whole :=
        rootReduction parser.cells own token (some (.token token true))
      let emitted : TFParser Unit RawTree :=
        { parser with
          heap := heapGrown
          capacity := capacityGrown
          rootEmitted := true
          events :=
            parser.events ++
              [.shift token true (some (.token token true))] ++
              [.reduce whole (some (RawTree.ofReduction whole))] }
      have still : emitted.heap.Reliable := reliableGrown
      obtain ⟨heap, capacity, placed, reliable, room⟩ :=
        place_supplied still cut
          (parentNode own (some (RawTree.ofReduction whole)))
          (reducedState lang parser.cells cut symbol)
      refine ⟨_, congrArg some placed, ?_⟩
      refine ⟨?_, rfl, rfl, ?_, ?_, reliable, room⟩
      · rw [made]
      · unfold reducedState
        rw [root]
        exact (Bool.or_true _).symm
      · rw [made]
        simp [reductions, emitted, own, whole]

/-- A stack that is too small cannot be reduced. -/
theorem reduce_stuck
    {lang : TFLanguage}
    {parser : TFParser Unit RawTree}
    {childCount : Nat}
    (few : structural parser.cells < childCount)
    (symbol : TSSymbol)
    (productionId : Nat)
    (lookahead : Option TFToken) :
    parser.reduce RawTree.sink lang symbol childCount productionId
      lookahead = none := by
  unfold reduce
  cases found : popped parser.cells childCount with
  | none =>
      rfl
  | some cut =>
      unfold popped at found
      rw [scanPop_none (by rw [structural_reverse]; omega)] at found
      cases found

end TFParser

end TreeFeller
