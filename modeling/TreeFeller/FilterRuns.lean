import TreeFeller.Raw
import TreeFeller.Settling

namespace TreeFeller

/-!
# The filter over a raw sequence

The filter never sees a tree.  Handed the same events as the sink that keeps
whole trees, its stack cells still stand for those trees one by one, and its
arena is made of the runs the cells own, in the order of the cells.  One
lemma says what an event does to that correspondence; nothing later unfolds
the filter.
-/

/-- A tree of the stack and the run of entries its cell owns. -/
abbrev OwnedRun (W : Type) : Type :=
  RawTree × List (TFVisibleChild W)

namespace OwnedRun

variable {W : Type}

/-- The node an owned run stands on the filter's stack as. -/
def node (owned : OwnedRun W) : TFNode (TFFilterValue W) :=
  owned.1.node (some (.cell ⟨owned.2.length, owned.1.productionId⟩))

/-- A cell owns its run's entries. -/
@[simp] theorem owns_node (owned : OwnedRun W) :
    TFFilter.owns (node owned) = owned.2.length :=
  rfl

/-- A cell remembers the production that built its tree. -/
@[simp] theorem production_node (owned : OwnedRun W) :
    (TFFilter.cellOf (node owned).value).production =
      owned.1.productionId :=
  rfl

@[simp] theorem node_symbol (owned : OwnedRun W) :
    (node owned).symbol = owned.1.at_.symbol :=
  rfl

@[simp] theorem node_extra (owned : OwnedRun W) :
    (node owned).extra = owned.1.extra :=
  rfl

@[simp] theorem node_startByte (owned : OwnedRun W) :
    (node owned).startByte = owned.1.at_.startByte :=
  rfl

@[simp] theorem node_endByte (owned : OwnedRun W) :
    (node owned).endByte = owned.1.at_.endByte :=
  rfl

@[simp] theorem node_startPoint (owned : OwnedRun W) :
    (node owned).startPoint = owned.1.at_.startPoint :=
  rfl

@[simp] theorem node_endPoint (owned : OwnedRun W) :
    (node owned).endPoint = owned.1.at_.endPoint :=
  rfl

end OwnedRun

namespace TFParser

/-- A reduction's span depends on the spans on the stack only. -/
theorem reductionOf_congr {V V' : Type}
    {cells children : List (TFCell V)}
    {cells' children' : List (TFCell V')}
    (cellsAlike :
      cells.map (fun cell => cell.node.forget) =
        cells'.map (fun cell => cell.node.forget))
    (childrenAlike :
      children.map (fun cell => cell.node.forget) =
        children'.map (fun cell => cell.node.forget))
    (symbol childCount productionId : Nat) :
    let own := reductionOf cells children symbol childCount productionId
    let own' := reductionOf cells' children' symbol childCount productionId
    own'.startByte = own.startByte ∧ own'.endByte = own.endByte ∧
      own'.startPoint = own.startPoint ∧ own'.endPoint = own.endPoint := by
  have head :=
    congrArg (fun nodes : List (TFNode Unit) => nodes.head?) childrenAlike
  have last :=
    congrArg (fun nodes : List (TFNode Unit) => nodes.getLast?)
      childrenAlike
  have top :=
    congrArg (fun nodes : List (TFNode Unit) => nodes.getLast?) cellsAlike
  simp only [List.head?_map, List.getLast?_map] at head last top
  have topBytes : topByte cells' = topByte cells := by
    have ends := congrArg (Option.map TFNode.endByte) top
    simp only [Option.map_map] at ends
    simpa [topByte, Function.comp_def, TFNode.forget] using
      congrArg (fun found => found.getD 0) ends.symm
  have topPoints : topPoint cells' = topPoint cells := by
    have ends := congrArg (Option.map TFNode.endPoint) top
    simp only [Option.map_map] at ends
    simpa [topPoint, Function.comp_def, TFNode.forget] using
      congrArg (fun found => found.getD .origin) ends.symm
  have starts := congrArg (Option.map TFNode.startByte) head
  have startPoints := congrArg (Option.map TFNode.startPoint) head
  have ends := congrArg (Option.map TFNode.endByte) last
  have endPoints := congrArg (Option.map TFNode.endPoint) last
  simp only [Option.map_map] at starts startPoints ends endPoints
  simp only [reductionOf, List.head?_map, List.getLast?_map,
    Option.map_map, topBytes, topPoints]
  simp only [Function.comp_def, TFNode.forget] at starts startPoints
  simp only [Function.comp_def, TFNode.forget] at ends endPoints
  refine ⟨?_, ?_, ?_, ?_⟩
  · simp only [Function.comp_def, starts]
  · simp only [Function.comp_def, ends]
  · simp only [Function.comp_def, startPoints]
  · simp only [Function.comp_def, endPoints]

end TFParser

namespace TFFilter

variable {τ W : Type}

/-- What becomes of a settled run once it may have been offered for folding. -/
inductive Offer
    (sink : TFVisibleSink τ W)
    (lang : TFLanguage)
    (symbol : TSSymbol)
    (run : List (TFVisibleChild W))
    (consumer : TFConsumer τ W) :
    List (TFVisibleChild W) → TFConsumer τ W → Prop where
  /-- The run was not offered. -/
  | kept : Offer sink lang symbol run consumer run consumer
  /-- The consumer refused it. -/
  | declined
      {onHidden : TFVisibleNode W → τ → Option W × τ}
      {node : TFVisibleNode W}
      (folds : sink.onHidden = some onHidden)
      (refused : (consumer.callHidden onHidden node).1 = none) :
      Offer sink lang symbol run consumer run
        (consumer.callHidden onHidden node).2
  /-- The consumer folded it into one entry. -/
  | folded
      {onHidden : TFVisibleNode W → τ → Option W × τ}
      {node : TFVisibleNode W}
      {value : W}
      (folds : sink.onHidden = some onHidden)
      (several : 1 < run.length)
      (offered : node.children = run)
      (accepted :
        (consumer.callHidden onHidden node).1 = some value) :
      Offer sink lang symbol run consumer
        [⟨lang.publicSymbol symbol, 0, false, some value⟩]
        (consumer.callHidden onHidden node).2

/-- A consumer that does not fold keeps every run as it was. -/
theorem Offer.of_onHidden_none
    {sink : TFVisibleSink τ W}
    {lang : TFLanguage}
    {symbol : TSSymbol}
    {run after : List (TFVisibleChild W)}
    {consumer final : TFConsumer τ W}
    (noFold : sink.onHidden = none)
    (offer : Offer sink lang symbol run consumer after final) :
    after = run ∧ final = consumer := by
  cases offer with
  | kept =>
      exact ⟨rfl, rfl⟩
  | declined folds refused =>
      rw [noFold] at folds
      cases folds
  | folded folds several offered accepted =>
      rw [noFold] at folds
      cases folds

/-- Remembering a refusal touches nothing but the flags. -/
theorem decline_frame
    (lang : TFLanguage)
    (self : TFFilter τ W)
    (symbol : TSSymbol)
    (heap : Heap) :
    (self.decline lang symbol heap).1.arena = self.arena ∧
      (self.decline lang symbol heap).1.consumer = self.consumer ∧
      (self.decline lang symbol heap).1.failed = self.failed ∧
      (heap.Reliable → (self.decline lang symbol heap).2.Reliable) := by
  simp only [decline]
  split
  · exact ⟨rfl, rfl, rfl, id⟩
  · split
    · exact ⟨rfl, rfl, rfl, fun reliable => reliable.allocate.2⟩
    · exact ⟨rfl, rfl, rfl, fun reliable => reliable.allocate.2⟩

/-- Offering the run at the end of the arena. -/
theorem offerFold_offer
    (sink : TFVisibleSink τ W)
    (lang : TFLanguage)
    (self : TFFilter τ W)
    (reduction : TFReduction (TFFilterValue W))
    {below run : List (TFVisibleChild W)}
    (arena : self.arena = below ++ run)
    (heap : Heap) :
    ∃ after final,
      (self.offerFold sink lang reduction below.length heap).1.arena =
          below ++ after ∧
        (self.offerFold sink lang reduction below.length heap).1.consumer =
          final ∧
        Offer sink lang reduction.symbol run self.consumer after final ∧
        (self.offerFold sink lang reduction below.length heap).1.failed =
          self.failed ∧
        (heap.Reliable →
          (self.offerFold sink lang reduction below.length
            heap).2.Reliable) := by
  unfold offerFold
  split
  · exact ⟨run, self.consumer, arena, rfl, .kept, rfl, id⟩
  · rename_i onHidden folds
    split
    · rename_i offered
      simp only [arena, List.length_append, Nat.add_sub_cancel_left,
        List.drop_left, Bool.and_eq_true, decide_eq_true_eq] at offered ⊢
      split
      · rename_i value accepted
        refine ⟨_, _, ?_, rfl,
          .folded folds offered.1.1 rfl accepted, rfl, id⟩
        simp [parentNode]
      · rename_i refused
        obtain ⟨sameArena, sameConsumer, sameFailed, reliable'⟩ :=
          decline_frame lang
            { self with
              arena := below ++ run
              consumer :=
                (self.consumer.callHidden onHidden
                  (parentNode lang reduction false run)).2 }
            reduction.symbol heap
        exact ⟨run, _, sameArena, sameConsumer,
          .declined folds refused, sameFailed, reliable'⟩
    · exact ⟨run, self.consumer, arena, rfl, .kept, rfl, id⟩

/-- Settling a reduction's run and offering it for folding. -/
theorem settle_offer_reliable
    (sink : TFVisibleSink τ W)
    (lang : TFLanguage)
    (self : TFFilter τ W)
    (healthy : self.failed = false)
    (reduction : TFReduction (TFFilterValue W))
    {below run : List (TFVisibleChild W)}
    (arena : self.arena = below ++ run)
    {heap : Heap}
    (reliable : heap.Reliable) :
    let collected :=
      collect sink lang reduction.productionId reduction.children 0 run
        self.consumer
    ∃ settled middle after,
      self.settle sink lang reduction.productionId reduction.children
          below.length heap = (true, settled, middle) ∧
        let offered :=
          settled.offerFold sink lang reduction below.length middle
        offered.1.arena = below ++ after ∧
          Offer sink lang reduction.symbol collected.1 collected.2
            after offered.1.consumer ∧
          offered.1.failed = false ∧
          offered.2.Reliable := by
  have runEq : self.arena.drop below.length = run := by
    simp [arena]
  have belowEq : self.arena.take below.length = below := by
    simp [arena]
  obtain ⟨arenaCapacity, scratchCapacity, middle, settled, reliable'⟩ :=
    settle_reliable sink lang self reduction.productionId
      reduction.children below.length reliable
  rw [runEq, belowEq] at settled
  generalize
    collect sink lang reduction.productionId reduction.children 0 run
      self.consumer = collected at settled ⊢
  obtain ⟨after, final, arenaAfter, consumerAfter, offer, healthyAfter,
      reliableAfter⟩ :=
    offerFold_offer sink lang
      { self with
        arena := below ++ collected.1
        arenaCapacity := arenaCapacity
        scratchCapacity := scratchCapacity
        consumer := collected.2 }
      reduction rfl middle
  refine ⟨_, middle, after, settled, arenaAfter, ?_, ?_,
    reliableAfter reliable'⟩
  · rw [consumerAfter]
    exact offer
  · rw [healthyAfter]
    exact healthy

/-- What `on_reduce` does for a reduction other than the root's. -/
theorem onReduce_reliable
    (sink : TFVisibleSink τ W)
    (lang : TFLanguage)
    (self : TFFilter τ W)
    (healthy : self.failed = false)
    {reduction : TFReduction (TFFilterValue W)}
    (inner : isRoot reduction = false)
    {below run : List (TFVisibleChild W)}
    (arena : self.arena = below ++ run)
    (owned : (reduction.children.map owns).sum = run.length)
    {heap : Heap}
    (reliable : heap.Reliable) :
    let collected :=
      collect sink lang reduction.productionId reduction.children 0 run
        self.consumer
    ∃ after filter final,
      onReduce sink lang reduction self heap =
          (some (.cell ⟨after.length, reduction.productionId⟩),
            filter, final) ∧
        Offer sink lang reduction.symbol collected.1 collected.2
          after filter.consumer ∧
        filter.arena = below ++ after ∧
        filter.failed = false ∧
        final.Reliable := by
  have base : self.arena.length - run.length = below.length := by
    simp [arena]
  obtain ⟨settled, middle, after, settles, arenaAfter, offer, healthyAfter,
      reliableAfter⟩ :=
    settle_offer_reliable sink lang self healthy reduction arena reliable
  refine ⟨after, _, _, ?_, offer, arenaAfter, healthyAfter,
    reliableAfter⟩
  unfold onReduce
  rw [if_neg (by simp [healthy])]
  simp only [owned, base, settles, inner, Bool.false_eq_true, if_false]
  rw [arenaAfter, List.length_append, Nat.add_sub_cancel_left]

/-- The node the root is reported as, over the run it owns. -/
def rootNode
    (lang : TFLanguage)
    (token : TFToken)
    (productionId : Nat)
    (run : List (TFVisibleChild W)) :
    TFVisibleNode W where
  symbol := lang.publicSymbol token.symbol
  productionId := productionId
  named := (lang.symbolMetadata token.symbol).named
  extra := false
  startByte := token.startByte
  endByte := token.endByte
  startPoint := token.startPoint
  endPoint := token.endPoint
  children := run

/-- What `on_reduce` does for the root's reduction. -/
theorem onReduce_root_reliable
    (sink : TFVisibleSink τ W)
    (lang : TFLanguage)
    (self : TFFilter τ W)
    (healthy : self.failed = false)
    {reduction : TFReduction (TFFilterValue W)}
    (root : isRoot reduction = true)
    (owned :
      (reduction.children.map owns).sum = self.arena.length)
    {heap : Heap}
    (reliable : heap.Reliable) :
    let collected :=
      collect sink lang reduction.productionId reduction.children 0
        self.arena self.consumer
    ∃ run consumer value filter final,
      onReduce sink lang reduction self heap = (value, filter, final) ∧
        Offer sink lang reduction.symbol collected.1 collected.2
          run consumer ∧
        filter.arena = run ∧
        filter.failed = false ∧
        (value, filter.consumer) =
          if (lang.symbolMetadata reduction.symbol).visible then
            let answer :=
              consumer.callNode sink
                (rootNode lang reduction.span reduction.productionId
                  run)
            (answer.1.map .root, answer.2)
          else
            (none, consumer) := by
  obtain ⟨settled, middle, after, settles, arenaAfter, offer, healthyAfter,
      _⟩ :=
    settle_offer_reliable sink lang self healthy reduction
      (show self.arena = [] ++ self.arena from rfl) reliable
  have reduced :
      onReduce sink lang reduction self heap =
        let offered :=
          settled.offerFold sink lang reduction 0 middle
        let answer := offered.1.reportRoot sink lang reduction 0
        (answer.1, answer.2, offered.2) := by
    unfold onReduce
    rw [if_neg (by simp [healthy])]
    rw [List.length_nil] at settles
    simp only [owned, Nat.sub_self, settles, root, if_true]
  refine ⟨after, _, _, _, _, reduced, offer, ?_, ?_, ?_⟩
  · simp only [reportRoot]
    split <;> simpa using arenaAfter
  · simp only [reportRoot]
    split <;> exact healthyAfter
  · simp only [reportRoot]
    rw [List.length_nil, List.nil_append] at arenaAfter
    split
    · simp only [List.drop_zero, arenaAfter]
      rfl
    · rfl

/-- `collect` over owned runs, each child with its own. -/
def collectOwned
    (sink : TFVisibleSink τ W)
    (lang : TFLanguage)
    (productionId : Nat) :
    List (OwnedRun W) → Nat → TFConsumer τ W →
      List (TFVisibleChild W) × TFConsumer τ W
  | [], _, consumer => ([], consumer)
  | owned :: rest, structural, consumer =>
      let child := owned.node
      let next := nextStructural structural child
      if childVisible lang productionId structural child then
        if dropsChild sink lang productionId structural child then
          collectOwned sink lang productionId rest next consumer
        else
          let reported :=
            report sink lang productionId structural child owned.2 consumer
          let later :=
            collectOwned sink lang productionId rest next reported.2
          (reported.1 :: later.1, later.2)
      else
        let later :=
          collectOwned sink lang productionId rest next consumer
        (inheritRun (childField lang productionId structural child) owned.2 ++
            later.1,
          later.2)

/-- Splitting the undivided run by the owned counts gives the runs back. -/
theorem collect_owned
    (sink : TFVisibleSink τ W)
    (lang : TFLanguage)
    (productionId : Nat)
    (owned : List (OwnedRun W))
    (structural : Nat)
    (consumer : TFConsumer τ W) :
    collect sink lang productionId (owned.map OwnedRun.node) structural
        (owned.flatMap Prod.snd) consumer =
      collectOwned sink lang productionId owned structural consumer := by
  induction owned generalizing structural consumer with
  | nil =>
      rfl
  | cons first rest inductionHypothesis =>
      simp only [List.map_cons, List.flatMap_cons, collect, collectOwned,
        OwnedRun.owns_node, List.take_left, List.drop_left,
        inductionHypothesis]

/--
The filter's stack beside the stack of whole trees: cell by cell the same
trees, and the arena in the order of the cells.
-/
structure Lockstep
    (owned : List (OwnedRun W))
    (trees : RawStack Unit RawTree)
    (stack : RawStack (TFFilter τ W) (TFFilterValue W)) : Prop where
  trees : RawTree.Stands (owned.map Prod.fst) trees
  cells : stack.cells.map TFCell.node = owned.map OwnedRun.node
  extras : ∀ entry ∈ owned, entry.1.extra = true → entry.2 = []
  symbols : ∀ entry ∈ owned, entry.1.at_.symbol ≠ tsBuiltinSymEnd
  arena : stack.payload.arena = owned.flatMap Prod.snd
  healthy : stack.payload.failed = false
  reliable : stack.heap.Reliable

namespace Lockstep

/-- Both stacks start empty. -/
theorem initial
    (payload : τ)
    {heap : Heap}
    (reliable : heap.Reliable) :
    Lockstep ([] : List (OwnedRun W)) ⟨[], (), .reliable⟩
      ⟨[], .initial payload, heap⟩ where
  trees := rfl
  cells := rfl
  extras := by simp
  symbols := by simp
  arena := rfl
  healthy := rfl
  reliable := reliable

/-- A shifted token owns nothing and calls nobody. -/
theorem shift
    (sink : TFVisibleSink τ W)
    (lang : TFLanguage)
    {owned : List (OwnedRun W)}
    {trees trees' : RawStack Unit RawTree}
    {stack : RawStack (TFFilter τ W) (TFFilterValue W)}
    (lockstep : Lockstep owned trees stack)
    {token : TFToken}
    {extra : Bool}
    {state : TSStateId}
    (notEnd : token.symbol ≠ tsBuiltinSymEnd)
    (stepped :
      trees.step RawTree.sink (.shift token extra state) = some trees') :
    ∃ stack',
      stack.step (rawSink sink lang) (.shift token extra state) =
          some stack' ∧
        stack'.payload.consumer = stack.payload.consumer ∧
        Lockstep (owned ++ [(.token token extra, [])]) trees' stack' := by
  have stands := lockstep.trees.shift stepped
  refine ⟨_, rfl, rfl, ?_⟩
  constructor
  · simpa using stands
  · simp [lockstep.cells, OwnedRun.node, RawTree.node, RawTree.at_,
      RawTree.extra, RawTree.productionId, rawSink, TFSink.callShift,
      onShift]
  · intro entry member isExtra
    rcases List.mem_append.mp member with before | new
    · exact lockstep.extras entry before isExtra
    · rw [List.mem_singleton.mp new]
  · intro entry member
    rcases List.mem_append.mp member with before | new
    · exact lockstep.symbols entry before
    · rw [List.mem_singleton.mp new]
      exact notEnd
  · simpa [rawSink, TFSink.callShift, onShift] using lockstep.arena
  · exact lockstep.healthy
  · exact lockstep.reliable

/-- The two stacks' nodes agree but for their values. -/
theorem forget_eq
    {owned : List (OwnedRun W)}
    {trees : List (TFCell RawTree)}
    {cells : List (TFCell (TFFilterValue W))}
    (treesStand :
      trees.map TFCell.node =
        (owned.map Prod.fst).map (fun tree => tree.node (some tree)))
    (cellsStand : cells.map TFCell.node = owned.map OwnedRun.node) :
    trees.map (fun cell => cell.node.forget) =
      cells.map (fun cell => cell.node.forget) := by
  have left := congrArg (List.map TFNode.forget) treesStand
  have right := congrArg (List.map TFNode.forget) cellsStand
  simp only [List.map_map] at left right
  simp only [Function.comp_def] at left right
  rw [left, right]
  rfl

/--
A reduction other than the root's: the filter pops the cells that stand for
the popped trees, settles their runs, and its new cell stands for the new tree.
-/
theorem reduce
    (sink : TFVisibleSink τ W)
    (lang : TFLanguage)
    {owned : List (OwnedRun W)}
    {trees trees' : RawStack Unit RawTree}
    {stack : RawStack (TFFilter τ W) (TFFilterValue W)}
    (lockstep : Lockstep owned trees stack)
    {symbol : TSSymbol}
    {childCount productionId : Nat}
    {state : TSStateId}
    (notEnd : symbol ≠ tsBuiltinSymEnd)
    (stepped :
      trees.step RawTree.sink
        (.reduce symbol childCount productionId state) = some trees') :
    ∃ cut,
      TFParser.popped trees.cells childCount = some cut ∧
      ∀ below children trailing,
        owned = below ++ children ++ trailing →
        below.length = cut.below.length →
        children.length = cut.children.length →
        let collected :=
          collectOwned sink lang productionId children 0
            stack.payload.consumer
        ∃ run stack',
          stack.step (rawSink sink lang)
              (.reduce symbol childCount productionId state) =
              some stack' ∧
            Offer sink lang symbol collected.1 collected.2 run
              stack'.payload.consumer ∧
            Lockstep
              (below ++
                [(.rule
                    (TFParser.reductionOf trees.cells cut.children symbol
                      childCount productionId).span
                    productionId (children.map Prod.fst),
                  run)] ++
                trailing)
              trees' stack' := by
  obtain ⟨cut, cuts, stands⟩ := lockstep.trees.reduce stepped
  refine ⟨cut, cuts, ?_⟩
  intro below children trailing parts belowLength childrenLength
  have treeParts :
      owned.map Prod.fst =
        below.map Prod.fst ++ children.map Prod.fst ++
          trailing.map Prod.fst := by
    simp [parts]
  have standsAfter :=
    stands _ _ _ treeParts (by simpa using belowLength)
      (by simpa using childrenLength)
  obtain ⟨_, treesChildren, _⟩ :=
    TFParser.popped_map cuts lockstep.trees treeParts
      (by simpa using belowLength) (by simpa using childrenLength)
  have alike := forget_eq lockstep.trees lockstep.cells
  have extrasAlike :
      trees.cells.map (fun cell => cell.node.extra) =
        stack.cells.map (fun cell => cell.node.extra) := by
    have extras := congrArg (List.map TFNode.extra) alike
    simp only [List.map_map] at extras
    exact extras
  obtain ⟨cut', cuts', belowSame, childrenSame, _⟩ :=
    TFParser.popped_congr extrasAlike cuts
  obtain ⟨cellsBelow, cellsChildren, cellsTrailing⟩ :=
    TFParser.popped_map cuts' lockstep.cells parts
      (by rw [belowLength, belowSame])
      (by rw [childrenLength, childrenSame])
  have trailingOwnNothing :
      trailing.flatMap Prod.snd = [] := by
    rw [List.flatMap_eq_nil_iff]
    intro entry member
    refine lockstep.extras entry (by simp [parts, member]) ?_
    exact lockstep.trees.extra_of_trailing cuts treeParts
      (by simpa using belowLength) (by simpa using childrenLength)
      entry.1 (List.mem_map_of_mem member)
  have childrenAlike := forget_eq treesChildren cellsChildren
  obtain ⟨startByte, endByte, startPoint, endPoint⟩ :=
    TFParser.reductionOf_congr alike childrenAlike symbol childCount
      productionId
  have arena :
      stack.payload.arena =
        below.flatMap Prod.snd ++ children.flatMap Prod.snd := by
    rw [lockstep.arena, parts]
    simp [trailingOwnNothing]
  generalize ownEq :
    TFParser.reductionOf stack.cells cut'.children symbol childCount
      productionId = own at startByte endByte startPoint endPoint
  have ownChildren : own.children = children.map OwnedRun.node := by
    rw [← ownEq]
    exact cellsChildren
  have ownProduction : own.productionId = productionId := by
    rw [← ownEq]
    rfl
  have ownSymbol : own.symbol = symbol := by
    rw [← ownEq]
    rfl
  have inner : isRoot own = false := by
    simp only [isRoot, ownChildren, List.getLast?_map]
    cases last : children.getLast? with
    | none =>
        rfl
    | some entry =>
        have member : entry ∈ owned := by
          rw [parts]
          simp [List.mem_of_getLast? last]
        have notEnd := lockstep.symbols entry member
        simpa [OwnedRun.node, RawTree.node, TFToken.node] using notEnd
  obtain ⟨run, filter, final, reduced, offer, arenaAfter, healthy,
      reliable⟩ :=
    onReduce_reliable sink lang stack.payload lockstep.healthy inner arena
      (by
        rw [ownChildren, List.map_map, List.length_flatMap]
        rfl)
      lockstep.reliable
  rw [ownChildren, collect_owned] at offer
  rw [ownProduction] at offer reduced
  rw [ownSymbol] at offer
  refine ⟨run,
    ⟨RawStack.placed cut'
      (TFParser.parentNode own
        (some (.cell ⟨run.length, productionId⟩))) state,
      filter, final⟩, ?_, offer, ?_⟩
  · simp only [RawStack.step, cuts', ownEq, TFSink.callReduce, rawSink,
      reduced]
  · constructor
    · simpa using standsAfter
    · simp only [RawStack.placed, List.map_append, cellsBelow,
        List.map_cons, List.map_nil, List.map_map]
      congr 1
      · congr 1
        simp [TFParser.parentNode, OwnedRun.node, RawTree.node,
          TFToken.node, RawTree.at_, RawTree.extra, RawTree.productionId,
          TFReduction.span, TFParser.reductionOf, ownSymbol, startByte,
          endByte, startPoint, endPoint]
    · intro entry member isExtra
      simp only [List.mem_append, List.mem_singleton] at member
      rcases member with (inBelow | isNew) | inTrailing
      · exact lockstep.extras entry (by simp [parts, inBelow]) isExtra
      · subst isNew
        cases isExtra
      · exact lockstep.extras entry (by simp [parts, inTrailing]) isExtra
    · intro entry member
      simp only [List.mem_append, List.mem_singleton] at member
      rcases member with (inBelow | isNew) | inTrailing
      · exact lockstep.symbols entry (by simp [parts, inBelow])
      · subst isNew
        exact notEnd
      · exact lockstep.symbols entry (by simp [parts, inTrailing])
    · simp [arenaAfter, trailingOwnNothing]
    · exact healthy
    · exact reliable

/--
The root's reduction: it takes every cell and the end token, settles them as
its own children, and reports the root over what it owns.
-/
theorem close
    (sink : TFVisibleSink τ W)
    (lang : TFLanguage)
    {owned : List (OwnedRun W)}
    {trees : RawStack Unit RawTree}
    {stack : RawStack (TFFilter τ W) (TFFilterValue W)}
    (lockstep : Lockstep owned trees stack)
    {symbol : TSSymbol}
    {childCount productionId : Nat}
    {endToken : TFToken}
    (isEnd : endToken.symbol = tsBuiltinSymEnd)
    {tree : Option RawTree}
    {rest : Unit × Heap}
    (closed :
      trees.close RawTree.sink symbol childCount productionId endToken =
        some (tree, rest)) :
    let collected :=
      collectOwned sink lang productionId
        (owned ++ [(.token endToken true, [])]) 0 stack.payload.consumer
    ∃ token run consumer value filter final,
      token.symbol = symbol ∧
        tree =
          some (.rule token productionId
            (owned.map Prod.fst ++ [.token endToken true])) ∧
        stack.close (rawSink sink lang) symbol childCount productionId
            endToken = some (value, filter, final) ∧
        Offer sink lang symbol collected.1 collected.2 run consumer ∧
        filter.arena = run ∧
        filter.failed = false ∧
        (value, filter.consumer) =
          if (lang.symbolMetadata symbol).visible then
            let answer :=
              consumer.callNode sink (rootNode lang token productionId run)
            (answer.1.map .root, answer.2)
          else
            (none, consumer) := by
  obtain ⟨cut, cuts, treeEq⟩ := lockstep.trees.close closed
  have alike := forget_eq lockstep.trees lockstep.cells
  have extrasAlike :
      trees.cells.map (fun cell => cell.node.extra) =
        stack.cells.map (fun cell => cell.node.extra) := by
    have extras := congrArg (List.map TFNode.extra) alike
    simp only [List.map_map] at extras
    exact extras
  obtain ⟨cut', cuts', _⟩ := TFParser.popped_congr extrasAlike cuts
  generalize ownEq :
    TFParser.reductionOf stack.cells cut'.children symbol childCount
      productionId = own
  let reduction := TFParser.rootReduction stack.cells own endToken
    (some (.cell ⟨0, 0⟩))
  have children :
      reduction.children =
        (owned ++ [(RawTree.token endToken true, [])]).map
          OwnedRun.node := by
    simp only [reduction, TFParser.rootReduction, lockstep.cells,
      List.map_append]
    rfl
  have root : isRoot reduction = true := by
    simp [isRoot, reduction, TFParser.rootReduction, TFToken.node, isEnd]
  have ownProduction : reduction.productionId = productionId := by
    simp only [reduction, TFParser.rootReduction, ← ownEq]
    rfl
  have ownSymbol : reduction.symbol = symbol := by
    simp only [reduction, TFParser.rootReduction, ← ownEq]
    rfl
  have arena :
      stack.payload.arena =
        (owned ++ [(RawTree.token endToken true, [])]).flatMap
          Prod.snd := by
    simp [lockstep.arena]
  obtain ⟨run, consumer, value, filter, final, reduced, offer, arenaAfter,
      healthy, reported⟩ :=
    onReduce_root_reliable sink lang stack.payload lockstep.healthy root
      (by
        rw [children, arena, List.map_map, List.length_flatMap]
        rfl)
      lockstep.reliable
  rw [children, arena, collect_owned] at offer
  rw [ownProduction] at offer reported
  rw [ownSymbol] at offer reported
  refine ⟨reduction.span, run, consumer, value, filter, final, ownSymbol,
    ?_, ?_, offer, arenaAfter, healthy, reported⟩
  · have heads :=
      congrArg (fun nodes : List (TFNode Unit) => nodes.head?) alike
    simp only [List.head?_map] at heads
    have starts := congrArg (Option.map TFNode.startByte) heads
    have startPoints := congrArg (Option.map TFNode.startPoint) heads
    simp only [Option.map_map, Function.comp_def, TFNode.forget]
      at starts startPoints
    rw [treeEq]
    simp only [TFParser.rootReduction, reduction, TFReduction.span,
      List.head?_map, Option.map_map, Function.comp_def, starts,
      startPoints]
    rw [← ownEq]
    rfl
  · simp only [RawStack.close, cuts', ownEq, TFSink.callReduce,
      TFSink.callShift, rawSink, onShift]
    rw [← reduced]

end Lockstep

/-! ## Two filters on one sequence -/

/-- A tree on two filters' stacks, with the run it owns on each. -/
structure PairedRuns (W W' : Type) where
  tree : RawTree
  left : List (TFVisibleChild W)
  right : List (TFVisibleChild W')

namespace PairedRuns

variable {W W' : Type}

/-- The first filter's part. -/
def leftRun (self : PairedRuns W W') : OwnedRun W :=
  (self.tree, self.left)

/-- The second filter's part. -/
def rightRun (self : PairedRuns W W') : OwnedRun W' :=
  (self.tree, self.right)

/-- A token owns nothing on either stack. -/
def token (shifted : TFToken) (extra : Bool) : PairedRuns W W' :=
  ⟨.token shifted extra, [], []⟩

end PairedRuns

/-- Two filters beside the same stack of whole trees. -/
structure Paired {τ τ' W W' : Type}
    (cells : List (PairedRuns W W'))
    (trees : RawStack Unit RawTree)
    (left : RawStack (TFFilter τ W) (TFFilterValue W))
    (right : RawStack (TFFilter τ' W') (TFFilterValue W')) : Prop where
  left : Lockstep (cells.map PairedRuns.leftRun) trees left
  right : Lockstep (cells.map PairedRuns.rightRun) trees right

namespace Paired

section Steps

variable {τ τ' W W' : Type}
variable (leftSink : TFVisibleSink τ W)
variable (rightSink : TFVisibleSink τ' W')
variable (lang : TFLanguage)
variable {cells : List (PairedRuns W W')}
variable {trees trees' : RawStack Unit RawTree}
variable {left : RawStack (TFFilter τ W) (TFFilterValue W)}
variable {right : RawStack (TFFilter τ' W') (TFFilterValue W')}

/-- The trees of the cells, whichever filter they are read from. -/
theorem stands (paired : Paired cells trees left right) :
    RawTree.Stands (cells.map PairedRuns.tree) trees := by
  have stands := paired.left.trees
  simpa [PairedRuns.leftRun, Function.comp_def] using stands

/-- Both filters shift a token without a call. -/
theorem shift
    (paired : Paired cells trees left right)
    {shifted : TFToken}
    {extra : Bool}
    {state : TSStateId}
    (notEnd : shifted.symbol ≠ tsBuiltinSymEnd)
    (stepped :
      trees.step RawTree.sink (.shift shifted extra state) =
        some trees') :
    ∃ left' right',
      left.step (rawSink leftSink lang) (.shift shifted extra state) =
          some left' ∧
        right.step (rawSink rightSink lang)
          (.shift shifted extra state) = some right' ∧
        left'.payload.consumer = left.payload.consumer ∧
        right'.payload.consumer = right.payload.consumer ∧
        Paired (cells ++ [.token shifted extra]) trees' left' right' := by
  obtain ⟨left', leftStepped, leftSame, leftStack⟩ :=
    paired.left.shift leftSink lang notEnd stepped
  obtain ⟨right', rightStepped, rightSame, rightStack⟩ :=
    paired.right.shift rightSink lang notEnd stepped
  refine ⟨left', right', leftStepped, rightStepped, leftSame, rightSame,
    ?_⟩
  constructor
  · simpa [PairedRuns.leftRun, PairedRuns.token] using leftStack
  · simpa [PairedRuns.rightRun, PairedRuns.token] using rightStack

/-- Both filters reduce over the runs of the same trees. -/
theorem reduce
    (paired : Paired cells trees left right)
    {symbol : TSSymbol}
    {childCount productionId : Nat}
    {state : TSStateId}
    (notEnd : symbol ≠ tsBuiltinSymEnd)
    (stepped :
      trees.step RawTree.sink
        (.reduce symbol childCount productionId state) = some trees') :
    ∃ below children trailing span leftRun rightRun left' right',
      cells = below ++ children ++ trailing ∧
        (∀ cell ∈ trailing,
          cell.tree.extra = true ∧ cell.left = [] ∧ cell.right = []) ∧
        left.step (rawSink leftSink lang)
          (.reduce symbol childCount productionId state) = some left' ∧
        right.step (rawSink rightSink lang)
          (.reduce symbol childCount productionId state) =
            some right' ∧
        (let collected :=
          collectOwned leftSink lang productionId
            (children.map PairedRuns.leftRun) 0 left.payload.consumer
        Offer leftSink lang symbol collected.1 collected.2 leftRun
          left'.payload.consumer) ∧
        (let collected :=
          collectOwned rightSink lang productionId
            (children.map PairedRuns.rightRun) 0 right.payload.consumer
        Offer rightSink lang symbol collected.1 collected.2 rightRun
          right'.payload.consumer) ∧
        Paired
          (below ++
            [⟨.rule span productionId (children.map PairedRuns.tree),
              leftRun, rightRun⟩] ++
            trailing)
          trees' left' right' := by
  obtain ⟨cut, cuts, reduceLeft⟩ :=
    paired.left.reduce leftSink lang notEnd stepped
  obtain ⟨cut', cuts', reduceRight⟩ :=
    paired.right.reduce rightSink lang notEnd stepped
  have sameCut : cut = cut' := by
    rw [cuts] at cuts'
    exact Option.some.inj cuts'
  subst sameCut
  obtain ⟨_, _, _, treeParts, belowLength, childrenLength⟩ :=
    paired.stands.split cuts
  obtain ⟨front, trailing, cellParts, frontTrees, trailingTrees⟩ :=
    List.map_eq_append_iff.mp treeParts
  obtain ⟨below, children, frontParts, belowTrees, childrenTrees⟩ :=
    List.map_eq_append_iff.mp frontTrees
  subst frontParts
  subst cellParts
  subst belowTrees
  subst childrenTrees
  subst trailingTrees
  rw [List.length_map] at belowLength childrenLength
  have extras :=
    paired.stands.extra_of_trailing cuts treeParts
      (by simpa using belowLength) (by simpa using childrenLength)
  obtain ⟨leftRun, left', leftStepped, leftOffer, leftStack⟩ :=
    reduceLeft (below.map PairedRuns.leftRun)
      (children.map PairedRuns.leftRun)
      (trailing.map PairedRuns.leftRun)
      (by simp) (by simpa using belowLength)
      (by simpa using childrenLength)
  obtain ⟨rightRun, right', rightStepped, rightOffer, rightStack⟩ :=
    reduceRight (below.map PairedRuns.rightRun)
      (children.map PairedRuns.rightRun)
      (trailing.map PairedRuns.rightRun)
      (by simp) (by simpa using belowLength)
      (by simpa using childrenLength)
  refine ⟨below, children, trailing,
    (TFParser.reductionOf trees.cells cut.children symbol childCount
      productionId).span,
    leftRun, rightRun, left', right', rfl, ?_, leftStepped, rightStepped, leftOffer, rightOffer, ?_⟩
  · intro cell member
    have isExtra := extras cell.tree (List.mem_map_of_mem member)
    refine ⟨isExtra, ?_, ?_⟩
    · exact paired.left.extras cell.leftRun
        (List.mem_map_of_mem (by simp [member])) isExtra
    · exact paired.right.extras cell.rightRun
        (List.mem_map_of_mem (by simp [member])) isExtra
  · constructor
    · simpa [PairedRuns.leftRun, Function.comp_def] using leftStack
    · simpa [PairedRuns.rightRun, Function.comp_def] using rightStack

/-- Both filters report the root over the runs of the same trees. -/
theorem close
    (paired : Paired cells trees left right)
    {symbol : TSSymbol}
    {childCount productionId : Nat}
    {endToken : TFToken}
    (isEnd : endToken.symbol = tsBuiltinSymEnd)
    {tree : Option RawTree}
    {rest : Unit × Heap}
    (closed :
      trees.close RawTree.sink symbol childCount productionId endToken =
        some (tree, rest)) :
    let children := cells ++ [.token endToken true]
    ∃ span leftRun leftConsumer leftRoot left' leftHeap
        rightRun rightConsumer rightRoot right' rightHeap,
      span.symbol = symbol ∧
        tree =
          some (.rule span productionId
            (children.map PairedRuns.tree)) ∧
        left.close (rawSink leftSink lang) symbol childCount productionId
            endToken = some (leftRoot, left', leftHeap) ∧
        right.close (rawSink rightSink lang) symbol childCount
            productionId endToken =
          some (rightRoot, right', rightHeap) ∧
        (let collected :=
          collectOwned leftSink lang productionId
            (children.map PairedRuns.leftRun) 0 left.payload.consumer
        Offer leftSink lang symbol collected.1 collected.2 leftRun
          leftConsumer) ∧
        (let collected :=
          collectOwned rightSink lang productionId
            (children.map PairedRuns.rightRun) 0 right.payload.consumer
        Offer rightSink lang symbol collected.1 collected.2 rightRun
          rightConsumer) ∧
        left'.consumer =
          (if (lang.symbolMetadata symbol).visible then
            (leftConsumer.callNode leftSink
              (rootNode lang span productionId leftRun)).2
          else
            leftConsumer) ∧
        right'.consumer =
          (if (lang.symbolMetadata symbol).visible then
            (rightConsumer.callNode rightSink
              (rootNode lang span productionId rightRun)).2
          else
            rightConsumer) := by
  obtain ⟨span, leftRun, leftConsumer, leftRoot, left', leftHeap,
      symbolEq, treeEq, leftClosed, leftOffer, _, _, leftReported⟩ :=
    paired.left.close leftSink lang isEnd closed
  obtain ⟨span', rightRun, rightConsumer, rightRoot, right', rightHeap,
      _, treeEq', rightClosed, rightOffer, _, _, rightReported⟩ :=
    paired.right.close rightSink lang isEnd closed
  have sameSpan : span' = span := by
    have same := Option.some.inj (treeEq'.symm.trans treeEq)
    injection same
  subst sameSpan
  refine ⟨span', leftRun, leftConsumer, leftRoot, left', leftHeap,
    rightRun, rightConsumer, rightRoot, right', rightHeap, symbolEq, ?_,
    leftClosed, rightClosed, ?_, ?_, ?_, ?_⟩
  · rw [treeEq]
    simp [PairedRuns.leftRun, PairedRuns.token, Function.comp_def]
  · simpa [PairedRuns.leftRun, PairedRuns.token] using leftOffer
  · simpa [PairedRuns.rightRun, PairedRuns.token] using rightOffer
  · split at leftReported
    · rename_i visible
      rw [if_pos visible]
      exact (Prod.mk.inj leftReported).2
    · rename_i hidden
      rw [if_neg hidden]
      exact (Prod.mk.inj leftReported).2
  · split at rightReported
    · rename_i visible
      rw [if_pos visible]
      exact (Prod.mk.inj rightReported).2
    · rename_i hidden
      rw [if_neg hidden]
      exact (Prod.mk.inj rightReported).2

end Steps

end Paired

end TFFilter

end TreeFeller
