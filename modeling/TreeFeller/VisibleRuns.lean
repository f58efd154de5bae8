import TreeFeller.Folding
import TreeFeller.Forests

namespace TreeFeller

open StatefulProgram

/-!
# Visible parses beside raw ones

The filter is one of the driver's consumers.  Where memory does not run out it
changes nothing about the parse: it goes through, and fails, exactly where a
raw parse of the same source does.  What its consumer is handed is the visible
projection of the tree the raw parse builds.
-/

namespace TFFilter

variable {τ W : Type}

/-- With memory enough the filter never gives up. -/
theorem onReduce_healthy
    (sink : TFVisibleSink τ W)
    (lang : TFLanguage)
    {self : TFFilter τ W}
    (healthy : self.failed = false)
    (reduction : TFReduction (TFFilterValue W))
    {heap : Heap}
    (reliable : heap.Reliable) :
    (onReduce sink lang reduction self heap).2.1.failed = false ∧
      (onReduce sink lang reduction self heap).2.2.Reliable := by
  let base := self.arena.length - (reduction.children.map owns).sum
  have within : (self.arena.take base).length = base := by
    rw [List.length_take]
    exact Nat.min_eq_left (Nat.sub_le _ _)
  obtain ⟨settled, middle, after, settles, _, _, healthyAfter,
      reliableAfter⟩ :=
    settle_offer_reliable sink lang self healthy reduction
      (List.take_append_drop base self.arena).symm reliable
  rw [within] at settles healthyAfter reliableAfter
  unfold onReduce
  rw [if_neg (by simp [healthy])]
  dsimp only
  rw [show self.arena.length - (reduction.children.map owns).sum = base
    from rfl, settles]
  dsimp only
  split
  · refine ⟨?_, reliableAfter⟩
    unfold reportRoot
    dsimp only
    split
    · exact healthyAfter
    · exact healthyAfter
  · exact ⟨healthyAfter, reliableAfter⟩

/-- So does no event make it give up. -/
theorem step_healthy
    {sink : TFVisibleSink τ W}
    {lang : TFLanguage}
    {stack next : RawStack (TFFilter τ W) (TFFilterValue W)}
    {event : RawEvent}
    (healthy : stack.payload.failed = false)
    (reliable : stack.heap.Reliable)
    (stepped : stack.step (rawSink sink lang) event = some next) :
    next.payload.failed = false ∧ next.heap.Reliable := by
  cases event with
  | shift token extra state =>
      cases stepped
      exact ⟨healthy, reliable⟩
  | reduce symbol childCount productionId state =>
      simp only [RawStack.step] at stepped
      split at stepped
      · cases stepped
      · cases stepped
        exact onReduce_healthy sink lang healthy _ reliable

/-- Nor does the root's reduction. -/
theorem close_healthy
    {sink : TFVisibleSink τ W}
    {lang : TFLanguage}
    {stack : RawStack (TFFilter τ W) (TFFilterValue W)}
    {symbol : TSSymbol}
    {childCount productionId : Nat}
    {token : TFToken}
    {root : Option (TFFilterValue W)}
    {payload : TFFilter τ W}
    {heap : Heap}
    (healthy : stack.payload.failed = false)
    (reliable : stack.heap.Reliable)
    (closed :
      stack.close (rawSink sink lang) symbol childCount productionId token =
        some (root, payload, heap)) :
    payload.failed = false ∧ heap.Reliable := by
  simp only [RawStack.close] at closed
  split at closed
  · cases closed
  · rename_i cut cuts
    have reduced :=
      onReduce_healthy sink lang healthy
        (TFParser.rootReduction stack.cells
          (TFParser.reductionOf stack.cells cut.children symbol childCount
            productionId)
          token (some (.cell ⟨0, 0⟩))) reliable
    simp only [TFSink.callReduce, TFSink.callShift, rawSink, onShift,
      Option.some.injEq] at closed
    rw [closed] at reduced
    exact reduced

open TFParser in
/-- A raw consumer and a filter are in step while memory lasts. -/
theorem inStep_rawSink {σ V : Type}
    {sink : TFSink σ V}
    (shifts : sink.onShift.isSome = true)
    (reduces : sink.onReduce.isSome = true)
    (keeps : sink.KeepsHeap)
    (visibleSink : TFVisibleSink τ W)
    (lang : TFLanguage) :
    InStep Heap.BothReliable sink (rawSink visibleSink lang)
      (fun _ stack => stack.payload.failed = false)
      (fun _ filter => filter.failed = false)
      (fun _ _ _ filter => filter.failed = false) where
  shifts := shifts
  reduces := reduces
  allocated := fun healthy _ => healthy
  step := by
    intro stack stack' next next' event healthy heaps _ stepped stepped'
    obtain ⟨healthy', reliable'⟩ :=
      step_healthy healthy heaps.2 stepped'
    refine ⟨⟨?_, reliable'⟩, healthy'⟩
    rw [keeps.step stepped]
    exact heaps.1
  close := by
    intro stack stack' symbol childCount productionId token root root'
      payload payload' heap heap' healthy heaps _ closed closed'
    obtain ⟨healthy', reliable'⟩ :=
      close_healthy healthy heaps.2 closed'
    refine ⟨⟨?_, reliable'⟩, healthy'⟩
    rw [keeps.close closed]
    exact heaps.1
  parts := id
  rootParts := id

end TFFilter

/-- A visible parse that ended as a raw one of the same source. -/
structure TFVisibleResult.SameEnd {σ V τ W : Type}
    (raw : TFResult σ V)
    (visible : TFVisibleResult τ W) : Prop where
  ok : visible.ok = raw.ok
  error : visible.error = raw.parser.error
  filterFailed : visible.filterFailed = false

open TFParser in
/-- A run beside a filter whose memory lasts ends the same, and well. -/
theorem TFParser.SameResult.healthy {σ V τ W : Type}
    {lang : TFLanguage}
    {fuel : Nat}
    {sink : TFSink σ V}
    {visibleSink : TFVisibleSink τ W}
    {result : TFResult σ V}
    {result' : TFResult (TFFilter τ W) (TFFilterValue W)}
    (same :
      SameResult (.consumer lang sink fuel)
        (.consumer lang (TFFilter.rawSink visibleSink lang) fuel)
        Heap.BothReliable (fun _ stack => stack.payload.failed = false)
        (fun _ filter => filter.failed = false)
        (fun _ _ _ filter => filter.failed = false) result result') :
    result'.parser.payload.failed = false := by
  cases same with
  | accepted abreast =>
      exact abreast.together
  | reported crowned =>
      exact crowned.rooted
  | failed stranded =>
      exact stranded.parted

open TFParser in
/--
With memory enough a visible parse goes through exactly where a raw parse of
the same source does, and fails with the same error otherwise, whatever the two
consumers are: whether runs are folded and anonymous tokens left out or not.
-/
theorem tfParseVisible_ends_as_tfParse {σ V τ W : Type}
    {lang : TFLanguage}
    (loaded : lang.Loaded)
    {sink : TFSink σ V}
    (shifts : sink.onShift.isSome = true)
    (reduces : sink.onReduce.isSome = true)
    (keeps : sink.KeepsHeap)
    (visibleSink : TFVisibleSink τ W)
    (fuel : Nat)
    (source : List UInt8)
    (payload : σ)
    (payload' : τ)
    {heap heap' : Heap}
    (reliable : heap.Reliable)
    (reliable' : heap'.Reliable) :
    Option.Rel TFVisibleResult.SameEnd
      (tfParse lang sink fuel source payload heap)
      (tfParseVisible lang visibleSink fuel source payload' heap') := by
  have ran :=
    tfParse_inStep loaded Heap.bisimulation_bothReliable
      (TFFilter.inStep_rawSink shifts reduces keeps visibleSink lang) fuel
      source payload (.initial payload') ⟨reliable, reliable'⟩ rfl
  unfold tfParseVisible
  generalize tfParse lang sink fuel source payload heap = outcome at ran ⊢
  generalize
    tfParse lang (TFFilter.rawSink visibleSink lang) fuel source
      (.initial payload') heap' = outcome' at ran ⊢
  cases ran with
  | none =>
      exact .none
  | some same =>
      have healthy := same.healthy
      have agree := same.agree
      refine .some ⟨?_, agree.error.symm, ?_⟩
      · unfold TFVisibleResult.ofRaw
        dsimp only
        rw [healthy, agree.ok]
        exact Bool.and_true _
      · unfold TFVisibleResult.ofRaw
        dsimp only
        rw [healthy]
        exact Bool.and_false _

/--
A consumer that folds one repetition and declines the other: its parse goes
through, and so does the raw one.
-/
theorem tfParseVisible_ends_as_tfParse_repeats :
    (tfParse repeatsGrammar countingSink 60 [97, 97, 97, 98, 98, 98] 0
            .reliable).map TFResult.ok =
        some true ∧
      Option.Rel TFVisibleResult.SameEnd
        (tfParse repeatsGrammar countingSink 60 [97, 97, 97, 98, 98, 98] 0
          .reliable)
        (tfParseVisible repeatsGrammar
          (foldingSink (fun _ node => node.symbol == 4) false) 60
          [97, 97, 97, 98, 98, 98] [] .reliable) := by
  refine ⟨by decide +kernel, ?_⟩
  exact tfParseVisible_ends_as_tfParse repeatsGrammar_loaded rfl rfl
    countingSink_keepsHeap
    (foldingSink (fun _ node => node.symbol == 4) false) 60
    [97, 97, 97, 98, 98, 98] 0 [] (fun _ => rfl) (fun _ => rfl)

/-! ## The projection of the raw tree -/

namespace RawTree

mutual

/-- No node of a tree is the end of the input. -/
def EndFree : RawTree → Prop
  | .token shifted _ => shifted.symbol ≠ tsBuiltinSymEnd
  | .rule at_ _ children =>
      at_.symbol ≠ tsBuiltinSymEnd ∧ EndFreeAll children

/-- No node of any of some trees is. -/
def EndFreeAll : List RawTree → Prop
  | [] => True
  | tree :: rest => EndFree tree ∧ EndFreeAll rest

end

/-- No end in two lists of trees. -/
theorem endFreeAll_append
    {first second : List RawTree} :
    EndFreeAll (first ++ second) ↔
      EndFreeAll first ∧ EndFreeAll second := by
  induction first with
  | nil =>
      simp [EndFreeAll]
  | cons tree rest inductionHypothesis =>
      simp only [List.cons_append, EndFreeAll, inductionHypothesis,
        and_assoc]

/--
A tree a visible projection is defined for: it fits the tables, its root shows,
and the end of the input is the root's last child and stands nowhere else.
-/
structure Shows (lang : TFLanguage) (tree : RawTree) : Prop where
  fits : tree.FitsTables lang
  visible : (lang.symbolMetadata tree.at_.symbol).visible = true
  ends :
    ∃ at_ productionId children token,
      tree = .rule at_ productionId (children ++ [.token token true]) ∧
        token.symbol = tsBuiltinSymEnd ∧ EndFreeAll children

end RawTree

namespace TFFilter

open RawTree

/--
A filter beside the stack of whole trees.  Where the trees fit the tables it
holds their projections, and its consumer has been handed the nodes below them.
-/
structure Projecting
    (lang : TFLanguage)
    (trees : RawStack Unit RawTree)
    (filter :
      RawStack (TFFilter Unit VisibleTree) (TFFilterValue VisibleTree)) :
    Prop where
  healthy : filter.payload.failed = false
  standing :
    ∃ forest,
      Stands forest trees ∧
        (FitsTablesAll lang forest → EndFreeAll forest →
          Lockstep (forest.map (owned lang)) trees filter ∧
            filter.payload.consumer =
              ⟨(), keptEvents (nodesBelowAll lang forest)⟩)

section Projections

variable {lang : TFLanguage}
variable {trees trees' : RawStack Unit RawTree}
variable {filter filter' :
  RawStack (TFFilter Unit VisibleTree) (TFFilterValue VisibleTree)}

/-- What the driver allocates does not matter. -/
theorem Projecting.allocated
    (projecting : Projecting lang trees filter)
    {heap heap' : Heap}
    (reliable : heap'.Reliable) :
    Projecting lang { trees with heap := heap }
      { filter with heap := heap' } where
  healthy := projecting.healthy
  standing := by
    obtain ⟨forest, stands, held⟩ := projecting.standing
    refine ⟨forest, stands, ?_⟩
    intro fits endFree
    obtain ⟨lockstep, handed⟩ := held fits endFree
    exact ⟨⟨lockstep.trees, lockstep.cells, lockstep.extras,
      lockstep.symbols, lockstep.arena, lockstep.healthy, reliable⟩, handed⟩

/-- A token shows nothing below itself. -/
theorem Projecting.shift
    (projecting : Projecting lang trees filter)
    (reliable : filter.heap.Reliable)
    {token : TFToken}
    {extra : Bool}
    {state : TSStateId}
    (stepped :
      trees.step RawTree.sink (.shift token extra state) = some trees')
    (stepped' :
      filter.step (rawSink VisibleTree.sink lang)
        (.shift token extra state) = some filter') :
    Projecting lang trees' filter' := by
  obtain ⟨forest, stands, held⟩ := projecting.standing
  refine
    ⟨(step_healthy projecting.healthy reliable stepped').1,
      forest ++ [.token token extra], stands.shift stepped, ?_⟩
  intro fits endFree
  obtain ⟨fitsOld, _⟩ := fitsTablesAll_append.mp fits
  obtain ⟨endFreeOld, notEnd, _⟩ := endFreeAll_append.mp endFree
  obtain ⟨lockstep, handed⟩ := held fitsOld endFreeOld
  obtain ⟨after, stepped'', sameConsumer, lockstep'⟩ :=
    lockstep.shift VisibleTree.sink lang notEnd stepped
  rw [stepped'] at stepped''
  cases stepped''
  rw [List.map_append]
  refine ⟨lockstep', ?_⟩
  rw [sameConsumer, handed, nodesBelowAll_append]
  simp [nodesBelowAll, nodesBelow]

/-- A reduction hands over the nodes its production shows. -/
theorem Projecting.reduce
    (loaded : lang.Loaded)
    (projecting : Projecting lang trees filter)
    (reliable : filter.heap.Reliable)
    {symbol : TSSymbol}
    {childCount productionId : Nat}
    {state : TSStateId}
    (stepped :
      trees.step RawTree.sink
        (.reduce symbol childCount productionId state) = some trees')
    (stepped' :
      filter.step (rawSink VisibleTree.sink lang)
        (.reduce symbol childCount productionId state) = some filter') :
    Projecting lang trees' filter' := by
  obtain ⟨forest, stands, held⟩ := projecting.standing
  obtain ⟨cut, cuts, standsAfter⟩ := stands.reduce stepped
  obtain ⟨below, children, trailing, parts, belowLength, childrenLength⟩ :=
    stands.split cuts
  have extras :=
    stands.extra_of_trailing cuts parts belowLength childrenLength
  refine
    ⟨(step_healthy projecting.healthy reliable stepped').1, _,
      standsAfter below children trailing parts belowLength childrenLength,
      ?_⟩
  intro fits endFree
  simp only [fitsTablesAll_append, FitsTablesAll, FitsTables, and_true]
    at fits
  simp only [endFreeAll_append, EndFreeAll, EndFree, and_true] at endFree
  obtain ⟨⟨fitsBelow, inRange, columns, fitsChildren⟩, fitsTrailing⟩ := fits
  obtain ⟨⟨freeBelow, rootNotEnd, freeChildren⟩, freeTrailing⟩ := endFree
  have notEnd : symbol ≠ tsBuiltinSymEnd := rootNotEnd
  obtain ⟨lockstep, handed⟩ :=
    held
      (by
        rw [parts]
        simp only [fitsTablesAll_append]
        exact ⟨⟨fitsBelow, fitsChildren⟩, fitsTrailing⟩)
      (by
        rw [parts]
        simp only [endFreeAll_append]
        exact ⟨⟨freeBelow, freeChildren⟩, freeTrailing⟩)
  obtain ⟨cut', cuts', reduces⟩ :=
    lockstep.reduce VisibleTree.sink lang notEnd stepped
  rw [cuts] at cuts'
  cases cuts'
  obtain ⟨run, after, stepped'', offer, lockstep'⟩ :=
    reduces (below.map (owned lang)) (children.map (owned lang))
      (trailing.map (owned lang)) (by simp [parts])
      (by simpa using belowLength) (by simpa using childrenLength)
  rw [stepped'] at stepped''
  cases stepped''
  rw [handed, collectOwned_project loaded inRange children 0
    (by simpa using columns)] at offer
  obtain ⟨runEq, consumerEq⟩ := offer.of_onHidden_none rfl
  subst runEq
  have trailingEmpty : nodesBelowAll lang trailing = [] :=
    nodesBelowAll_of_extra extras
  rw [map_fst_owned] at lockstep'
  refine ⟨by simpa [owned, project] using lockstep', ?_⟩
  rw [consumerEq, parts]
  simp [nodesBelowAll_append, nodesBelowAll, nodesBelow, trailingEmpty,
    keptEvents]

/-- The root's value is the projection of the tree of the root. -/
theorem Projecting.close
    (loaded : lang.Loaded)
    (projecting : Projecting lang trees filter)
    {symbol : TSSymbol}
    {childCount productionId : Nat}
    {endToken : TFToken}
    {tree : RawTree}
    {rest : Unit × Heap}
    {root : Option (TFFilterValue VisibleTree)}
    {payload : TFFilter Unit VisibleTree}
    {heap : Heap}
    (closed :
      trees.close RawTree.sink symbol childCount productionId endToken =
        some (some tree, rest))
    (closed' :
      filter.close (rawSink VisibleTree.sink lang) symbol childCount
        productionId endToken = some (root, payload, heap))
    (shows_ : tree.Shows lang) :
    root = some (.root (tree.projection lang)) ∧
      payload.consumer.events =
        (tree.reported lang).map
          (fun node => .node node (some (.node node))) := by
  obtain ⟨forest, stands, held⟩ := projecting.standing
  obtain ⟨cut, cuts, treeEq⟩ := stands.close closed
  have isTree := Option.some.inj treeEq
  have fits := shows_.fits
  have visible := shows_.visible
  obtain ⟨at_, production, children, token, shape, isEnd, endFree⟩ :=
    shows_.ends
  rw [isTree, RawTree.rule.injEq] at shape
  obtain ⟨_, _, parts⟩ := shape
  obtain ⟨rfl, same⟩ := List.append_inj' parts rfl
  simp only [List.cons.injEq, RawTree.token.injEq, and_true] at same
  rw [← same] at isEnd
  have whole := fits
  rw [isTree, RawTree.FitsTables] at whole
  obtain ⟨inRange, columns, fitsChildren⟩ := whole
  obtain ⟨lockstep, handed⟩ :=
    held (fitsTablesAll_append.mp fitsChildren).1 endFree
  obtain ⟨span, run, consumer, value, last, final, symbolEq, treeEq',
      closedFilter, offer, arena, healthy, reported⟩ :=
    lockstep.close VisibleTree.sink lang isEnd closed
  rw [map_fst_owned] at treeEq'
  have isTree' := Option.some.inj treeEq'
  rw [closed'] at closedFilter
  simp only [Option.some.injEq, Prod.mk.injEq] at closedFilter
  obtain ⟨rootEq, payloadEq, _⟩ := closedFilter
  have ended :
      forest.map (owned lang) ++ [(RawTree.token endToken true, [])] =
        (forest ++ [RawTree.token endToken true]).map (owned lang) := by
    simp [owned, project]
  rw [handed, ended,
    collectOwned_project loaded inRange _ 0 (by simpa using columns)]
    at offer
  obtain ⟨runEq, consumerEq⟩ := offer.of_onHidden_none rfl
  have rootVisible : (lang.symbolMetadata symbol).visible = true := by
    rw [← symbolEq]
    rw [isTree'] at visible
    exact visible
  rw [if_pos rootVisible, runEq, consumerEq] at reported
  simp only [TFConsumer.callNode, VisibleTree.sink, Prod.mk.injEq]
    at reported
  rw [rootEq, payloadEq, reported.1, reported.2, isTree']
  refine ⟨rfl, ?_⟩
  simp [RawTree.reported, nodesBelow, nodesBelowAll_append, nodesBelowAll,
    keptEvents]
  rfl

end Projections

/-- What the root's projection has to be, if the tree shows. -/
structure Projected
    (lang : TFLanguage)
    (root : Option RawTree)
    (root' : Option (TFFilterValue VisibleTree))
    (filter : TFFilter Unit VisibleTree) : Prop where
  healthy : filter.failed = false
  shown :
    ∀ tree, root = some tree → tree.Shows lang →
      root' = some (.root (tree.projection lang)) ∧
        filter.consumer.events =
          (tree.reported lang).map
            (fun node => .node node (some (.node node)))

open TFParser in
/-- The filter and the sink that builds trees are in step. -/
theorem inStep_projecting
    {lang : TFLanguage}
    (loaded : lang.Loaded) :
    InStep Heap.BothReliable RawTree.sink (rawSink VisibleTree.sink lang)
      (Projecting lang) (fun _ filter => filter.failed = false)
      (fun root _ root' filter => Projected lang root root' filter) where
  shifts := rfl
  reduces := rfl
  allocated := fun projecting heaps => projecting.allocated heaps.2
  step := by
    intro trees filter trees' filter' event projecting heaps _ stepped
      stepped'
    have reliable : trees'.heap.Reliable := by
      rw [RawTree.sink_keepsHeap.step stepped]
      exact heaps.1
    have reliable' :=
      (step_healthy projecting.healthy heaps.2 stepped').2
    refine ⟨⟨reliable, reliable'⟩, ?_⟩
    cases event with
    | shift token extra state =>
        exact projecting.shift heaps.2 stepped stepped'
    | reduce symbol childCount productionId state =>
        exact projecting.reduce loaded heaps.2 stepped stepped'
  close := by
    intro trees filter symbol childCount productionId token root root'
      payload payload' heap heap' projecting heaps _ closed closed'
    obtain ⟨healthy, reliable'⟩ :=
      close_healthy projecting.healthy heaps.2 closed'
    have reliable : heap.Reliable := by
      rw [RawTree.sink_keepsHeap.close closed]
      exact heaps.1
    refine ⟨⟨reliable, reliable'⟩, healthy, ?_⟩
    rintro tree rfl shows_
    exact projecting.close loaded closed closed' shows_
  parts := fun projecting => projecting.healthy
  rootParts := fun projected => projected.healthy

end TFFilter

open TFParser in
/--
A visible parse hands over the visible projection of the tree a raw parse of
the same source builds, and returns that projection's root: from the source to
the calls, through every split and replay.
-/
theorem tfParseVisible_projects
    {lang : TFLanguage}
    (loaded : lang.Loaded)
    {fuel : Nat}
    {source : List UInt8}
    {heap heap' : Heap}
    (reliable : heap.Reliable)
    (reliable' : heap'.Reliable)
    {raw : TFResult Unit RawTree}
    (ran : tfParse lang RawTree.sink fuel source () heap = some raw)
    (ok : raw.ok = true)
    (emitted : raw.parser.rootEmitted = true)
    {tree : RawTree}
    (root : raw.root = some tree)
    (shows_ : tree.Shows lang) :
    ∃ result,
      tfParseVisible lang VisibleTree.sink fuel source () heap' =
          some result ∧
        result.ok = true ∧
        result.root = some (tree.projection lang) ∧
        result.filter.consumer.events =
          (tree.reported lang).map
            (fun node => .node node (some (.node node))) := by
  have initially :
      TFFilter.Projecting lang ⟨[], (), heap⟩
        ⟨[], .initial (), heap'⟩ := by
    refine ⟨rfl, [], rfl, fun _ _ => ⟨?_, rfl⟩⟩
    exact ⟨rfl, rfl, by simp, by simp, rfl, rfl, reliable'⟩
  have same :=
    tfParse_inStep loaded Heap.bisimulation_bothReliable
      (TFFilter.inStep_projecting loaded) fuel source () (.initial ())
      ⟨reliable, reliable'⟩ initially
  unfold tfParseVisible
  rw [ran] at same
  generalize
    tfParse lang (TFFilter.rawSink VisibleTree.sink lang) fuel source
      (.initial ()) heap' = outcome' at same ⊢
  cases same with
  | @some _ visible ended =>
      refine ⟨_, rfl, ?_⟩
      cases ended with
      | accepted abreast =>
          rw [abreast.open_] at emitted
          cases emitted
      | failed stranded =>
          cases ok
      | @reported first second crowned =>
          have projected := crowned.rooted
          obtain ⟨shown, events⟩ := projected.shown tree root shows_
          unfold TFVisibleResult.ofRaw
          dsimp only
          rw [projected.healthy, shown]
          exact ⟨rfl, rfl, events⟩

/-- The tree of the letter `a` shows. -/
theorem fieldedTree_shows : fieldedTree.Shows fieldedGrammar where
  fits := by
    simp only [fieldedTree, RawTree.FitsTables, RawTree.FitsTablesAll]
    decide +kernel
  visible := by decide +kernel
  ends := by
    refine ⟨_, _, [_], _, rfl, rfl, ?_⟩
    simp only [RawTree.EndFreeAll, RawTree.EndFree]
    decide

/-- From the letter `a` to its projection. -/
theorem tfParseVisible_projects_letter :
    ∃ result,
      tfParseVisible fieldedGrammar VisibleTree.sink 20 [97] () .reliable =
          some result ∧
        result.ok = true ∧
        result.root = some (fieldedTree.projection fieldedGrammar) ∧
        result.filter.consumer.events =
          (fieldedTree.reported fieldedGrammar).map
            (fun node => .node node (some (.node node))) := by
  have computed :
      (tfParse fieldedGrammar RawTree.sink 20 [97] () .reliable).map
          (fun result =>
            (result.ok, result.parser.rootEmitted, result.root)) =
        some (true, true, some fieldedTree) :=
    rfl
  obtain ⟨raw, ran, ended⟩ := Option.map_eq_some_iff.mp computed
  simp only [Prod.mk.injEq] at ended
  obtain ⟨ok, emitted, root⟩ := ended
  exact
    tfParseVisible_projects fieldedGrammar_loaded (fun _ => rfl)
      (fun _ => rfl) ran ok emitted root fieldedTree_shows

end TreeFeller
