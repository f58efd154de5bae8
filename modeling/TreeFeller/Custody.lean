import TreeFeller.VisibleReturns

namespace TreeFeller

/-!
# A consumer that looks after what it returns

A consumer's payload may hold what its answers stand for.  Such a consumer
relies on the filter: a node comes with the answers given for its children, and
every other answer still out is kept for later.  Over a run in which the filter
does not give up, the answers out are those in its arena, so what a consumer
keeps from call to call holds of the arena between reductions.
-/

/-- What a consumer keeps of its payload and the answers still out. -/
structure Custodian {τ W : Type}
    (sink : TFVisibleSink τ W)
    (holds : τ → List W → Prop) : Prop where
  /-- The answers out may be counted in any order. -/
  reorder :
    ∀ payload out out',
      holds payload out → List.Perm out out' → holds payload out'
  reports : sink.onNode.isSome = true
  /-- A node is answered, for the answers its children had. -/
  node :
    ∀ onNode, sink.onNode = some onNode →
      ∀ (node : TFVisibleNode W) payload others,
        (∀ entry ∈ node.children, entry.value.isSome = true) →
          holds payload (entryValues node.children ++ others) →
          ∃ value,
            (onNode node payload).1 = some value ∧
              holds (onNode node payload).2 (value :: others)
  /-- A run is folded likewise, or refused and stays out. -/
  hidden :
    ∀ onHidden, sink.onHidden = some onHidden →
      ∀ (node : TFVisibleNode W) payload others,
        (∀ entry ∈ node.children, entry.value.isSome = true) →
          holds payload (entryValues node.children ++ others) →
          (∃ value,
            (onHidden node payload).1 = some value ∧
              holds (onHidden node payload).2 (value :: others)) ∨
            ((onHidden node payload).1 = none ∧
              holds (onHidden node payload).2
                (entryValues node.children ++ others))

/-- Every entry of a run has an answer. -/
def AllValued {W : Type} (run : List (TFVisibleChild W)) : Prop :=
  ∀ entry ∈ run, entry.value.isSome = true

namespace AllValued

variable {W : Type}
variable {first second run : List (TFVisibleChild W)}

/-- Runs are valued together when they are one by one. -/
theorem append_iff :
    AllValued (first ++ second) ↔ AllValued first ∧ AllValued second := by
  simp only [AllValued, List.mem_append]
  constructor
  · intro both
    exact ⟨fun entry member => both entry (Or.inl member),
      fun entry member => both entry (Or.inr member)⟩
  · rintro ⟨left, right⟩ entry (member | member)
    · exact left entry member
    · exact right entry member

/-- What is part of a valued run is valued. -/
theorem subset
    (valued : AllValued run)
    (within : first ⊆ run) :
    AllValued first :=
  fun entry member => valued entry (within member)

/-- A field that is passed on takes no answer away. -/
theorem inheritRun
    (valued : AllValued run)
    (field : TSFieldId) :
    AllValued (TFFilter.inheritRun field run) := by
  unfold TFFilter.inheritRun
  split
  · intro entry member
    obtain ⟨old, isOld, rfl⟩ := List.mem_map.mp member
    unfold TFFilter.inheritField
    split
    · exact valued old isOld
    · exact valued old isOld
  · exact valued

end AllValued

namespace TFFilter

variable {τ W : Type}
variable {sink : TFVisibleSink τ W}
variable {holds : τ → List W → Prop}

/-- The answers out are those in the filter's arena. -/
structure InCustody
    (holds : τ → List W → Prop)
    (filter : TFFilter τ W) : Prop where
  valued : AllValued filter.arena
  held : holds filter.consumer.payload (entryValues filter.arena)

/-- A node reported over valued entries is answered. -/
theorem callNode_custody
    (custodian : Custodian sink holds)
    (consumer : TFConsumer τ W)
    (node : TFVisibleNode W)
    {others : List W}
    (valued : AllValued node.children)
    (held :
      holds consumer.payload (entryValues node.children ++ others)) :
    let answer := consumer.callNode sink node
    ∃ value,
      answer.1 = some value ∧
        holds answer.2.payload (value :: others) := by
  obtain ⟨onNode, present⟩ :=
    Option.isSome_iff_exists.mp custodian.reports
  have answered :=
    custodian.node onNode present node consumer.payload others valued held
  simpa [TFConsumer.callNode, present] using answered

/-- Collecting keeps custody, run for run. -/
theorem collect_custody
    (custodian : Custodian sink holds)
    (lang : TFLanguage)
    (productionId : Nat)
    (children : List (TFNode (TFFilterValue W)))
    (structural : Nat)
    (run : List (TFVisibleChild W))
    (owned : (children.map owns).sum = run.length)
    (valued : AllValued run)
    (consumer : TFConsumer τ W)
    (others : List W)
    (held : holds consumer.payload (entryValues run ++ others)) :
    let collected :=
      collect sink lang productionId children structural run consumer
    AllValued collected.1 ∧
      holds collected.2.payload (entryValues collected.1 ++ others) := by
  induction children generalizing structural run consumer others with
  | nil =>
      have nothing : run = [] := by
        simpa using owned.symm
      subst nothing
      exact ⟨valued, held⟩
  | cons child rest inductionHypothesis =>
      have restOwned :
          (rest.map owns).sum = (run.drop (owns child)).length := by
        simp only [List.map_cons, List.sum_cons] at owned
        rw [List.length_drop]
        omega
      have split :
          entryValues run =
            entryValues (run.take (owns child)) ++
              entryValues (run.drop (owns child)) := by
        rw [← entryValues_append, List.take_append_drop]
      have own : AllValued (run.take (owns child)) :=
        valued.subset (List.take_subset _ _)
      have further : AllValued (run.drop (owns child)) :=
        valued.subset (List.drop_subset _ _)
      rw [split, List.append_assoc] at held
      simp only [collect]
      by_cases visible :
          childVisible lang productionId structural child = true
      · rw [if_pos visible]
        by_cases drops :
            dropsChild sink lang productionId structural child = true
        · rw [if_pos drops]
          refine inductionHypothesis _ _ restOwned further _ _ ?_
          simpa [owns_of_dropsChild drops, entryValues] using held
        · rw [if_neg drops]
          let node :=
            childNode lang productionId structural child
              (run.take (owns child))
          obtain ⟨value, answered, heldAfter⟩ :=
            callNode_custody custodian consumer node own held
          have entryValue :
              (report sink lang productionId structural child
                (run.take (owns child)) consumer).1.value =
                some value :=
            answered
          obtain ⟨laterValued, laterHeld⟩ :=
            inductionHypothesis (nextStructural structural child) _
              restOwned further
              (report sink lang productionId structural child
                (run.take (owns child)) consumer).2
              (value :: others)
              (custodian.reorder _ _ _ heldAfter
                List.perm_middle.symm)
          refine ⟨?_, custodian.reorder _ _ _ laterHeld ?_⟩
          · intro entry member
            rcases List.mem_cons.mp member with first | later
            · rw [first, entryValue]
              rfl
            · exact laterValued entry later
          · rw [entryValues_cons, entryValue]
            exact List.perm_middle
      · rw [if_neg visible]
        obtain ⟨laterValued, laterHeld⟩ :=
          inductionHypothesis (nextStructural structural child) _
            restOwned further consumer
            (entryValues (run.take (owns child)) ++ others)
            (custodian.reorder _ _ _ held
              (by
                rw [← List.append_assoc, ← List.append_assoc]
                exact List.perm_append_comm.append_right _))
        refine
          ⟨AllValued.append_iff.mpr ⟨own.inheritRun _, laterValued⟩,
            custodian.reorder _ _ _ laterHeld ?_⟩
        rw [entryValues_append, entryValues_inheritRun,
          ← List.append_assoc]
        exact List.perm_append_comm.append_right _

/-- Settling a reduction keeps custody, or makes the filter give up. -/
theorem InCustody.settle
    (custodian : Custodian sink holds)
    (lang : TFLanguage)
    {filter : TFFilter τ W}
    (custody : InCustody holds filter)
    (productionId : Nat)
    (children : List (TFNode (TFFilterValue W)))
    {below run : List (TFVisibleChild W)}
    (arena : filter.arena = below ++ run)
    (owned : (children.map owns).sum = run.length)
    (heap : Heap) :
    let settled :=
      filter.settle sink lang productionId children below.length heap
    (settled.1 = true ∧ InCustody holds settled.2.1 ∧
        settled.2.1.failed = filter.failed ∧
        ∃ after, settled.2.1.arena = below ++ after) ∨
      (settled.1 = false ∧ settled.2.1.failed = true) := by
  have runEq : filter.arena.drop below.length = run := by
    simp [arena]
  have belowEq : filter.arena.take below.length = below := by
    simp [arena]
  have parts : AllValued below ∧ AllValued run := by
    rw [← AllValued.append_iff, ← arena]
    exact custody.valued
  have cases_ :=
    settle_cases sink lang filter productionId children below.length heap
  rw [runEq, belowEq] at cases_
  rcases cases_ with
    ⟨arenaCapacity, scratchCapacity, final, settled, _⟩ |
      ⟨_, done, arenaCapacity, scratchCapacity, final, settled⟩
  · have held :
        holds filter.consumer.payload
          (entryValues run ++ entryValues below) := by
      refine custodian.reorder _ _ _ custody.held ?_
      rw [arena, entryValues_append]
      exact List.perm_append_comm
    obtain ⟨valued, heldAfter⟩ :=
      collect_custody custodian lang productionId children 0 run owned
        parts.2 filter.consumer _ held
    left
    rw [settled]
    refine ⟨rfl, ⟨?_, ?_⟩, rfl, _, rfl⟩
    · exact AllValued.append_iff.mpr ⟨parts.1, valued⟩
    · refine custodian.reorder _ _ _ heldAfter ?_
      rw [entryValues_append]
      exact List.perm_append_comm
  · right
    rw [settled]
    exact ⟨rfl, rfl⟩

/-- Offering a run for folding keeps custody. -/
theorem InCustody.offerFold
    (custodian : Custodian sink holds)
    (lang : TFLanguage)
    {filter : TFFilter τ W}
    (custody : InCustody holds filter)
    (reduction : TFReduction (TFFilterValue W))
    {below run : List (TFVisibleChild W)}
    (arena : filter.arena = below ++ run)
    (heap : Heap) :
    let offered :=
      filter.offerFold sink lang reduction below.length heap
    InCustody holds offered.1 ∧ offered.1.failed = filter.failed ∧
      ∃ after, offered.1.arena = below ++ after := by
  unfold TFFilter.offerFold
  split
  · exact ⟨custody, rfl, run, arena⟩
  · rename_i onHidden folds
    split
    · have parts : AllValued below ∧ AllValued run := by
        rw [← AllValued.append_iff, ← arena]
        exact custody.valued
      have held :
          holds filter.consumer.payload
            (entryValues run ++ entryValues below) := by
        refine custodian.reorder _ _ _ custody.held ?_
        rw [arena, entryValues_append]
        exact List.perm_append_comm
      have answer :=
        custodian.hidden onHidden folds
          (parentNode lang reduction false run) filter.consumer.payload
          (entryValues below) parts.2 held
      simp only [arena, List.drop_left, List.take_left]
      split
      · rename_i value accepted
        change
          (onHidden (parentNode lang reduction false run)
            filter.consumer.payload).1 = some value at accepted
        rcases answer with ⟨folded, isFolded, heldAfter⟩ | ⟨refused, _⟩
        · cases Option.some.inj (isFolded.symm.trans accepted)
          refine ⟨⟨?_, ?_⟩, rfl, _, rfl⟩
          · refine AllValued.append_iff.mpr ⟨parts.1, ?_⟩
            intro entry member
            rw [List.mem_singleton.mp member]
            rfl
          · refine custodian.reorder _ _ _ heldAfter ?_
            rw [entryValues_append]
            exact (List.perm_append_singleton value _).symm
        · cases refused.symm.trans accepted
      · rename_i declined
        change
          (onHidden (parentNode lang reduction false run)
            filter.consumer.payload).1 = none at declined
        rcases answer with ⟨folded, isFolded, _⟩ | ⟨_, heldAfter⟩
        · cases isFolded.symm.trans declined
        · obtain ⟨sameArena, sameConsumer, sameFailed, _⟩ :=
            decline_frame lang
              { filter with
                arena := below ++ run
                consumer :=
                  (filter.consumer.callHidden onHidden
                    (parentNode lang reduction false run)).2 }
              reduction.symbol heap
          refine ⟨⟨?_, ?_⟩, sameFailed, run, sameArena⟩
          · rw [sameArena]
            exact AllValued.append_iff.mpr parts
          · rw [sameArena, sameConsumer]
            refine custodian.reorder _ _ _ heldAfter ?_
            rw [entryValues_append]
            exact List.perm_append_comm
    · exact ⟨custody, rfl, run, arena⟩

/-- A reduction other than the root's keeps custody, or the filter gives up. -/
theorem InCustody.onReduce_inner
    (custodian : Custodian sink holds)
    (lang : TFLanguage)
    {filter : TFFilter τ W}
    (custody : InCustody holds filter)
    {reduction : TFReduction (TFFilterValue W)}
    (inner : isRoot reduction = false)
    {below run : List (TFVisibleChild W)}
    (arena : filter.arena = below ++ run)
    (owned : (reduction.children.map owns).sum = run.length)
    (heap : Heap) :
    let answer := onReduce sink lang reduction filter heap
    InCustody holds answer.2.1 ∨ answer.2.1.failed = true := by
  have base : filter.arena.length - run.length = below.length := by
    simp [arena]
  unfold onReduce
  by_cases failed : filter.failed = true
  · rw [if_pos failed]
    exact Or.inr failed
  · rw [if_neg failed]
    simp only [owned, base]
    have settling :=
      custody.settle custodian lang reduction.productionId
        reduction.children arena owned heap
    generalize
      filter.settle sink lang reduction.productionId reduction.children
        below.length heap = settled at settling ⊢
    obtain ⟨went, settled, final⟩ := settled
    rcases settling with
      ⟨well, custodyAfter, _, after, arenaAfter⟩ | ⟨bad, failedAfter⟩
    · cases well
      obtain ⟨custodyOffered, _⟩ :=
        custodyAfter.offerFold custodian lang reduction arenaAfter final
      simp only [inner, Bool.false_eq_true, if_false]
      exact Or.inl custodyOffered
    · cases bad
      exact Or.inr failedAfter

/-- What is out once a root of a symbol has been answered for. -/
structure RootInCustody
    (holds : τ → List W → Prop)
    (lang : TFLanguage)
    (symbol : TSSymbol)
    (root : Option (TFFilterValue W))
    (filter : TFFilter τ W) : Prop where
  visible :
    (lang.symbolMetadata symbol).visible = true →
      ∃ value : W,
        root = some (.root value) ∧ holds filter.consumer.payload [value]
  hidden :
    (lang.symbolMetadata symbol).visible = false →
      root = none ∧ InCustody holds filter

/-- The root's reduction leaves only its own answer out. -/
theorem InCustody.onReduce_root
    (custodian : Custodian sink holds)
    (lang : TFLanguage)
    {filter : TFFilter τ W}
    (custody : InCustody holds filter)
    {reduction : TFReduction (TFFilterValue W)}
    (root : isRoot reduction = true)
    (owned :
      (reduction.children.map owns).sum = filter.arena.length)
    (heap : Heap) :
    let answer := onReduce sink lang reduction filter heap
    RootInCustody holds lang reduction.symbol answer.1 answer.2.1 ∨
      answer.2.1.failed = true := by
  unfold onReduce
  by_cases failed : filter.failed = true
  · rw [if_pos failed]
    exact Or.inr failed
  · rw [if_neg failed]
    simp only [owned, Nat.sub_self]
    have settling :=
      custody.settle custodian lang reduction.productionId
        reduction.children
        (show filter.arena = [] ++ filter.arena from rfl) owned heap
    rw [List.length_nil] at settling
    generalize
      filter.settle sink lang reduction.productionId reduction.children
        0 heap = settled at settling ⊢
    obtain ⟨went, settled, final⟩ := settled
    rcases settling with
      ⟨well, custodyAfter, _, after, arenaAfter⟩ | ⟨bad, failedAfter⟩
    · cases well
      obtain ⟨custodyOffered, _, last, arenaOffered⟩ :=
        custodyAfter.offerFold custodian lang reduction arenaAfter final
      rw [List.length_nil] at custodyOffered arenaOffered
      simp only [root, if_true]
      left
      generalize settled.offerFold sink lang reduction 0 final = offered
        at custodyOffered arenaOffered ⊢
      simp only [reportRoot]
      split
      · rename_i visible
        have held :
            holds offered.1.consumer.payload
              (entryValues (offered.1.arena.drop 0) ++ []) := by
          rw [List.append_nil]
          exact custodyOffered.held
        obtain ⟨value, answered, heldAfter⟩ :=
          callNode_custody custodian offered.1.consumer
            (parentNode lang reduction
              (lang.symbolMetadata reduction.symbol).named
              (offered.1.arena.drop 0))
            custodyOffered.valued held
        refine ⟨fun _ => ⟨value, ?_, heldAfter⟩, ?_⟩
        · rw [answered]
          rfl
        · intro hidden
          rw [hidden] at visible
          cases visible
      · rename_i hidden
        refine ⟨fun visible => absurd visible hidden, fun _ => ?_⟩
        exact ⟨rfl, custodyOffered⟩
    · cases bad
      exact Or.inr failedAfter

end TFFilter

namespace TFParser

open TFFilter (owns rawSink InCustody RootInCustody)

variable {τ W : Type}
variable {sink : TFVisibleSink τ W}
variable {holds : τ → List W → Prop}
variable {lang : TFLanguage}
variable {before after : TFParser (TFFilter τ W) (TFFilterValue W)}

/-- The answers out are those the cells of the stack own. -/
structure InHand
    (holds : τ → List W → Prop)
    (parser : TFParser (TFFilter τ W) (TFFilterValue W)) : Prop where
  inArena : InArena parser
  custody : InCustody holds parser.payload

/-- Once the root is reduced, its answer is out, or what it would have had. -/
def RootInHand
    (holds : τ → List W → Prop)
    (lang : TFLanguage)
    (parser : TFParser (TFFilter τ W) (TFFilterValue W)) : Prop :=
  ∃ cell,
    parser.cells[parser.leading]? = some cell ∧
      RootInCustody holds lang cell.node.symbol cell.node.value
        parser.payload

/-- A reduction before the root is one call of the filter. -/
theorem payload_of_inner
    {cut : Popped (TFFilterValue W)}
    {symbol : TSSymbol}
    {childCount productionId : Nat}
    {placed : Bool}
    (inner :
      InnerReduction (rawSink sink lang) lang before cut symbol childCount
        productionId placed after) :
    let own :=
      reductionOf before.cells cut.children symbol childCount productionId
    let answer := TFFilter.onReduce sink lang own before.payload before.heap
    after.payload = answer.2.1 ∧ .reduce own answer.1 ∈ after.events := by
  obtain ⟨_, _, _, ⟨_, _, same⟩ | ⟨_, _, _, same⟩⟩ := inner.done
  · rw [same]
    refine ⟨rfl, ?_⟩
    simp [TFSink.reduceEvents, TFSink.callReduce, rawSink]
  · rw [same]
    refine ⟨rfl, ?_⟩
    simp [TFSink.reduceEvents, TFSink.callReduce, rawSink]

/-- A reduction before the root keeps custody, or the filter gives up. -/
theorem InHand.inner
    (custodian : Custodian sink holds)
    (inHand : InHand holds before)
    {cut : Popped (TFFilterValue W)}
    {symbol : TSSymbol}
    {childCount productionId : Nat}
    {placed : Bool}
    (cuts : popped before.cells childCount = some cut)
    (inner :
      InnerReduction (rawSink sink lang) lang before cut symbol childCount
        productionId placed after)
    (noEnd : NoEnd after.events) :
    InCustody holds after.payload ∨ after.payload.failed = true := by
  obtain ⟨below, run, arena, _, owned, _⟩ := inHand.inArena.split cuts
  obtain ⟨payload, logged⟩ := payload_of_inner inner
  rw [payload]
  exact inHand.custody.onReduce_inner custodian lang
    (noEnd _ _ logged) arena owned before.heap

/-- The root's reduction leaves its answer out, or the filter gives up. -/
theorem InHand.root
    (custodian : Custodian sink holds)
    (inHand : InHand holds before)
    {cut : Popped (TFFilterValue W)}
    {symbol : TSSymbol}
    {childCount productionId : Nat}
    {token : TFToken}
    (root :
      RootReduction (rawSink sink lang) lang before cut symbol childCount
        productionId token true after) :
    RootInHand holds lang after ∨ after.payload.failed = true := by
  obtain ⟨heap, capacity, _, ⟨_, _, heapBefore, same⟩ | ⟨failed, _⟩⟩ :=
    root.done
  · let own :=
      reductionOf before.cells cut.children symbol childCount productionId
    let whole :=
      rootReduction before.cells own token
        (some (TFFilterValue.cell ⟨0, 0⟩))
    have isRoot : TFFilter.isRoot whole = true := by
      simp [TFFilter.isRoot, whole, rootReduction, TFToken.node,
        root.isEnd]
    have owned :
        (whole.children.map owns).sum =
          before.payload.arena.length := by
      rw [← inHand.inArena.owned]
      simp [whole, rootReduction, ownedBy, owns, TFFilter.cellOf,
        TFToken.node, Function.comp_def]
    have answer :=
      inHand.custody.onReduce_root custodian lang isRoot owned heapBefore
    rcases answer with held | failed
    · left
      rw [same]
      refine
        ⟨⟨parentNode own
            (TFFilter.onReduce sink lang whole before.payload
              heapBefore).1,
          reducedState lang before.cells cut symbol⟩, ?_, held⟩
      simp only [RawStack.placed, ← root.bottom]
      simp
      rfl
    · right
      rw [same]
      exact failed
  · cases failed

/-- Along a trace custody is kept, unless the filter gives up. -/
theorem Trace.inHand
    (custodian : Custodian sink holds)
    {first last : TFParser (TFFilter τ W) (TFFilterValue W)}
    (ready : Ready first)
    (initially : InHand holds first)
    (trace : Trace (rawSink sink lang) lang first last) :
    (Ready last ∧
        (NoEnd last.events →
          InHand holds last ∨ last.payload.failed = true)) ∨
      (last.rootEmitted = true ∧
        (NoEnd last.events.dropLast →
          RootInHand holds lang last ∨ last.payload.failed = true)) := by
  refine
    trace.rule
      (fun parser =>
        NoEnd parser.events →
          InHand holds parser ∨ parser.payload.failed = true)
      (fun parser =>
        NoEnd parser.events.dropLast →
          RootInHand holds lang parser ∨ parser.payload.failed = true)
      ready (fun _ => Or.inl initially) ?_ ?_ ?_ ?_ ?_
  · intro before after holdsBefore same noEnd
    rw [same.events] at noEnd
    rw [same.payload]
    rcases holdsBefore noEnd with inHand | failed
    · refine Or.inl ⟨⟨?_, ?_, ?_, ?_⟩, ?_⟩
      · rw [same.payload]
        exact inHand.inArena.sound
      · rw [same.cells, same.payload]
        exact inHand.inArena.owned
      · rw [same.cells]
        exact inHand.inArena.extras
      · rw [same.cells]
        exact inHand.inArena.packed
      · rw [same.payload]
        exact inHand.custody
    · exact Or.inr failed
  · intro before after holdsBefore same noEnd
    rw [same.events] at noEnd
    unfold RootInHand
    rw [same.cells, same.leading, same.payload]
    exact holdsBefore noEnd
  · intro before after token extra state _ holdsBefore shifted noEnd
    have noEndBefore : NoEnd before.events := by
      rcases before.shift_cases (rawSink sink lang) token extra state with
        ⟨heap, capacity, _, _, well⟩ | ⟨heap, failed⟩
      · rw [(Prod.mk.inj (shifted.symm.trans well)).2] at noEnd
        exact noEnd.of_append
      · cases (Prod.mk.inj (shifted.symm.trans failed)).1
    have same := payload_shift shifted
    rw [same]
    rcases holdsBefore noEndBefore with inHand | failed
    · refine Or.inl ⟨inHand.inArena.shift shifted, ?_⟩
      rw [same]
      exact inHand.custody
    · exact Or.inr failed
  · intro before after cut symbol childCount productionId _ holdsBefore
      cuts inner noEnd
    have noEndBefore : NoEnd before.events := by
      obtain ⟨_, _, _, ⟨_, _, same⟩ | ⟨failed, _⟩⟩ := inner.done
      · rw [same] at noEnd
        exact noEnd.of_append
      · cases failed
    rcases holdsBefore noEndBefore with inHand | failed
    · rcases inHand.inner custodian cuts inner noEnd with
        custody | failed
      · rcases inHand.inArena.inner custodian.reports cuts inner noEnd with
          ⟨_, inArena⟩ | ⟨unplaced, _⟩ | spoiled
        · exact Or.inl ⟨inArena, custody⟩
        · cases unplaced
        · exact Or.inr spoiled.failed
      · exact Or.inr failed
    · rw [payload_inner failed inner]
      exact Or.inr failed
  · intro before after cut symbol childCount productionId token _
      holdsBefore _ root noEnd
    have noEndBefore : NoEnd before.events := by
      obtain ⟨_, _, _, ⟨_, _, _, same⟩ | ⟨failed, _⟩⟩ := root.done
      · have logged :
            ∀ reduction value,
              (rawSink sink lang).reduceEvents reduction value =
                [.reduce reduction value] :=
          fun _ _ => rfl
        rw [same] at noEnd
        simp only [logged, List.dropLast_concat] at noEnd
        exact noEnd.of_append
      · cases failed
    rcases holdsBefore noEndBefore with inHand | failed
    · exact inHand.root custodian root
    · rw [payload_root failed root]
      exact Or.inr failed

/-- A failed operation keeps custody, unless the filter gives up. -/
theorem Fails.inCustody
    (custodian : Custodian sink holds)
    (ready : Ready before)
    (inHand : InHand holds before)
    (fails : Fails (rawSink sink lang) lang before after)
    (noEnd : NoEnd after.events) :
    InCustody holds after.payload ∨ after.payload.failed = true := by
  cases fails with
  | quiet quiet =>
      rw [quiet.payload]
      exact Or.inl inHand.custody
  | shift shifted quiet =>
      rw [quiet.payload, payload_shift shifted]
      exact Or.inl inHand.custody
  | reduce reduced quiet =>
      rw [quiet.payload]
      rw [quiet.events] at noEnd
      obtain ⟨cut, cuts, ⟨_, inner⟩ | ⟨token, _, root⟩⟩ :=
        reduce_cases ready.fits reduced
      · exact inHand.inner custodian cuts inner noEnd
      · obtain ⟨_, _, _, ⟨well, _⟩ | ⟨_, unchanged⟩⟩ := root.done
        · cases well
        · rw [unchanged]
          exact Or.inl inHand.custody

/-- An operation by a filter that has given up leaves it so. -/
theorem Fails.payload_failed
    (ready : Ready before)
    (failed : before.payload.failed = true)
    (fails : Fails (rawSink sink lang) lang before after) :
    after.payload.failed = true := by
  cases fails with
  | quiet quiet =>
      rw [quiet.payload]
      exact failed
  | shift shifted quiet =>
      rw [quiet.payload, payload_shift shifted]
      exact failed
  | reduce reduced quiet =>
      rw [quiet.payload]
      obtain ⟨cut, cuts, ⟨_, inner⟩ | ⟨token, _, root⟩⟩ :=
        reduce_cases ready.fits reduced
      · rw [payload_inner failed inner]
        exact failed
      · rw [payload_root failed root]
        exact failed

/-- Before any event nothing is out. -/
theorem Entered.inHand
    {source : List UInt8}
    {payload : τ}
    (initially : holds payload [])
    {first : TFParser (TFFilter τ W) (TFFilterValue W)}
    (entered : Entered source (.initial payload) first) :
    InHand holds first := by
  obtain ⟨_, _, rfl⟩ := entered.entered
  refine ⟨⟨⟨rfl, ?_, ?_⟩, rfl, ?_, ?_⟩, ?_, ?_⟩
  · simp [TFParser.initial, TFFilter.initial]
  · simpa [TFParser.initial, TFFilter.initial, entryValues]
      using .empty
  · simp [TFParser.initial]
  · simp [TFParser.initial]
  · simp [TFParser.initial, TFFilter.initial, AllValued]
  · simpa [TFParser.initial, TFFilter.initial, entryValues]
      using initially

end TFParser

/-- What a run in which the filter never gave up leaves out. -/
inductive RunInCustody {τ W : Type}
    (holds : τ → List W → Prop)
    (lang : TFLanguage)
    (raw : TFResult (TFFilter τ W) (TFFilterValue W)) : Prop where
  /-- No root was reported: what stands in the arena is out. -/
  | arena
      (custody : TFFilter.InCustody holds raw.parser.payload)
      (noRoot :
        raw.ok = true →
          TFVisibleResult.rootOf raw.root = none ∧
            raw.parser.reportsRoot lang = false)
  /-- The root was reported: its answer is out. -/
  | root
      {value : W}
      (ok : raw.ok = true)
      (reported : raw.parser.reportsRoot lang = true)
      (isRoot : TFVisibleResult.rootOf raw.root = some value)
      (held : holds raw.parser.payload.consumer.payload [value])

open TFFilter (rawSink) in
/-- A run keeps custody from its start to its end. -/
theorem run_inCustody {τ W : Type}
    {lang : TFLanguage}
    (loaded : lang.Loaded)
    {sink : TFVisibleSink τ W}
    {holds : τ → List W → Prop}
    (custodian : Custodian sink holds)
    {fuel : Nat}
    {source : List UInt8}
    {payload : τ}
    (initially : holds payload [])
    {heap : Heap}
    {raw : TFResult (TFFilter τ W) (TFFilterValue W)}
    (ran :
      tfParse lang (rawSink sink lang) fuel source (.initial payload)
        heap = some raw)
    (endsAlone : raw.parser.EndsAlone)
    (healthy : raw.parser.payload.failed = false) :
    RunInCustody holds lang raw := by
  cases TFParser.run_spec loaded (fun _ _ _ _ _ => ⟨rfl, rfl⟩) ran with
  | unentered notOk noCells untouched noCalls =>
      refine .arena ?_ (fun ok => absurd ok (by simp [notOk]))
      rw [untouched]
      let start : TFParser (TFFilter τ W) (TFFilterValue W) :=
        .initial source (.initial payload) heap
      have entered :
          TFParser.Entered source (.initial payload)
            { start with capacity := 0 } :=
        ⟨heap, 0, rfl⟩
      exact (entered.inHand initially).custody
  | @failed first last entered notOk fails discarded =>
      obtain ⟨before, ready, trace, failure⟩ := fails.failure
      have same : raw.parser = last := by
        rw [discarded]
        rfl
      obtain ⟨rootEmitted, more, logged⟩ := failure.later ready
      have noEnd : NoEnd last.events := by
        unfold TFParser.EndsAlone at endsAlone
        rw [same, rootEmitted, if_neg Bool.false_ne_true] at endsAlone
        exact endsAlone
      have noEndBefore : NoEnd before.events := by
        rw [logged] at noEnd
        exact noEnd.of_append
      rw [same] at healthy
      refine .arena ?_ (fun ok => absurd ok (by simp [notOk]))
      rw [same]
      rcases trace.inHand custodian entered.ready
          (entered.inHand initially) with
        ⟨_, holdsBefore⟩ | ⟨rooted, _⟩
      · rcases holdsBefore noEndBefore with held | gaveUp
        · rcases failure.inCustody custodian ready held noEnd with
            custody | gaveUp
          · exact custody
          · rw [gaveUp] at healthy
            cases healthy
        · rw [failure.payload_failed ready gaveUp] at healthy
          cases healthy
      · rw [ready.open_] at rooted
        cases rooted
  | accepted entered ok trace last root =>
      unfold TFParser.EndsAlone at endsAlone
      rcases trace.inHand custodian entered.ready
          (entered.inHand initially) with
        ⟨ready, holdsLast⟩ | ⟨rooted, holdsLast⟩
      · rw [ready.open_, if_neg Bool.false_ne_true] at endsAlone
        rcases holdsLast endsAlone with held | gaveUp
        · refine .arena held.custody (fun _ => ⟨?_, ?_⟩)
          · rw [root]
            unfold TFStep.acceptedRoot
            split
            · rename_i cell isCell
              obtain ⟨packed, value⟩ :=
                held.inArena.packed cell (List.mem_of_getElem? isCell)
              rw [value]
              rfl
            · rfl
          · simp [TFParser.reportsRoot, ready.open_]
        · rw [gaveUp] at healthy
          cases healthy
      · rw [rooted, if_pos rfl] at endsAlone
        rcases holdsLast endsAlone with ⟨cell, isCell, held⟩ | gaveUp
        · have accepted : raw.root = cell.node.value := by
            rw [root]
            simp only [TFStep.acceptedRoot, isCell]
          cases visible : (lang.symbolMetadata cell.node.symbol).visible with
          | true =>
              obtain ⟨value, valueEq, out⟩ := held.visible visible
              refine .root ok ?_ ?_ out
              · simp [TFParser.reportsRoot, rooted, isCell, visible]
              · rw [accepted, valueEq]
                rfl
          | false =>
              obtain ⟨noValue, custody⟩ := held.hidden visible
              refine .arena custody (fun _ => ⟨?_, ?_⟩)
              · rw [accepted, noValue]
                rfl
              · simp [TFParser.reportsRoot, isCell, visible]
        · rw [gaveUp] at healthy
          cases healthy

end TreeFeller
