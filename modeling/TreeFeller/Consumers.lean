import TreeFeller.Collectors
import TreeFeller.Returns

namespace TreeFeller

open StatefulProgram

/-!
# Consumers do not steer the parse

A consumer is called back and answers with values of its own.  The driver
stores the values and hands them over again, and does nothing else with them.
So any two consumers of the same source are called alike: the same tokens and
the same reductions in the same order, the same verdict and the same error.
-/

/-- A consumer that leaves the allocator as it finds it. -/
structure TFSink.KeepsHeap {σ V : Type} (sink : TFSink σ V) : Prop where
  shift :
    ∀ token extra payload heap,
      (sink.callShift token extra payload heap).2.2 = heap
  reduce :
    ∀ reduction payload heap,
      (sink.callReduce reduction payload heap).2.2 = heap

namespace TFSink.KeepsHeap

variable {σ V : Type}
variable {sink : TFSink σ V}

/-- An event leaves the allocator. -/
theorem step
    (keeps : sink.KeepsHeap)
    {stack next : RawStack σ V}
    {event : RawEvent}
    (stepped : stack.step sink event = some next) :
    next.heap = stack.heap := by
  cases event with
  | shift token extra state =>
      cases stepped
      exact keeps.shift token extra stack.payload stack.heap
  | reduce symbol childCount productionId state =>
      simp only [RawStack.step] at stepped
      split at stepped
      · cases stepped
      · cases stepped
        exact keeps.reduce _ _ _

/-- So does the root's reduction. -/
theorem close
    (keeps : sink.KeepsHeap)
    {stack : RawStack σ V}
    {symbol : TSSymbol}
    {childCount productionId : Nat}
    {token : TFToken}
    {root : Option V}
    {payload : σ}
    {heap : Heap}
    (closed :
      stack.close sink symbol childCount productionId token =
        some (root, payload, heap)) :
    heap = stack.heap := by
  simp only [RawStack.close] at closed
  split at closed
  · cases closed
  · simp only [Option.some.injEq, Prod.ext_iff] at closed
    rw [← closed.2.2, keeps.reduce, keeps.shift]

end TFSink.KeepsHeap

namespace TFParser

variable {σ σ' V V' : Type}

/-- Any two consumers that leave the allocator alone are in step. -/
theorem inStep_of_keepsHeap
    {sink : TFSink σ V}
    {sink' : TFSink σ' V'}
    (shifts : sink.onShift.isSome = sink'.onShift.isSome)
    (reduces : sink.onReduce.isSome = sink'.onReduce.isSome)
    (keeps : sink.KeepsHeap)
    (keeps' : sink'.KeepsHeap) :
    InStep Eq sink sink' (fun _ _ => True) (fun _ _ => True)
      (fun _ _ _ _ => True) where
  shifts := shifts
  reduces := reduces
  allocated := fun _ _ => trivial
  step := by
    intro stack stack' next next' event _ heaps _ stepped stepped'
    refine ⟨?_, trivial⟩
    rw [keeps.step stepped, keeps'.step stepped']
    exact heaps
  close := by
    intro stack stack' symbol childCount productionId token root root'
      payload payload' heap heap' _ heaps _ closed closed'
    refine ⟨?_, trivial⟩
    rw [keeps.close closed, keeps'.close closed']
    exact heaps
  parts := fun _ => trivial
  rootParts := fun _ => trivial

/-- Two consumers of the same source, whose sinks are in step. -/
theorem sinksDiffer_consumer
    {lang : TFLanguage}
    (loaded : lang.Loaded)
    {alike : Heap → Heap → Prop}
    (bisimulation : Heap.Bisimulation alike)
    {sink : TFSink σ V}
    {sink' : TFSink σ' V'}
    {together : RawStack σ V → RawStack σ' V' → Prop}
    {parted : σ → σ' → Prop}
    {rooted : Option V → σ → Option V' → σ' → Prop}
    (inStep : InStep alike sink sink' together parted rooted)
    (fuel : Nat) :
    SinksDiffer alike (.consumer lang sink fuel) (.consumer lang sink' fuel)
      together parted rooted where
  lang := rfl
  materialize := rfl
  fuel := rfl
  bisimulation := bisimulation
  recovers := TFSpec.materialize_respects loaded bisimulation fuel
  inStep := inStep
  hook := fun _ _ together_ heaps _ => ⟨rfl, heaps, together_⟩

end TFParser

open TFParser in
/-- Two consumers whose sinks are in step end the same. -/
theorem tfParse_inStep {σ σ' V V' : Type}
    {lang : TFLanguage}
    (loaded : lang.Loaded)
    {alike : Heap → Heap → Prop}
    (bisimulation : Heap.Bisimulation alike)
    {sink : TFSink σ V}
    {sink' : TFSink σ' V'}
    {together : RawStack σ V → RawStack σ' V' → Prop}
    {parted : σ → σ' → Prop}
    {rooted : Option V → σ → Option V' → σ' → Prop}
    (inStep : InStep alike sink sink' together parted rooted)
    (fuel : Nat)
    (source : List UInt8)
    (payload : σ)
    (payload' : σ')
    {heap heap' : Heap}
    (heaps : alike heap heap')
    (initially : together ⟨[], payload, heap⟩ ⟨[], payload', heap'⟩) :
    Option.Rel
      (SameResult (.consumer lang sink fuel) (.consumer lang sink' fuel)
        alike together parted rooted)
      (tfParse lang sink fuel source payload heap)
      (tfParse lang sink' fuel source payload' heap') :=
  (sinksDiffer_consumer loaded bisimulation inStep fuel).run loaded source
    heaps initially

open TFParser in
/--
Whatever two consumers answer, they are called alike: the same tokens and
reductions in the same order, to the same verdict and the same error, through
splits, nested private replays and failed allocations.
-/
theorem tfParse_same_for_consumers {σ σ' V V' : Type}
    {lang : TFLanguage}
    (loaded : lang.Loaded)
    {sink : TFSink σ V}
    {sink' : TFSink σ' V'}
    (shifts : sink.onShift.isSome = sink'.onShift.isSome)
    (reduces : sink.onReduce.isSome = sink'.onReduce.isSome)
    (keeps : sink.KeepsHeap)
    (keeps' : sink'.KeepsHeap)
    (fuel : Nat)
    (source : List UInt8)
    (payload : σ)
    (payload' : σ')
    (heap : Heap) :
    Option.Rel (SameParse Eq)
      (tfParse lang sink fuel source payload heap)
      (tfParse lang sink' fuel source payload' heap) := by
  have ran :=
    tfParse_inStep loaded Heap.bisimulation_eq
      (inStep_of_keepsHeap shifts reduces keeps keeps') fuel source payload
      payload' (Eq.refl heap) trivial
  generalize tfParse lang sink fuel source payload heap = outcome at ran ⊢
  generalize tfParse lang sink' fuel source payload' heap = outcome'
    at ran ⊢
  cases ran with
  | none =>
      exact .none
  | some same =>
      exact .some same.agree

/-- The sink that builds trees leaves the allocator alone. -/
theorem RawTree.sink_keepsHeap : RawTree.sink.KeepsHeap :=
  ⟨fun _ _ _ _ => rfl, fun _ _ _ => rfl⟩

/-- The counting consumer leaves the allocator alone. -/
theorem countingSink_keepsHeap : countingSink.KeepsHeap :=
  ⟨fun _ _ _ _ => rfl, fun _ _ _ => rfl⟩

/-- A consumer that counts and one that builds trees are called alike. -/
theorem tfParse_same_for_consumers_extras :
    Option.Rel (TFParser.SameParse Eq)
      (tfParse extrasGrammar countingSink 140 (List.replicate 65 97) 0
        ⟨fun request => request == 2, 0⟩)
      (tfParse extrasGrammar RawTree.sink 140 (List.replicate 65 97) ()
        ⟨fun request => request == 2, 0⟩) :=
  tfParse_same_for_consumers extrasGrammar_loaded (by rfl) (by rfl)
    countingSink_keepsHeap RawTree.sink_keepsHeap 140
    (List.replicate 65 97) 0 () _

end TreeFeller
