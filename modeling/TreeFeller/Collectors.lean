import TreeFeller.SinkRuns

namespace TreeFeller

open StatefulProgram

/-!
# Private replays do not see the allocator

A private replay runs the driver with a collector for its sink, and the
collector keeps its trees in a graph.  Beside two alike allocators it collects
the same graph.  With that, recovering shapes respects alike allocators at
every depth of nesting.
-/

namespace TFSpec

open Program

variable {alike : Heap → Heap → Prop}

/-- Collecting a tree does not depend on the allocator. -/
theorem collect_alike
    (bisimulation : Heap.Bisimulation alike)
    {program : SpecM Nat}
    (respects : Respects (TFSpecState.Alike alike) program)
    (self : TFSpec)
    {heap heap' : Heap}
    (heaps : alike heap heap') :
    (collect program self heap).1 = (collect program self heap').1 ∧
      (collect program self heap).2.1 = (collect program self heap').2.1 ∧
      alike (collect program self heap).2.2
        (collect program self heap').2.2 := by
  have agree :=
    respects ⟨self, default, heap⟩ ⟨self, default, heap'⟩ ⟨rfl, rfl, heaps⟩
  unfold collect
  split
  · exact ⟨rfl, rfl, heaps⟩
  · generalize program ⟨self, default, heap⟩ = outcome at agree
    generalize program ⟨self, default, heap'⟩ = outcome' at agree
    cases agree with
    | stopped error =>
        exact ⟨rfl, rfl, bisimulation.after heaps⟩
    | returned value same =>
        exact ⟨rfl, same.spec, same.heap⟩

/-- The collector's two programs are made of the usual steps. -/
theorem Judgment.captureShift
    {holds : {α : Type} → SpecM α → Prop}
    (judgment : Judgment holds)
    (token : TFToken)
    (extra : Bool) :
    holds (captureShift token extra) :=
  judgment.newTree _

/-- Collecting a reduction. -/
theorem Judgment.captureReduce
    {holds : {α : Type} → SpecM α → Prop}
    (judgment : Judgment holds)
    (reduction : TFReduction Nat) :
    holds (captureReduce reduction) := by
  apply judgment.bind (judgment.asks _)
  intro used
  apply judgment.bind (judgment.reserve _ _)
  intro _
  exact judgment.bind (judgment.update _) (fun _ => judgment.newTree _)

/-- The same collector on the same stack. -/
def SameCollector (stack stack' : RawStack TFSpec Nat) : Prop :=
  stack.cells = stack'.cells ∧ stack.payload = stack'.payload

/-- Two collectors beside alike allocators are in step. -/
theorem captureSink_inStep
    (bisimulation : Heap.Bisimulation alike) :
    TFParser.InStep alike captureSink captureSink SameCollector Eq
      (fun _ payload _ payload' => payload = payload') where
  shifts := rfl
  reduces := rfl
  allocated := fun same _ => same
  step := by
    rintro ⟨cells, payload, heap⟩ ⟨cells', payload', heap'⟩ next next' event
      ⟨rfl, rfl⟩ heaps _ stepped stepped'
    have judgment := judgment_respects bisimulation
    cases event with
    | shift token extra state =>
        cases stepped
        cases stepped'
        obtain ⟨values, payloads, after⟩ :=
          collect_alike bisimulation (judgment.captureShift token extra)
            payload heaps
        refine ⟨after, ?_, payloads⟩
        simp only [TFSink.callShift, captureSink, values]
    | reduce symbol childCount productionId state =>
        simp only [RawStack.step] at stepped stepped'
        cases cuts : TFParser.popped cells childCount with
        | none =>
            rw [cuts] at stepped
            cases stepped
        | some cut =>
            rw [cuts] at stepped stepped'
            cases stepped
            cases stepped'
            obtain ⟨values, payloads, after⟩ :=
              collect_alike bisimulation
                (judgment.captureReduce
                  (TFParser.reductionOf cells cut.children symbol childCount
                    productionId)) payload heaps
            refine ⟨after, ?_, payloads⟩
            simp only [TFSink.callReduce, captureSink, values]
  close := by
    rintro ⟨cells, payload, heap⟩ ⟨cells', payload', heap'⟩ symbol childCount
      productionId token root root' after after' last last' ⟨rfl, rfl⟩ heaps
      _ closed closed'
    have judgment := judgment_respects bisimulation
    simp only [RawStack.close] at closed closed'
    cases cuts : TFParser.popped cells childCount with
    | none =>
        rw [cuts] at closed
        cases closed
    | some cut =>
        rw [cuts] at closed closed'
        dsimp only at closed closed'
        obtain ⟨values, payloads, ended⟩ :=
          collect_alike bisimulation (judgment.captureShift token true)
            payload heaps
        simp only [TFSink.callShift, captureSink] at closed closed'
        rw [values, payloads] at closed
        obtain ⟨_, roots, reduced⟩ :=
          collect_alike bisimulation
            (judgment.captureReduce
              (TFParser.rootReduction cells
                (TFParser.reductionOf cells cut.children symbol childCount
                  productionId) token
                (collect (captureShift token true) payload heap').1))
            (collect (captureShift token true) payload heap').2.1 ended
        simp only [TFSink.callReduce, Option.some.injEq, Prod.ext_iff]
          at closed closed'
        rw [← closed.2.1, ← closed'.2.1, ← closed.2.2, ← closed'.2.2]
        exact ⟨reduced, roots⟩
  parts := fun same => same.2
  rootParts := fun same => same

/-- Looking for the fork does not depend on the allocator. -/
theorem captureHook_alike
    (bisimulation : Heap.Bisimulation alike)
    (cells : List (TFCell Nat))
    (splitCount : Nat)
    (token : TFToken)
    (self : TFSpec)
    {heap heap' : Heap}
    (heaps : alike heap heap') :
    let hooked := captureHook cells splitCount token self heap
    let hooked' := captureHook cells splitCount token self heap'
    hooked.1 = hooked'.1 ∧ hooked.2.1 = hooked'.2.1 ∧
      alike hooked.2.2 hooked'.2.2 := by
  have agree :=
    (judgment_respects bisimulation).reserve .captureId cells.length
      ⟨self, default, heap⟩ ⟨self, default, heap'⟩ ⟨rfl, rfl, heaps⟩
  unfold captureHook
  split
  · exact ⟨rfl, rfl, heaps⟩
  · split
    · generalize
        reserve .captureId cells.length ⟨self, default, heap⟩ = outcome
          at agree
      generalize
        reserve .captureId cells.length ⟨self, default, heap'⟩ = outcome'
          at agree
      cases agree with
      | stopped error =>
          exact ⟨rfl, rfl, bisimulation.after heaps⟩
      | returned value same =>
          refine ⟨rfl, ?_, same.heap⟩
          simp only [same.spec]
    · exact ⟨rfl, rfl, heaps⟩

/-- Recovering shapes respects alike allocators when its replay does. -/
theorem materializeWith_respects
    {replay : List UInt8 → TFSpec → Heap → Option (TFResult TFSpec Nat)}
    (same :
      ∀ source spec heap heap', alike heap heap' →
        Option.Rel
          (fun result result' =>
            result.parser.payload = result'.parser.payload ∧
              alike result.parser.heap result'.parser.heap)
          (replay source spec heap) (replay source spec heap'))
    (bisimulation : Heap.Bisimulation alike) :
    Respects (TFSpecState.Alike alike) (materializeWith replay) := by
  have judgment := judgment_respects bisimulation
  apply judgment.bind (judgment.asks _)
  intro done
  apply judgment.ite (judgment.pure _)
  apply judgment.bind (judgment.update _)
  intro _ state state' related
  have replayed :=
    same state.lexer.source state.spec state.heap state'.heap related.heap
  rw [Program.bind_of_ok (Program.get_apply state),
    Program.bind_of_ok (Program.get_apply state'),
    ← related.lexer, ← related.spec]
  generalize
    replay state.lexer.source state.spec state.heap = outcome at replayed
  generalize
    replay state.lexer.source state.spec state'.heap = outcome' at replayed
  cases replayed with
  | none =>
      exact .stopped _
  | @some result result' ends_ =>
      have after :
          TFSpecState.Alike alike
            { state with
              spec := result.parser.payload
              heap := result.parser.heap }
            { state' with
              spec := result'.parser.payload
              heap := result'.parser.heap } :=
        ⟨ends_.1, related.lexer, ends_.2⟩
      let rest (payload : TFSpec) : SpecM Unit :=
        if !payload.captured then outOfMemory else Pure.pure ()
      have respects (payload : TFSpec) :
          Respects (TFSpecState.Alike alike) (rest payload) :=
        judgment.ite (judgment.stop _) (judgment.pure _)
      change
        Agree (TFSpecState.Alike alike)
          (rest result.parser.payload
            { state with
              spec := result.parser.payload
              heap := result.parser.heap })
          (rest result'.parser.payload
            { state' with
              spec := result'.parser.payload
              heap := result'.parser.heap })
      have agree := respects result.parser.payload _ _ after
      rw [← ends_.1] at agree ⊢
      exact agree

/-- Recovering shapes respects alike allocators. -/
theorem materialize_respects
    {lang : TFLanguage}
    (loaded : lang.Loaded)
    (bisimulation : Heap.Bisimulation alike)
    (depth : Nat) :
    Respects (TFSpecState.Alike alike) (materialize lang depth) := by
  induction depth with
  | zero =>
      exact Respects.stop
  | succ depth inductionHypothesis =>
      refine materializeWith_respects ?_ bisimulation
      intro source spec heap heap' heaps
      let env : TFRunEnv TFSpec Nat := {
        lang := lang
        sink := captureSink
        hook := captureHook
        materialize := materialize lang depth
        fuel := depth
      }
      have differ :
          TFParser.SinksDiffer alike env env SameCollector Eq
            (fun _ payload _ payload' => payload = payload') := by
        refine ⟨rfl, rfl, rfl, bisimulation, inductionHypothesis,
          captureSink_inStep bisimulation, ?_⟩
        rintro ⟨cells, payload, heap⟩ ⟨cells', payload', heap'⟩ splitCount
          token ⟨rfl, rfl⟩ heaps _
        obtain ⟨answers, payloads, after⟩ :=
          captureHook_alike bisimulation cells splitCount token payload heaps
        exact ⟨answers, after, rfl, payloads⟩
      have initially : SameCollector ⟨[], spec, heap⟩ ⟨[], spec, heap'⟩ :=
        ⟨rfl, rfl⟩
      have ran := differ.run loaded source heaps initially
      change
        Option.Rel _ (TFParser.run env source spec heap)
          (TFParser.run env source spec heap')
      generalize TFParser.run env source spec heap = outcome at ran ⊢
      generalize TFParser.run env source spec heap' = outcome' at ran ⊢
      cases ran with
      | none =>
          exact .none
      | some same =>
          refine .some ?_
          cases same with
          | accepted abreast =>
              exact ⟨abreast.together.2, abreast.twins.heap⟩
          | reported crowned =>
              exact ⟨crowned.rooted, crowned.twins.heap⟩
          | failed stranded =>
              exact ⟨stranded.parted, stranded.twins.heap⟩

end TFSpec

end TreeFeller
