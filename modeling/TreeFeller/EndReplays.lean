import TreeFeller.EndRuns

/-!
# The end token in the events of a parse

A private replay collects trees of the kind, so recovering shapes keeps them,
and a parse hands over the end token as an extra only.
-/

namespace TreeFeller

open StatefulProgram

namespace TFSpec

/-- A collected value is a tree of the graph, unless collecting has failed. -/
def Answered (self : TFSpec) (value : Option Nat) : Prop :=
  self.failed = true ∨ ∃ id, value = some id ∧ id < self.trees.length

section Collecting

variable {count : Nat}
variable {roots : Nat → Prop}
variable {self after : TFSpec}

/-- More trees, and a failure that lasts, keep what was collected. -/
theorem Answered.mono
    (failed : self.failed = true → after.failed = true)
    (larger : self.trees.length ≤ after.trees.length)
    {value : Option Nat}
    (answered : self.Answered value) :
    after.Answered value := by
  rcases answered with isFailed | ⟨id, rfl, within⟩
  · exact Or.inl (failed isFailed)
  · exact Or.inr ⟨id, rfl, Nat.lt_of_lt_of_le within larger⟩

/-- A program that the collector runs to add a tree, or fails to. -/
theorem Apart.collect
    (apart : self.Apart count roots)
    {program : SpecM Nat}
    {heap : Heap}
    (adds :
      ∀ {id : Nat} {state : TFSpecState},
        self.failed = false →
          program ⟨self, default, heap⟩ = .ok (id, state) →
            state.spec.Apart count roots ∧
              id < state.spec.trees.length ∧
                self.trees.length ≤ state.spec.trees.length) :
    let collected := collect program self heap
    KeepsValues (fun self : TFSpec => self.Apart count roots) Answered self
        collected.2.1 ∧
      collected.2.1.Answered collected.1 := by
  unfold TFSpec.collect
  split
  · rename_i failed
    exact ⟨⟨apart, fun _ known => known⟩, Or.inl failed⟩
  · rename_i healthy
    have whole : self.failed = false := by simpa using healthy
    split
    · rename_i id state ran
      obtain ⟨kept, within, larger⟩ := adds whole ran
      refine ⟨⟨kept, ?_⟩, Or.inr ⟨id, rfl, within⟩⟩
      intro value known
      refine known.mono ?_ larger
      intro isFailed
      rw [whole] at isFailed
      cases isFailed
    · have failing : Apart count roots { self with failed := true } :=
        apart.beside rfl rfl (Nat.le_refl _)
      exact ⟨⟨failing, fun _ _ => Or.inl rfl⟩, Or.inl rfl⟩

/-- A tree that suits the graph is collected. -/
theorem Apart.newTree
    {before after : TFSpecState}
    (apart : before.spec.Apart count roots)
    {tree : TFSpecTree}
    (apt : Apt before.spec.trees.length tree)
    {id : Nat}
    (ran : newTree tree before = .ok (id, after)) :
    after.spec.Apart count roots ∧
      id < after.spec.trees.length ∧
        before.spec.trees.length ≤ after.spec.trees.length := by
  obtain ⟨capacity, heap, rfl, rfl⟩ := newTree_ran ran
  refine ⟨?_, by simp, by simp⟩
  have added := apart.addTree apt (fun _ isRoot => Or.inl isRoot)
  exact added.beside rfl rfl (Nat.le_refl _)

/-- The collector's sink collects trees that are the end token as an extra. -/
theorem captureSink_answers :
    captureSink.Answers (fun self => self.Apart count roots) Answered where
  shift := by
    intro token extra payload heap ends apart
    refine apart.collect ?_
    intro id state _ ran
    refine Apart.newTree apart ?_ ran
    exact ⟨fun isEnd => ⟨ends isEnd, Or.inl rfl⟩, List.forall_mem_nil _⟩
  reduce := by
    intro reduction payload heap other children apart
    refine apart.collect ?_
    intro id state whole ran
    have known :
        ∀ child ∈
          reduction.children.map (fun child => child.value.getD noTree),
          child < payload.trees.length := by
      intro child member
      obtain ⟨node, isNode, rfl⟩ := List.mem_map.mp member
      rcases children node isNode with failed | ⟨id, isValue, within⟩
      · rw [whole] at failed
        cases failed
      · rw [isValue]
        exact within
    unfold captureReduce at ran
    obtain ⟨used, _, asked, ran⟩ := Program.bind_eq_ok.mp ran
    cases asked
    obtain ⟨_, roomy, room, ran⟩ := Program.bind_eq_ok.mp ran
    obtain ⟨capacity, heap, rfl⟩ := reserve_eq_ok room
    obtain ⟨_, counted, counts, ran⟩ := Program.bind_eq_ok.mp ran
    cases counts
    refine Apart.newTree ?_ ⟨fun isEnd => absurd isEnd other, known⟩ ran
    exact Apart.beside apart rfl rfl (Nat.le_refl _)
  discard := by
    intro onDiscard none_
    cases none_

/-- Recording the trees below the fork gives trees the children of others. -/
theorem Apart.captureCells
    (apart : self.Apart count roots)
    (cells : List (TFCell Nat)) :
    (self.captureCells cells).Apart count roots ∧
      (self.captureCells cells).trees.length = self.trees.length ∧
        (self.captureCells cells).failed = self.failed := by
  have resolves :
      ∀ (places : List Nat) (graph : TFSpec),
        graph.Apart count roots →
          (places.foldl TFSpec.resolve graph).Apart count roots ∧
            (places.foldl TFSpec.resolve graph).trees.length =
                graph.trees.length ∧
              (places.foldl TFSpec.resolve graph).failed = graph.failed := by
    intro places
    induction places with
    | nil =>
        exact fun graph kept => ⟨kept, rfl, rfl⟩
    | cons place rest inductionHypothesis =>
        intro graph kept
        obtain ⟨ends, same, failed⟩ :=
          inductionHypothesis _ (kept.resolve place)
        refine ⟨ends, same.trans ?_, failed⟩
        simp [TFSpec.resolve, TFSpec.modifyTree]
  refine resolves _ _ ?_
  exact apart.beside rfl rfl (Nat.le_refl _)

/-- Reaching the fork keeps what was collected. -/
theorem Apart.captureHook
    (apart : self.Apart count roots)
    (cells : List (TFCell Nat))
    (splits : Nat)
    (token : TFToken)
    (heap : Heap) :
    KeepsValues (fun self : TFSpec => self.Apart count roots) Answered self
      (captureHook cells splits token self heap).2.1 := by
  unfold TFSpec.captureHook
  split
  · exact ⟨apart, fun _ known => known⟩
  · split
    · split
      · rename_i answer state reserved
        obtain ⟨capacity, heap, rfl⟩ := reserve_eq_ok reserved
        have beside :
            Apart count roots { self with capacity := capacity } :=
          apart.beside rfl rfl (Nat.le_refl _)
        obtain ⟨kept, same, sameFailed⟩ := beside.captureCells cells
        refine ⟨kept, fun value known => ?_⟩
        refine known.mono ?_ (Nat.le_of_eq same.symm)
        intro failed
        exact sameFailed.trans failed
      · have failing : Apart count roots { self with failed := true } :=
          apart.beside rfl rfl (Nat.le_refl _)
        exact ⟨failing, fun _ _ => Or.inl rfl⟩
    · exact ⟨apart, fun _ known => known⟩

/-- Recovering shapes by a replay that keeps the end token apart. -/
theorem apart_materializeWith
    {replay : List UInt8 → TFSpec → Heap → Option (TFResult TFSpec Nat)}
    (keeps :
      ∀ source spec heap result,
        replay source spec heap = some result →
          spec.Apart count roots →
            result.parser.payload.Apart count roots) :
    Program.Maintains
      (fun state : TFSpecState => state.spec.Apart count roots)
      (materializeWith replay) := by
  unfold materializeWith
  refine Program.Maintains.bind edits_asks (fun known => ?_)
  refine Program.Maintains.ite Program.Maintains.pure ?_
  refine Program.Maintains.bind
    (fun _ _ _ apart ran => by
      cases ran
      exact Apart.beside apart rfl rfl (Nat.le_refl _))
    (fun _ => ?_)
  intro before value after apart ran
  obtain ⟨state, read, asked, ran⟩ := Program.bind_eq_ok.mp ran
  cases asked
  cases replayed :
      replay before.lexer.source before.spec before.heap with
  | none =>
      rw [replayed] at ran
      cases ran
  | some result =>
      rw [replayed] at ran
      have recovered := keeps _ _ _ _ replayed apart
      obtain ⟨_, stored, updated, ran⟩ := Program.bind_eq_ok.mp ran
      cases updated
      split at ran
      · cases ran
      · cases ran
        exact recovered

/-- Recovering the inherited shapes keeps the end token apart. -/
theorem apart_materialize
    {lang : TFLanguage}
    (reserves : lang.ReservesEnd)
    (fuel : Nat) :
    Program.Maintains
      (fun state : TFSpecState => state.spec.Apart count roots)
      (materialize lang fuel) := by
  induction fuel generalizing count roots with
  | zero =>
      exact Program.Ensures.stop
  | succ fuel inductionHypothesis =>
      refine apart_materializeWith ?_
      intro source spec heap result replayed apart
      let env : TFRunEnv TFSpec Nat :=
        { lang := lang
          sink := captureSink
          hook := captureHook
          materialize := materialize lang fuel
          fuel := fuel }
      have reservesHere : env.lang.ReservesEnd := reserves
      have answers :
          env.sink.Answers (fun self : TFSpec => self.Apart count roots)
            Answered :=
        captureSink_answers
      have rooms :
          ∀ {nodes trees},
            Program.Maintains (Roomy nodes trees) env.materialize :=
        rooms_materialize lang fuel
      have keeps : Program.Keeps finishedOf env.materialize :=
        keeps_materialize lang fuel
      exact (TFParser.apart_run answers reservesHere rooms
        inductionHypothesis keeps
        (fun cells splits token payload heap kept =>
          kept.captureHook cells splits token heap) apart replayed).payload

end Collecting

end TFSpec

/-- A parse hands over the end token as an extra only, whoever takes it. -/
theorem tfParse_endsAsExtra
    {σ V : Type}
    {lang : TFLanguage}
    (reserves : lang.ReservesEnd)
    {sink : TFSink σ V}
    {fuel : Nat}
    {source : List UInt8}
    {payload : σ}
    {heap : Heap}
    {result : TFResult σ V}
    (ran : tfParse lang sink fuel source payload heap = some result) :
    ∀ event ∈ result.parser.events, event.EndsAsExtra := by
  let env : TFRunEnv σ V := .consumer lang sink fuel
  have reservesHere : env.lang.ReservesEnd := reserves
  have answers : env.sink.Answers (fun _ => True) (fun _ _ => True) := by
    refine ⟨?_, ?_, ?_⟩
    · intro token extra payload heap _ _
      exact ⟨⟨trivial, fun _ _ => trivial⟩, trivial⟩
    · intro reduction payload heap _ _ _
      exact ⟨⟨trivial, fun _ _ => trivial⟩, trivial⟩
    · intro onDiscard _ value payload _
      exact ⟨trivial, fun _ _ => trivial⟩
  exact (TFParser.apart_run answers reservesHere
    (TFSpec.rooms_materialize lang fuel)
    (TFSpec.apart_materialize reserves fuel)
    (TFSpec.keeps_materialize lang fuel)
    (fun _ _ _ _ _ _ => ⟨trivial, fun _ _ => trivial⟩) trivial ran).events

end TreeFeller
