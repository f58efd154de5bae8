import TreeFeller.Visible

namespace TreeFeller

/-!
# What one reduction settles

`on_reduce` reads the runs of its children in two passes, of which the second
moves entries through scratch.  Without an allocation failure the two passes
come to one: `collect` walks the children once, hands every visible one to the
consumer over the entries it owns, and passes the entries of the others on.
-/

namespace Heap

/-- A reliable allocator serves every request and stays reliable. -/
theorem Reliable.allocate
    {heap : Heap}
    (reliable : heap.Reliable) :
    heap.allocate.1 = true ∧ heap.allocate.2.Reliable := by
  constructor
  · simp [Heap.allocate, reliable heap.served]
  · exact reliable

end Heap

namespace TFFilter

variable {τ W : Type}

/-- A visible child, reported: its entry, and the consumer after the call. -/
def report
    (sink : TFVisibleSink τ W)
    (lang : TFLanguage)
    (productionId structural : Nat)
    (child : TFNode (TFFilterValue W))
    (own : List (TFVisibleChild W))
    (consumer : TFConsumer τ W) :
    TFVisibleChild W × TFConsumer τ W :=
  let node := childNode lang productionId structural child own
  let answer := consumer.callNode sink node
  (⟨node.symbol, childField lang productionId structural child,
      child.extra, answer.1⟩,
    answer.2)

/-- The entries a list of children settles over the runs they own. -/
def collect
    (sink : TFVisibleSink τ W)
    (lang : TFLanguage)
    (productionId : Nat) :
    List (TFNode (TFFilterValue W)) → Nat → List (TFVisibleChild W) →
      TFConsumer τ W → List (TFVisibleChild W) × TFConsumer τ W
  | [], _, _, consumer => ([], consumer)
  | child :: rest, structural, run, consumer =>
      let own := run.take (owns child)
      let further := run.drop (owns child)
      let next := nextStructural structural child
      if childVisible lang productionId structural child then
        if dropsChild sink lang productionId structural child then
          collect sink lang productionId rest next further consumer
        else
          let reported :=
            report sink lang productionId structural child own consumer
          let later :=
            collect sink lang productionId rest next further reported.2
          (reported.1 :: later.1, later.2)
      else
        let field := childField lang productionId structural child
        let later :=
          collect sink lang productionId rest next further consumer
        (inheritRun field own ++ later.1, later.2)

/-- A dropped child owns nothing. -/
theorem owns_of_dropsChild
    {sink : TFVisibleSink τ W}
    {lang : TFLanguage}
    {productionId structural : Nat}
    {child : TFNode (TFFilterValue W)}
    (drops :
      dropsChild sink lang productionId structural child = true) :
    owns child = 0 := by
  simp only [dropsChild, Bool.and_eq_true, beq_iff_eq] at drops
  exact drops.2

/-- Passing over the leading hidden children settles what `collect` would. -/
theorem collect_settleHidden
    (sink : TFVisibleSink τ W)
    (lang : TFLanguage)
    (productionId : Nat)
    (children : List (TFNode (TFFilterValue W)))
    (structural : Nat)
    (run : List (TFVisibleChild W))
    (consumer : TFConsumer τ W) :
    let leading :=
      settleHidden lang productionId children structural run
    let later :=
      collect sink lang productionId leading.2.children
        leading.2.structural leading.2.run consumer
    collect sink lang productionId children structural run consumer =
      (leading.1 ++ later.1, later.2) := by
  induction children generalizing structural run with
  | nil =>
      simp [settleHidden, collect]
  | cons child rest inductionHypothesis =>
      by_cases visible :
          childVisible lang productionId structural child = true
      · simp [settleHidden, visible]
      · have later :=
          inductionHypothesis (nextStructural structural child)
            (run.drop (owns child))
        simp only [settleHidden, visible, Bool.false_eq_true, if_false]
        rw [collect]
        simp only [visible, Bool.false_eq_true, if_false]
        rw [later]
        simp

/-- Reserving makes room, unless the allocator is not reliable. -/
theorem reserve_cases
    (capacity needed : Nat)
    (heap : Heap) :
    (∃ grown final,
      reserve capacity needed heap = (true, grown, final) ∧
        (heap.Reliable → final.Reliable)) ∨
      (¬ heap.Reliable ∧
        ∃ final, reserve capacity needed heap = (false, capacity, final)) := by
  unfold reserve
  split
  · exact Or.inl ⟨capacity, heap, rfl, id⟩
  · dsimp only
    split
    · exact Or.inl ⟨_, _, rfl, fun reliable => reliable.allocate.2⟩
    · rename_i refused
      refine Or.inr ⟨?_, _, rfl⟩
      intro reliable
      exact refused reliable.allocate.1

/--
Building through scratch produces what `collect` does, or stops where it can
grow no further.
-/
theorem buildScratch_cases
    (sink : TFVisibleSink τ W)
    (lang : TFLanguage)
    (productionId : Nat)
    (children : List (TFNode (TFFilterValue W)))
    (structural : Nat)
    (run produced : List (TFVisibleChild W))
    (self : TFFilter τ W)
    (heap : Heap) :
    let collected :=
      collect sink lang productionId children structural run self.consumer
    let built :=
      buildScratch sink lang productionId children structural run produced
        self heap
    (∃ capacity final,
      built =
          (some (produced ++ collected.1),
            { self with
              scratchCapacity := capacity
              consumer := collected.2 },
            final) ∧
        (heap.Reliable → final.Reliable)) ∨
      (¬ heap.Reliable ∧
        ∃ done capacity final,
          built =
            (none,
              { self with
                scratchCapacity := capacity
                consumer :=
                  (collect sink lang productionId done structural run
                    self.consumer).2 },
              final)) := by
  induction children generalizing structural run produced self heap with
  | nil =>
      exact Or.inl ⟨self.scratchCapacity, heap,
        by simp [buildScratch, collect], id⟩
  | cons child rest inductionHypothesis =>
      by_cases visible :
          childVisible lang productionId structural child = true
      · by_cases drops :
            dropsChild sink lang productionId structural child = true
        · have nothing := owns_of_dropsChild drops
          rcases inductionHypothesis (nextStructural structural child) run
              produced self heap with
            went | ⟨unreliable, done, capacity, final, stopped⟩
          · refine Or.inl ?_
            simpa [buildScratch, collect, visible, drops, nothing] using
              went
          · refine Or.inr
              ⟨unreliable, child :: done, capacity, final, ?_⟩
            simpa [buildScratch, collect, visible, drops, nothing] using
              stopped
        · rcases reserve_cases self.scratchCapacity (produced.length + 1)
              heap with
            ⟨grown, heap', room, kept⟩ | ⟨unreliable, final, full⟩
          · simp only [buildScratch, visible, drops, room, if_true,
              Bool.not_true, Bool.false_eq_true, if_false]
            rcases inductionHypothesis (nextStructural structural child)
                (run.drop (owns child))
                (produced ++
                  [(report sink lang productionId structural child
                    (run.take (owns child)) self.consumer).1])
                { self with
                  scratchCapacity := grown
                  consumer :=
                    (report sink lang productionId structural child
                      (run.take (owns child)) self.consumer).2 }
                heap' with
              ⟨capacity, final, built, reliable⟩ |
                ⟨unreliable, done, capacity, final, stopped⟩
            · refine Or.inl ⟨capacity, final, ?_,
                fun holds => reliable (kept holds)⟩
              rw [collect]
              simp only [visible, drops, if_true, Bool.false_eq_true,
                if_false]
              simpa [report] using built
            · refine Or.inr ⟨fun holds => unreliable (kept holds),
                child :: done, capacity, final, ?_⟩
              rw [collect]
              simp only [visible, drops, if_true, Bool.false_eq_true,
                if_false]
              simpa [report] using stopped
          · refine Or.inr
              ⟨unreliable, [], self.scratchCapacity, final, ?_⟩
            simp [buildScratch, collect, visible, drops, full]
      · rcases reserve_cases self.scratchCapacity
            (produced.length + owns child) heap with
          ⟨grown, heap', room, kept⟩ | ⟨unreliable, final, full⟩
        · simp only [buildScratch, visible, room, Bool.not_true,
            Bool.false_eq_true, if_false]
          rcases inductionHypothesis (nextStructural structural child)
              (run.drop (owns child))
              (produced ++
                inheritRun (childField lang productionId structural child)
                  (run.take (owns child)))
              { self with scratchCapacity := grown } heap' with
            ⟨capacity, final, built, reliable⟩ |
              ⟨unreliable, done, capacity, final, stopped⟩
          · refine Or.inl ⟨capacity, final, ?_,
              fun holds => reliable (kept holds)⟩
            rw [collect]
            simp only [visible, Bool.false_eq_true, if_false]
            simpa using built
          · refine Or.inr ⟨fun holds => unreliable (kept holds),
              child :: done, capacity, final, ?_⟩
            rw [collect]
            simp only [visible, Bool.false_eq_true, if_false]
            simpa using stopped
        · refine Or.inr
            ⟨unreliable, [], self.scratchCapacity, final, ?_⟩
          simp [buildScratch, collect, visible, full]

/--
A reduction settles what `collect` makes of its children's runs, or gives up
with the entries it read still in the arena.
-/
theorem settle_cases
    (sink : TFVisibleSink τ W)
    (lang : TFLanguage)
    (self : TFFilter τ W)
    (productionId : Nat)
    (children : List (TFNode (TFFilterValue W)))
    (base : Nat)
    (heap : Heap) :
    let collected :=
      collect sink lang productionId children 0 (self.arena.drop base)
        self.consumer
    let leading :=
      settleHidden lang productionId children 0 (self.arena.drop base)
    (∃ arenaCapacity scratchCapacity final,
      self.settle sink lang productionId children base heap =
          (true,
            { self with
              arena := self.arena.take base ++ collected.1
              arenaCapacity := arenaCapacity
              scratchCapacity := scratchCapacity
              consumer := collected.2 },
            final) ∧
        (heap.Reliable → final.Reliable)) ∨
      (¬ heap.Reliable ∧
        ∃ done arenaCapacity scratchCapacity final,
          let patched : TFFilter τ W :=
            { self with
              arena :=
                self.arena.take base ++ leading.1 ++ leading.2.run
              arenaCapacity := arenaCapacity
              scratchCapacity := scratchCapacity
              consumer :=
                (collect sink lang productionId done leading.2.structural
                  leading.2.run self.consumer).2 }
          self.settle sink lang productionId children base heap =
            (false, patched.fail (patched.hasCalledSince self), final)) := by
  have onePass :=
    collect_settleHidden sink lang productionId children 0
      (self.arena.drop base) self.consumer
  generalize settled :
    settleHidden lang productionId children 0 (self.arena.drop base) =
      leading at onePass
  simp only [onePass]
  rcases buildScratch_cases sink lang productionId leading.2.children
      leading.2.structural leading.2.run []
      { self with
        arena := self.arena.take base ++ leading.1 ++ leading.2.run }
      heap with
    ⟨capacity, heap', built, kept⟩ |
      ⟨unreliable, done, capacity, final, stopped⟩
  · simp only [settle, settled, built, List.nil_append]
    split
    · rename_i empty
      have none :
          (collect sink lang productionId leading.2.children
            leading.2.structural leading.2.run self.consumer).1 = [] := by
        simpa using empty
      refine Or.inl ⟨self.arenaCapacity, capacity, heap', ?_, kept⟩
      simp [none]
    · rcases reserve_cases self.arenaCapacity
          ((self.arena.take base ++ leading.1).length +
            (collect sink lang productionId leading.2.children
              leading.2.structural leading.2.run self.consumer).1.length)
          heap' with
        ⟨grown, final, room, reliable⟩ | ⟨unreliable, final, full⟩
      · refine Or.inl ⟨grown, capacity, final, ?_,
          fun holds => reliable (kept holds)⟩
        simp only [room]
        simp
      · refine Or.inr ⟨fun holds => unreliable (kept holds),
          leading.2.children, self.arenaCapacity, capacity, final, ?_⟩
        simp only [full]
        simp
  · refine Or.inr
      ⟨unreliable, done, self.arenaCapacity, capacity, final, ?_⟩
    simp only [settle, settled, stopped]

/-- A reduction settles its children's runs where the allocator is reliable. -/
theorem settle_reliable
    (sink : TFVisibleSink τ W)
    (lang : TFLanguage)
    (self : TFFilter τ W)
    (productionId : Nat)
    (children : List (TFNode (TFFilterValue W)))
    (base : Nat)
    {heap : Heap}
    (reliable : heap.Reliable) :
    let collected :=
      collect sink lang productionId children 0 (self.arena.drop base)
        self.consumer
    ∃ arenaCapacity scratchCapacity final,
      self.settle sink lang productionId children base heap =
        (true,
          { self with
            arena := self.arena.take base ++ collected.1
            arenaCapacity := arenaCapacity
            scratchCapacity := scratchCapacity
            consumer := collected.2 },
          final) ∧
        final.Reliable := by
  rcases settle_cases sink lang self productionId children base heap with
    ⟨arenaCapacity, scratchCapacity, final, settled, kept⟩ |
      ⟨unreliable, _⟩
  · exact ⟨arenaCapacity, scratchCapacity, final, settled, kept reliable⟩
  · exact absurd reliable unreliable

end TFFilter

end TreeFeller
