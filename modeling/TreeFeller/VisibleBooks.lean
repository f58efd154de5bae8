import TreeFeller.FilterRuns
import TreeFeller.Handovers

namespace TreeFeller

open ValueLedger

/-!
# Who holds a visible value

What `on_node` returns stands in the arena until a parent's run takes it, is
folded away with its run, or becomes the root.  The books of the calls balance
with the arena between reductions.  Within one they need not: children have
been handed over while their entries still stand in the arena, and what was
returned for them stands in scratch.  If the filter gives up just then, those
values are given to nobody.
-/

/-- The values of a run of entries. -/
def entryValues {W : Type} (run : List (TFVisibleChild W)) : List W :=
  run.filterMap TFVisibleChild.value

@[simp] theorem entryValues_append {W : Type}
    (first second : List (TFVisibleChild W)) :
    entryValues (first ++ second) =
      entryValues first ++ entryValues second := by
  simp [entryValues]

@[simp] theorem entryValues_cons {W : Type}
    (entry : TFVisibleChild W)
    (rest : List (TFVisibleChild W)) :
    entryValues (entry :: rest) =
      entry.value.toList ++ entryValues rest := by
  unfold entryValues
  cases value : entry.value with
  | none =>
      simp [value]
  | some held =>
      simp [value]

/-- Entries taken from a run hold values of the run. -/
theorem entryValues_subset {W : Type}
    {part run : List (TFVisibleChild W)}
    (within : part ⊆ run) :
    entryValues part ⊆ entryValues run :=
  List.filterMap_subset _ within

/-- The books of a visible consumer's calls. -/
def visibleAccounts (W : Type) : Accounts (VisibleEvent W) W where
  issues := fun event =>
    match event with
    | .node _ value => value.toList
    | .hidden _ value => value.toList
    | _ => []
  takes := fun event =>
    match event with
    | .node node _ => entryValues node.children
    | .hidden node (some _) => entryValues node.children
    | .discard value => [value]
    | _ => []

/-- Whether `on_node`'s answer, if the event is such a call, is a value. -/
def VisibleEvent.answers {W : Type} : VisibleEvent W → Bool
  | .node _ value => value.isSome
  | _ => true

/-- Whether an event is a call that reports or offers something. -/
def VisibleEvent.isCall {W : Type} : VisibleEvent W → Bool
  | .node _ _ => true
  | .hidden _ _ => true
  | _ => false

/-- Callbacks that return a value of its own for every node of a log. -/
structure FreshNodes {τ W : Type}
    (sink : TFVisibleSink τ W)
    (log : List (VisibleEvent W)) : Prop where
  reports : sink.onNode.isSome = true
  answered : ∀ event ∈ log, event.answers = true
  distinct : ((visibleAccounts W).issued log).Nodup

namespace TFFilter

variable {τ W : Type}

/-- A field that is passed on changes no value. -/
@[simp] theorem entryValues_inheritRun
    (field : TSFieldId)
    (run : List (TFVisibleChild W)) :
    entryValues (inheritRun field run) = entryValues run := by
  unfold inheritRun entryValues
  split
  · rw [List.filterMap_map]
    congr 1
    funext entry
    simp only [Function.comp_apply, inheritField]
    split <;> rfl
  · rfl

/-- A call of `on_node` takes its children's values and issues its own. -/
theorem callNode_books
    {sink : TFVisibleSink τ W}
    (reports : sink.onNode.isSome = true)
    {consumer : TFConsumer τ W}
    (node : TFVisibleNode W)
    {others : List W}
    (balanced :
      Balanced (visibleAccounts W) consumer.events
        (entryValues node.children ++ others)) :
    let answer := consumer.callNode sink node
    answer.2.events = consumer.events ++ [.node node answer.1] ∧
      Balanced (visibleAccounts W) answer.2.events
        (answer.1.toList ++ others) := by
  obtain ⟨onNode, present⟩ := Option.isSome_iff_exists.mp reports
  intro answer
  have logged :
      answer.2.events = consumer.events ++ [.node node answer.1] := by
    simp [answer, TFConsumer.callNode, present]
  refine ⟨logged, ?_⟩
  rw [logged]
  exact balanced.record _ (.refl _) (.refl _)

/-- Collecting keeps the books balanced, run for run. -/
theorem collect_books
    {sink : TFVisibleSink τ W}
    (reports : sink.onNode.isSome = true)
    (lang : TFLanguage)
    (productionId : Nat)
    (children : List (TFNode (TFFilterValue W)))
    (structural : Nat)
    (run : List (TFVisibleChild W))
    (owned : (children.map owns).sum = run.length)
    (consumer : TFConsumer τ W)
    (others : List W)
    (balanced :
      Balanced (visibleAccounts W) consumer.events
        (entryValues run ++ others)) :
    let collected :=
      collect sink lang productionId children structural run consumer
    Balanced (visibleAccounts W) collected.2.events
      (entryValues collected.1 ++ others) := by
  induction children generalizing structural run consumer others with
  | nil =>
      have nothing : run = [] := by
        simpa using owned.symm
      simpa [collect, nothing] using balanced
  | cons child rest inductionHypothesis =>
      have restOwned :
          (rest.map owns).sum = (run.drop (owns child)).length := by
        simp only [List.map_cons, List.sum_cons] at owned
        rw [List.length_drop]
        omega
      have split :
          entryValues run =
            entryValues (run.take (owns child)) ++
              entryValues (run.drop (owns child)) := by
        rw [← entryValues_append, List.take_append_drop]
      rw [split, List.append_assoc] at balanced
      simp only [collect]
      by_cases visible :
          childVisible lang productionId structural child = true
      · rw [if_pos visible]
        by_cases drops :
            dropsChild sink lang productionId structural child = true
        · rw [if_pos drops]
          refine inductionHypothesis _ _ restOwned _ _ ?_
          simpa [owns_of_dropsChild drops, entryValues] using balanced
        · rw [if_neg drops]
          have called :=
            (callNode_books reports
              (childNode lang productionId structural child
                (run.take (owns child)))
              balanced).2
          have later :=
            inductionHypothesis (nextStructural structural child) _
              restOwned _ _
              (called.reorder
                (by
                  rw [← List.append_assoc, ← List.append_assoc]
                  exact List.perm_append_comm.append_right _))
          refine later.reorder ?_
          rw [← List.append_assoc]
          refine
            (List.perm_append_comm.trans
              (List.Perm.of_eq ?_)).append_right _
          rw [entryValues_cons]
          rfl
      · rw [if_neg visible]
        have later :=
          inductionHypothesis (nextStructural structural child) _
            restOwned consumer
            (entryValues (run.take (owns child)) ++ others)
            (balanced.reorder
              (by
                rw [← List.append_assoc, ← List.append_assoc]
                exact List.perm_append_comm.append_right _))
        refine later.reorder ?_
        rw [entryValues_append, entryValues_inheritRun,
          ← List.append_assoc]
        exact List.perm_append_comm.append_right _

/-- The calls collecting makes report nodes over what the run holds. -/
theorem collect_calls
    {sink : TFVisibleSink τ W}
    (reports : sink.onNode.isSome = true)
    (lang : TFLanguage)
    (productionId : Nat)
    (children : List (TFNode (TFFilterValue W)))
    (structural : Nat)
    (run : List (TFVisibleChild W))
    (consumer : TFConsumer τ W) :
    ∃ calls,
      (collect sink lang productionId children structural run
          consumer).2.events = consumer.events ++ calls ∧
        (∀ event ∈ calls, ∃ node value,
          event = .node node value) ∧
        (visibleAccounts W).taken calls ⊆ entryValues run := by
  induction children generalizing structural run consumer with
  | nil =>
      exact ⟨[], by simp [collect], by simp, by simp⟩
  | cons child rest inductionHypothesis =>
      have dropped : run.drop (owns child) ⊆ run :=
        List.drop_subset _ _
      simp only [collect]
      by_cases visible :
          childVisible lang productionId structural child = true
      · rw [if_pos visible]
        by_cases drops :
            dropsChild sink lang productionId structural child = true
        · rw [if_pos drops]
          obtain ⟨calls, logged, nodes, takes⟩ :=
            inductionHypothesis (nextStructural structural child)
              (run.drop (owns child)) consumer
          exact ⟨calls, logged, nodes,
            fun value member => entryValues_subset dropped (takes member)⟩
        · rw [if_neg drops]
          obtain ⟨onNode, present⟩ := Option.isSome_iff_exists.mp reports
          obtain ⟨calls, logged, nodes, takes⟩ :=
            inductionHypothesis (nextStructural structural child)
              (run.drop (owns child))
              (report sink lang productionId structural child
                (run.take (owns child)) consumer).2
          let node :=
            childNode lang productionId structural child
              (run.take (owns child))
          have reported :
              (report sink lang productionId structural child
                (run.take (owns child)) consumer).2.events =
                consumer.events ++
                  [.node node (onNode node consumer.payload).1] := by
            simp [report, TFConsumer.callNode, present, node]
          refine
            ⟨.node node (onNode node consumer.payload).1 :: calls, ?_, ?_,
              ?_⟩
          · rw [logged, reported]
            simp
          · intro event member
            rcases List.mem_cons.mp member with first | later
            · exact ⟨_, _, first⟩
            · exact nodes event later
          · rw [Accounts.taken_cons]
            refine List.append_subset.mpr ⟨?_, ?_⟩
            · exact entryValues_subset (List.take_subset _ _)
            · intro value member
              exact entryValues_subset dropped (takes member)
      · rw [if_neg visible]
        obtain ⟨calls, logged, nodes, takes⟩ :=
          inductionHypothesis (nextStructural structural child)
            (run.drop (owns child)) consumer
        exact ⟨calls, logged, nodes,
          fun value member => entryValues_subset dropped (takes member)⟩

/-- Between reductions the books balance with the arena. -/
structure Sound (filter : TFFilter τ W) : Prop where
  healthy : filter.failed = false
  calls : ∀ event ∈ filter.consumer.events, event.isCall = true
  balanced :
    Balanced (visibleAccounts W) filter.consumer.events
      (entryValues filter.arena)

/-- Once the filter has given up, its arena may be missing values. -/
inductive Spoiled (filter : TFFilter τ W) : Prop where
  /-- No value was under way: the books balance with the arena. -/
  | whole
      (failed : filter.failed = true)
      (quiet : .gaveUp true ∉ filter.consumer.events)
      (balanced :
        Balanced (visibleAccounts W) filter.consumer.events
          (entryValues filter.arena))
  /-- What the last calls returned stands nowhere. -/
  | missing
      (failed : filter.failed = true)
      (log calls : List (VisibleEvent W))
      (logged :
        filter.consumer.events = log ++ calls ++ [.gaveUp true])
      (some_ : calls ≠ [])
      (nodes : ∀ event ∈ calls, ∃ node value, event = .node node value)
      (taken :
        (visibleAccounts W).taken (log ++ calls) ⊆
          (visibleAccounts W).issued log)
      (arena :
        entryValues filter.arena ⊆ (visibleAccounts W).issued log)

/-- Giving up is no call. -/
theorem Sound.quiet
    {filter : TFFilter τ W}
    (sound : Sound filter)
    (answered : Bool) :
    .gaveUp answered ∉ filter.consumer.events := by
  intro member
  cases sound.calls _ member

/-- The leading hidden children keep their entries' values. -/
theorem entryValues_settleHidden
    (lang : TFLanguage)
    (productionId : Nat)
    (children : List (TFNode (TFFilterValue W)))
    (structural : Nat)
    (run : List (TFVisibleChild W)) :
    let leading :=
      settleHidden lang productionId children structural run
    entryValues (leading.1 ++ leading.2.run) = entryValues run := by
  induction children generalizing structural run with
  | nil =>
      simp [settleHidden]
  | cons child rest inductionHypothesis =>
      simp only [settleHidden]
      split
      · simp
      · have later :=
          inductionHypothesis (nextStructural structural child)
            (run.drop (owns child))
        simp only [entryValues_append] at later ⊢
        rw [List.append_assoc, later, entryValues_inheritRun,
          ← entryValues_append, List.take_append_drop]

/-- Settling a sound filter leaves it sound, or spoiled if it gives up. -/
theorem Sound.settle
    {sink : TFVisibleSink τ W}
    (reports : sink.onNode.isSome = true)
    (lang : TFLanguage)
    {filter : TFFilter τ W}
    (sound : Sound filter)
    (productionId : Nat)
    (children : List (TFNode (TFFilterValue W)))
    {below run : List (TFVisibleChild W)}
    (arena : filter.arena = below ++ run)
    (owned : (children.map owns).sum = run.length)
    (heap : Heap) :
    (∃ settled final after,
      filter.settle sink lang productionId children below.length heap =
          (true, settled, final) ∧
        Sound settled ∧ settled.arena = below ++ after) ∨
      ∃ settled final,
        filter.settle sink lang productionId children below.length heap =
            (false, settled, final) ∧
          Spoiled settled := by
  have runEq : filter.arena.drop below.length = run := by
    simp [arena]
  have belowEq : filter.arena.take below.length = below := by
    simp [arena]
  have split :
      List.Perm (entryValues filter.arena)
        (entryValues run ++ entryValues below) := by
    rw [arena, entryValues_append]
    exact List.perm_append_comm
  have cases_ :=
    settle_cases sink lang filter productionId children below.length heap
  rw [runEq, belowEq] at cases_
  rcases cases_ with
    ⟨arenaCapacity, scratchCapacity, final, settled, _⟩ |
      ⟨_, done, arenaCapacity, scratchCapacity, final, settled⟩
  · refine Or.inl ⟨_, final, _, settled, ⟨sound.healthy, ?_, ?_⟩, rfl⟩
    · obtain ⟨calls, logged, nodes, _⟩ :=
        collect_calls reports lang productionId children 0 run
          filter.consumer
      intro event member
      simp only [logged, List.mem_append] at member
      rcases member with before | new
      · exact sound.calls event before
      · obtain ⟨node, value, rfl⟩ := nodes event new
        rfl
    · have books :=
        collect_books reports lang productionId children 0 run owned
          filter.consumer _ (sound.balanced.reorder split)
      refine books.reorder ?_
      rw [entryValues_append]
      exact List.perm_append_comm
  · refine Or.inr ⟨_, final, settled, ?_⟩
    generalize leadingEq :
      settleHidden lang productionId children 0 run = leading at settled
    have patchedValues :
        entryValues (below ++ leading.1 ++ leading.2.run) =
          entryValues filter.arena := by
      have same :=
        entryValues_settleHidden lang productionId children 0 run
      rw [leadingEq] at same
      rw [List.append_assoc, entryValues_append, same, arena,
        entryValues_append]
    obtain ⟨calls, logged, nodes, takes⟩ :=
      collect_calls reports lang productionId done leading.2.structural
        leading.2.run filter.consumer
    have issued :
        entryValues filter.arena ⊆
          (visibleAccounts W).issued filter.consumer.events := by
      intro value member
      exact sound.balanced.account.mem_iff.mpr (by simp [member])
    cases calls with
    | nil =>
        rw [List.append_nil] at logged
        refine .whole rfl ?_ ?_
        · simp only [fail, hasCalledSince, logged]
          simpa using sound.quiet true
        · simp only [fail, logged, patchedValues]
          exact sound.balanced.idle _ rfl rfl
    | cons first rest =>
        refine
          .missing rfl filter.consumer.events (first :: rest) ?_ (by simp)
            nodes ?_ ?_
        · simp only [fail, hasCalledSince, logged]
          simp
        · rw [Accounts.taken_append]
          refine List.append_subset.mpr ⟨?_, ?_⟩
          · intro value member
            exact sound.balanced.account.mem_iff.mpr (by simp [member])
          · intro value member
            refine issued ?_
            rw [← patchedValues]
            simp only [entryValues_append, List.mem_append]
            exact Or.inr (takes member)
        · simp only [fail, patchedValues]
          exact issued

/-- Offering a run for folding leaves a sound filter sound. -/
theorem Sound.offerFold
    (sink : TFVisibleSink τ W)
    (lang : TFLanguage)
    {filter : TFFilter τ W}
    (sound : Sound filter)
    (reduction : TFReduction (TFFilterValue W))
    {below run : List (TFVisibleChild W)}
    (arena : filter.arena = below ++ run)
    (heap : Heap) :
    let offered :=
      filter.offerFold sink lang reduction below.length heap
    Sound offered.1 ∧ ∃ after, offered.1.arena = below ++ after := by
  obtain ⟨after, final, arenaAfter, consumerAfter, offer, healthy, _⟩ :=
    offerFold_offer sink lang filter reduction arena heap
  refine ⟨⟨healthy.trans sound.healthy, ?_, ?_⟩, after, arenaAfter⟩
  · rw [consumerAfter]
    cases offer with
    | kept =>
        exact sound.calls
    | declined folds refused =>
        intro event member
        rcases List.mem_append.mp member with before | new
        · exact sound.calls event before
        · rw [List.mem_singleton.mp new]
          rfl
    | folded folds several offered accepted =>
        intro event member
        rcases List.mem_append.mp member with before | new
        · exact sound.calls event before
        · rw [List.mem_singleton.mp new]
          rfl
  · have balanced := sound.balanced
    rw [arena] at balanced
    rw [consumerAfter, arenaAfter]
    cases offer with
    | kept =>
        exact balanced
    | declined folds refused =>
        simp only [TFConsumer.callHidden] at refused ⊢
        rw [refused]
        exact balanced.idle _ rfl rfl
    | @folded onHidden node value folds several offered accepted =>
        simp only [TFConsumer.callHidden] at accepted ⊢
        rw [accepted]
        rw [entryValues_append] at balanced ⊢
        have taken :
            Balanced (visibleAccounts W)
              (filter.consumer.events ++ [.hidden node (some value)])
              ([value] ++ entryValues below) := by
          refine balanced.record _ ?_ (.refl _)
          simp only [visibleAccounts, offered]
          exact List.perm_append_comm
        exact taken.reorder List.perm_append_comm

/-- A reduction other than the root's leaves its run at the arena's end. -/
theorem Sound.onReduce_inner
    {sink : TFVisibleSink τ W}
    (reports : sink.onNode.isSome = true)
    (lang : TFLanguage)
    {filter : TFFilter τ W}
    (sound : Sound filter)
    {reduction : TFReduction (TFFilterValue W)}
    (inner : isRoot reduction = false)
    {below run : List (TFVisibleChild W)}
    (arena : filter.arena = below ++ run)
    (owned : (reduction.children.map owns).sum = run.length)
    (heap : Heap) :
    let answer := onReduce sink lang reduction filter heap
    (∃ count,
      answer.1 = some (.cell ⟨count, reduction.productionId⟩) ∧
        Sound answer.2.1 ∧
        answer.2.1.arena.length = below.length + count) ∨
      (answer.1 = none ∧ Spoiled answer.2.1) := by
  have base : filter.arena.length - run.length = below.length := by
    simp [arena]
  unfold onReduce
  rw [if_neg (by simp [sound.healthy])]
  simp only [owned, base]
  rcases sound.settle reports lang reduction.productionId
      reduction.children arena owned heap with
    ⟨settled, final, after, settles, soundAfter, arenaAfter⟩ |
      ⟨settled, final, settles, spoiled⟩
  · obtain ⟨soundOffered, last, arenaOffered⟩ :=
      soundAfter.offerFold sink lang reduction arenaAfter final
    simp only [settles, inner, Bool.false_eq_true, if_false]
    refine Or.inl ⟨last.length, ?_, soundOffered, ?_⟩
    · simp [arenaOffered]
    · rw [arenaOffered, List.length_append]
  · simp only [settles]
    exact Or.inr ⟨trivial, spoiled⟩

/-- What the filter holds when it is done with a root of a symbol. -/
structure RootHeld
    (lang : TFLanguage)
    (symbol : TSSymbol)
    (root : Option (TFFilterValue W))
    (filter : TFFilter τ W) : Prop where
  healthy : filter.failed = false
  calls : ∀ event ∈ filter.consumer.events, event.isCall = true
  visible :
    (lang.symbolMetadata symbol).visible = true →
      ∃ value : Option W,
        root = value.map .root ∧
          Balanced (visibleAccounts W) filter.consumer.events value.toList
  hidden :
    (lang.symbolMetadata symbol).visible = false →
      root = none ∧
        Balanced (visibleAccounts W) filter.consumer.events
          (entryValues filter.arena)

/-- The root's reduction reports the root over the whole arena. -/
theorem Sound.onReduce_root
    {sink : TFVisibleSink τ W}
    (reports : sink.onNode.isSome = true)
    (lang : TFLanguage)
    {filter : TFFilter τ W}
    (sound : Sound filter)
    {reduction : TFReduction (TFFilterValue W)}
    (root : isRoot reduction = true)
    (owned :
      (reduction.children.map owns).sum = filter.arena.length)
    (heap : Heap) :
    let answer := onReduce sink lang reduction filter heap
    RootHeld lang reduction.symbol answer.1 answer.2.1 ∨
      Spoiled answer.2.1 := by
  unfold onReduce
  rw [if_neg (by simp [sound.healthy])]
  simp only [owned, Nat.sub_self]
  rcases sound.settle reports lang reduction.productionId
      reduction.children
      (show filter.arena = [] ++ filter.arena from rfl) owned heap with
    ⟨settled, final, after, settles, soundAfter, arenaAfter⟩ |
      ⟨settled, final, settles, spoiled⟩
  · rw [List.length_nil] at settles
    obtain ⟨soundOffered, last, arenaOffered⟩ :=
      soundAfter.offerFold sink lang reduction arenaAfter final
    rw [List.length_nil] at soundOffered arenaOffered
    rw [List.nil_append] at arenaOffered
    simp only [settles, root, if_true]
    refine Or.inl ?_
    generalize settled.offerFold sink lang reduction 0 final = offered
      at soundOffered arenaOffered ⊢
    have balanced := soundOffered.balanced
    simp only [reportRoot]
    split
    · rename_i visible
      have books :=
        callNode_books reports
          (parentNode lang reduction
            (lang.symbolMetadata reduction.symbol).named
            (offered.1.arena.drop 0))
          (show Balanced (visibleAccounts W) offered.1.consumer.events
              (entryValues (offered.1.arena.drop 0) ++ []) by
            rw [List.append_nil]
            exact balanced)
      refine ⟨soundOffered.healthy, ?_, ?_, ?_⟩
      · intro event member
        rw [books.1] at member
        rcases List.mem_append.mp member with before | new
        · exact soundOffered.calls event before
        · rw [List.mem_singleton.mp new]
          rfl
      · intro _
        refine ⟨_, rfl, ?_⟩
        have booksAfter := books.2
        rw [List.append_nil] at booksAfter
        exact booksAfter
      · intro hidden
        rw [hidden] at visible
        cases visible
    · rename_i hidden
      refine ⟨soundOffered.healthy, soundOffered.calls, ?_, ?_⟩
      · intro visible
        exact absurd visible hidden
      · intro _
        exact ⟨rfl, balanced⟩
  · rw [List.length_nil] at settles
    simp only [settles]
    exact Or.inr spoiled

/-- A filter that has given up does nothing more. -/
theorem onReduce_failed
    (sink : TFVisibleSink τ W)
    (lang : TFLanguage)
    {filter : TFFilter τ W}
    (failed : filter.failed = true)
    (reduction : TFReduction (TFFilterValue W))
    (heap : Heap) :
    onReduce sink lang reduction filter heap = (none, filter, heap) := by
  unfold onReduce
  rw [if_pos failed]

/-- A spoiled filter has given up. -/
theorem Spoiled.failed
    {filter : TFFilter τ W}
    (spoiled : Spoiled filter) :
    filter.failed = true := by
  cases spoiled with
  | whole failed quiet balanced =>
      exact failed
  | missing failed log calls logged some_ nodes taken arena =>
      exact failed

end TFFilter

end TreeFeller
