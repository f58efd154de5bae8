import TreeFeller.SitedReports
import TreeFeller.VisibleRuns

/-!
# The positions that the filter reports

The filter makes the node of a child from the child and that of the root from
its reduction.  It is one more sink that keeps to the path, so the positions of
visible nodes are the input's as well.
-/

namespace TreeFeller

open StatefulProgram
open TFLexer

/-- The positions of a visible node. -/
def TFVisibleNode.positions {W : Type}
    (self : TFVisibleNode W) :
    List (Nat × TFPoint) :=
  [(self.startByte, self.startPoint), (self.endByte, self.endPoint)]

/-- The positions that a call of the filter's consumer hands over. -/
def VisibleEvent.positions {W : Type} :
    VisibleEvent W → List (Nat × TFPoint)
  | .node reported _ => reported.positions
  | .hidden reported _ => reported.positions
  | .discard _ => []
  | .gaveUp _ => []

namespace TFFilter

variable {τ W : Type}

/-- A consumer that was told of positions on the path only. -/
def Told (source : List UInt8) (consumer : TFConsumer τ W) : Prop :=
  ∀ event ∈ consumer.events, ∀ position ∈ event.positions,
    OnPath source position

section Telling

variable {source : List UInt8}
variable {sink : TFVisibleSink τ W}
variable {lang : TFLanguage}
variable {consumer : TFConsumer τ W}

/-- One more call. -/
theorem Told.append
    (told : Told source consumer)
    (payload : τ)
    {event : VisibleEvent W}
    (onPath : ∀ position ∈ event.positions, OnPath source position) :
    Told source ⟨payload, consumer.events ++ [event]⟩ := by
  intro other member
  rcases List.mem_append.mp member with old | isNew
  · exact told other old
  · rw [List.mem_singleton.mp isNew]
    exact onPath

/-- Handing over a node on the path. -/
theorem Told.callNode
    (told : Told source consumer)
    {node : TFVisibleNode W}
    (onPath : ∀ position ∈ node.positions, OnPath source position) :
    Told source (consumer.callNode sink node).2 := by
  unfold TFConsumer.callNode
  split
  · exact told
  · refine told.append _ ?_
    exact onPath

/-- The node of a child stands where the child does. -/
theorem childNode_onPath
    {child : TFNode (TFFilterValue W)}
    (placed : child.Placed source)
    (productionId structural : Nat)
    (entries : List (TFVisibleChild W)) :
    ∀ position ∈ (childNode lang productionId structural child
        entries).positions,
      OnPath source position := by
  intro position member
  simp only [TFVisibleNode.positions, childNode, List.mem_cons,
    List.not_mem_nil, or_false] at member
  rcases member with rfl | rfl
  · exact placed.start
  · exact placed.ending

/-- The node of a reduction stands where the reduction does. -/
theorem parentNode_onPath
    {reduction : TFReduction (TFFilterValue W)}
    (placed : reduction.Placed source)
    (named : Bool)
    (entries : List (TFVisibleChild W)) :
    ∀ position ∈ (parentNode lang reduction named entries).positions,
      OnPath source position := by
  intro position member
  simp only [TFVisibleNode.positions, parentNode, List.mem_cons,
    List.not_mem_nil, or_false] at member
  rcases member with rfl | rfl
  · exact placed.start
  · exact placed.ending

/-- Building the entries of children on the path. -/
theorem told_buildScratch
    {productionId structural : Nat}
    {children : List (TFNode (TFFilterValue W))}
    {run produced : List (TFVisibleChild W)}
    {self : TFFilter τ W}
    {heap : Heap}
    (placed : ∀ child ∈ children, child.Placed source)
    (told : Told source self.consumer) :
    Told source
      (buildScratch sink lang productionId children structural run produced
        self heap).2.1.consumer := by
  induction children generalizing structural run produced self heap with
  | nil =>
      exact told
  | cons child rest inductionHypothesis =>
      have later : ∀ child ∈ rest, child.Placed source :=
        fun child member => placed child (List.mem_cons_of_mem _ member)
      unfold buildScratch
      dsimp only
      split
      · split
        · exact inductionHypothesis later told
        · split
          · exact told
          · refine inductionHypothesis later ?_
            exact told.callNode
              (childNode_onPath (placed child List.mem_cons_self) _ _ _)
      · split
        · exact told
        · exact inductionHypothesis later told

/-- Settling leaves a part of the children to read. -/
theorem settleHidden_children
    (productionId : Nat)
    (children : List (TFNode (TFFilterValue W)))
    (structural : Nat)
    (run : List (TFVisibleChild W)) :
    (settleHidden lang productionId children structural
      run).2.children ⊆ children := by
  induction children generalizing structural run with
  | nil =>
      exact fun _ member => member
  | cons child rest inductionHypothesis =>
      unfold settleHidden
      split
      · exact fun _ member => member
      · exact fun _ member =>
          List.mem_cons_of_mem _ (inductionHypothesis _ _ member)

/-- Settling children on the path. -/
theorem told_settle
    {productionId : Nat}
    {children : List (TFNode (TFFilterValue W))}
    {base : Nat}
    {self : TFFilter τ W}
    {heap : Heap}
    (placed : ∀ child ∈ children, child.Placed source)
    (told : Told source self.consumer) :
    Told source
      (self.settle sink lang productionId children base
        heap).2.1.consumer := by
  have silent :
      ∀ {filter : TFFilter τ W} {answered : Bool},
        Told source filter.consumer →
          Told source (filter.fail answered).consumer :=
    fun kept => kept.append _ (fun position member => by cases member)
  unfold settle
  dsimp only
  generalize leadingIs :
    settleHidden lang productionId children 0 (self.arena.drop base) =
      leading
  have unread : ∀ child ∈ leading.2.children, child.Placed source := by
    intro child member
    rw [← leadingIs] at member
    exact placed child (settleHidden_children _ _ _ _ member)
  have patched :
      Told source
        ({ self with
            arena := self.arena.take base ++ leading.1 ++
              leading.2.run } : TFFilter τ W).consumer :=
    told
  have built :=
    @told_buildScratch τ W source sink lang productionId
      leading.2.structural leading.2.children leading.2.run [] _ heap unread
      patched
  split
  · rename_i filter heap' ran
    rw [ran] at built
    exact silent built
  · rename_i produced filter heap' ran
    rw [ran] at built
    split
    · exact built
    · split
      · exact built
      · exact silent built

/-- Offering a run to fold. -/
theorem told_offerFold
    {reduction : TFReduction (TFFilterValue W)}
    {base : Nat}
    {self : TFFilter τ W}
    {heap : Heap}
    (placed : reduction.Placed source)
    (told : Told source self.consumer) :
    Told source
      (self.offerFold sink lang reduction base heap).1.consumer := by
  unfold offerFold
  split
  · exact told
  · rename_i onHidden known
    split
    · have asked :
          Told source
            (self.consumer.callHidden onHidden
              (parentNode lang reduction false
                (self.arena.drop base))).2 := by
        refine told.append _ ?_
        exact parentNode_onPath placed false _
      dsimp only
      split
      · exact asked
      · unfold decline
        split
        · exact asked
        · dsimp only
          split
          · exact asked
          · exact asked
    · exact told

/-- What the filter makes of a reduction on the path. -/
theorem told_onReduce
    {reduction : TFReduction (TFFilterValue W)}
    {self : TFFilter τ W}
    {heap : Heap}
    (placed : reduction.Placed source)
    (told : Told source self.consumer) :
    Told source (onReduce sink lang reduction self heap).2.1.consumer := by
  unfold onReduce
  split
  · exact told
  · dsimp only
    have settled :=
      @told_settle τ W source sink lang reduction.productionId
        reduction.children
        (self.arena.length - (reduction.children.map owns).sum) self heap
        placed.children told
    split
    · rename_i filter heap' ran
      rw [ran] at settled
      exact settled
    · rename_i filter heap' ran
      rw [ran] at settled
      have offered :=
        @told_offerFold τ W source sink lang reduction
          (self.arena.length - (reduction.children.map owns).sum) filter
          heap' placed settled
      split
      · unfold reportRoot
        dsimp only
        split
        · exact offered.callNode (parentNode_onPath placed _ _)
        · exact offered
      · exact offered

/-- The filter's sink tells of positions on the path only. -/
theorem rawSink_places
    (sink : TFVisibleSink τ W)
    (lang : TFLanguage) :
    (rawSink sink lang).Places source
      (fun filter => Told source filter.consumer) where
  shift := by
    intro onShift known token extra filter heap placed told
    cases known
    exact told
  reduce := by
    intro onReduce known reduction filter heap placed told
    cases known
    exact told_onReduce placed told
  discard := nofun

/-- Giving back the arena tells of no position. -/
theorem told_discardArena
    {self : TFFilter τ W}
    (told : Told source self.consumer) :
    Told source (self.discardArena sink).consumer := by
  unfold discardArena
  split
  · exact told
  · rename_i onDiscard known
    dsimp only
    generalize self.arena = arena
    generalize self.consumer = consumer at told
    induction arena generalizing consumer with
    | nil =>
        exact told
    | cons entry rest inductionHypothesis =>
        refine inductionHypothesis _ ?_
        unfold TFConsumer.callDiscard
        dsimp only
        split
        · exact told
        · exact told.append _ (fun position member => by cases member)

end Telling

end TFFilter

/--
Every position of a node that a filtered parse hands to its consumer, and that
of the failure it reports, is a byte of the input at its own row and column.
-/
theorem tfParseVisible_reports_positions {τ W : Type}
    {lang : TFLanguage}
    {sink : TFVisibleSink τ W}
    {fuel : Nat}
    {source : List UInt8}
    {payload : τ}
    {heap : Heap}
    {result : TFVisibleResult τ W}
    (ends : EndsInput lang source)
    (ran :
      tfParseVisible lang sink fuel source payload heap = some result) :
    (∀ event ∈ result.filter.consumer.events,
        ∀ position ∈ event.positions, IsPosition source position) ∧
      ∀ error, result.error = some error →
        IsPosition source error.position := by
  obtain ⟨raw, rawRan, rfl⟩ := Option.map_eq_some_iff.mp ran
  have silent :
      TFFilter.Told source (TFFilter.initial payload :
        TFFilter τ W).consumer :=
    fun event member => by cases member
  have sited :=
    tfParse_sited ends (TFFilter.rawSink_places sink lang) rawRan silent
  have told :
      TFFilter.Told source
        (TFVisibleResult.ofRaw sink raw).filter.consumer := by
    unfold TFVisibleResult.ofRaw
    dsimp only
    split
    · exact sited.payload
    · exact TFFilter.told_discardArena sited.payload
  refine ⟨?_, ?_⟩
  · intro event member position isPosition
    exact (told event member position isPosition).isPosition
  · intro error isError
    exact (sited.error error isError).isPosition

/-- The visible nodes of the parse of two lines. -/
theorem tfParseVisible_reports_positions_lined :
    ∃ result,
      tfParseVisible linedGrammar VisibleTree.sink 60 [120, 10, 120, 10] ()
            .reliable =
          some result ∧
        (∃ event ∈ result.filter.consumer.events,
          ∃ position ∈ event.positions, position = (3, ⟨1, 1⟩)) ∧
        (∀ event ∈ result.filter.consumer.events,
          ∀ position ∈ event.positions,
            IsPosition [120, 10, 120, 10] position) ∧
        ∀ error, result.error = some error →
          IsPosition [120, 10, 120, 10] error.position := by
  have computed :
      (tfParseVisible linedGrammar VisibleTree.sink 60 [120, 10, 120, 10]
            () .reliable).map
          (fun result =>
            result.filter.consumer.events.any (fun event =>
              event.positions.any (· == (3, ⟨1, 1⟩)))) =
        some true := by
    decide +kernel
  obtain ⟨result, ran, far⟩ := Option.map_eq_some_iff.mp computed
  have onLaterRow :
      ∃ event ∈ result.filter.consumer.events,
        ∃ position ∈ event.positions, position = (3, ⟨1, 1⟩) := by
    simpa only [List.any_eq_true, beq_iff_eq] using far
  exact ⟨result, ran, onLaterRow,
    tfParseVisible_reports_positions (linedGrammar_endsInput _) ran⟩

end TreeFeller
