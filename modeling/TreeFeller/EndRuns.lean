import TreeFeller.EndSplits
import TreeFeller.Traces

/-!
# The end token through a whole run

No cell of the driver's stack is the end token but as an extra, nor is a child
of a reduction that the sink is handed.  A sink may answer with values that
hold something of its payload, and such are then the values of the cells.
-/

namespace TreeFeller

open StatefulProgram

/-- An event whose reduction has the end token as an extra child at most. -/
def Event.EndsAsExtra {V : Type} : Event V → Prop
  | .reduce reduction _ => ∀ child ∈ reduction.children, child.EndsAsExtra
  | _ => True

/-- What a callback keeps of its payload, and of the values given before. -/
structure KeepsValues
    {σ V : Type}
    (holds : σ → Prop)
    (valued : σ → Option V → Prop)
    (before after : σ) : Prop where
  payload : holds after
  values : ∀ value, valued before value → valued after value

/-- A sink that keeps a property of its payload and of its answers. -/
structure TFSink.Answers
    {σ V : Type}
    (holds : σ → Prop)
    (valued : σ → Option V → Prop)
    (sink : TFSink σ V) : Prop where
  shift :
    ∀ (token : TFToken) (extra : Bool) (payload : σ) (heap : Heap),
      (token.symbol = tsBuiltinSymEnd → extra = true) →
        holds payload →
          let answer := sink.callShift token extra payload heap
          KeepsValues holds valued payload answer.2.1 ∧
            valued answer.2.1 answer.1
  reduce :
    ∀ (reduction : TFReduction V) (payload : σ) (heap : Heap),
      reduction.symbol ≠ tsBuiltinSymEnd →
        (∀ child ∈ reduction.children, valued payload child.value) →
          holds payload →
            let answer := sink.callReduce reduction payload heap
            KeepsValues holds valued payload answer.2.1 ∧
              valued answer.2.1 answer.1
  discard :
    ∀ onDiscard, sink.onDiscard = some onDiscard →
      ∀ value payload,
        holds payload →
          KeepsValues holds valued payload (onDiscard value payload)

/-- An item to visit is a tree, and one to reduce is no end token. -/
def TFReplayItem.Fits (graph : TFSpec) : TFReplayItem → Prop
  | .visit index => index < graph.trees.length
  | .reduce index => (graph.tree index).token.symbol ≠ tsBuiltinSymEnd

namespace TFParser

variable {σ V : Type}

/-- A parser whose cells and events end as extras, with values of a kind. -/
structure Apart
    (holds : σ → Prop)
    (valued : σ → Option V → Prop)
    (parser : TFParser σ V) : Prop where
  cells : ∀ cell ∈ parser.cells, cell.node.EndsAsExtra
  values : ∀ cell ∈ parser.cells, valued parser.payload cell.node.value
  payload : holds parser.payload
  events : ∀ event ∈ parser.events, event.EndsAsExtra

section Stack

variable {holds : σ → Prop}
variable {valued : σ → Option V → Prop}
variable {sink : TFSink σ V}
variable {self : TFParser σ V}

/-- The same stack, payload and events are all that is asked for. -/
theorem Apart.beside
    {after : TFParser σ V}
    (apart : self.Apart holds valued)
    (cells : after.cells = self.cells)
    (payload : after.payload = self.payload)
    (events : after.events = self.events) :
    after.Apart holds valued := by
  refine ⟨?_, ?_, ?_, ?_⟩
  · rw [cells]
    exact apart.cells
  · rw [cells, payload]
    exact apart.values
  · rw [payload]
    exact apart.payload
  · rw [events]
    exact apart.events

/-- Recording an event, and a payload that keeps what it gave before. -/
theorem Apart.record
    (apart : self.Apart holds valued)
    {payload : σ}
    {heap : Heap}
    {more : List (Event V)}
    (keeps : KeepsValues holds valued self.payload payload)
    (ends : ∀ event ∈ more, event.EndsAsExtra) :
    Apart holds valued
      { self with
        payload := payload
        heap := heap
        events := self.events ++ more } where
  cells := apart.cells
  values := fun cell member => keeps.values _ (apart.values cell member)
  payload := keeps.payload
  events := by
    intro event member
    rcases List.mem_append.mp member with old | isNew
    · exact apart.events event old
    · exact ends event isNew

/-- Growing the stack. -/
theorem Apart.grow
    (apart : self.Apart holds valued)
    (needed : Nat)
    (answered : Bool) :
    (self.grow needed answered).2.Apart holds valued := by
  rcases self.grow_cases needed answered with
    ⟨heap, capacity, _, _, grown⟩ | ⟨heap, _, grown⟩
  · rw [grown]
    exact apart.beside rfl rfl rfl
  · rw [grown]
    refine ⟨apart.cells, apart.values, apart.payload, ?_⟩
    intro event member
    rcases List.mem_append.mp member with old | isNew
    · exact apart.events event old
    · rw [List.mem_singleton.mp isNew]
      trivial

/-- Putting other cells of the kind on the stack. -/
theorem Apart.withCells
    (apart : self.Apart holds valued)
    {cells : List (TFCell V)}
    (known :
      ∀ cell ∈ cells,
        cell.node.EndsAsExtra ∧ valued self.payload cell.node.value) :
    Apart holds valued { self with cells := cells } where
  cells := fun cell member => (known cell member).1
  values := fun cell member => (known cell member).2
  payload := apart.payload
  events := apart.events

/-- Pushing a node of the kind. -/
theorem Apart.push
    (apart : self.Apart holds valued)
    {node : TFNode V}
    (ends : node.EndsAsExtra)
    (isValue : valued self.payload node.value)
    (state : TSStateId) :
    (self.push node state).2.Apart holds valued := by
  have grown := apart.grow (self.depth + 1) true
  unfold TFParser.push
  dsimp only
  split
  · refine grown.withCells ?_
    intro cell member
    rcases List.mem_append.mp member with old | isNew
    · exact ⟨grown.cells cell old, grown.values cell old⟩
    · rw [List.mem_singleton.mp isNew, payload_grow]
      exact ⟨ends, isValue⟩
  · exact grown

/-- Putting a parent of the kind in the place of its children. -/
theorem Apart.place
    (apart : self.Apart holds valued)
    {cut : Popped V}
    {parent : TFNode V}
    (known :
      ∀ cell ∈ cut.below ++ cut.trailing,
        cell.node.EndsAsExtra ∧ valued self.payload cell.node.value)
    (ends : parent.EndsAsExtra)
    (isValue : valued self.payload parent.value)
    (state : TSStateId) :
    (self.place cut parent state).2.Apart holds valued := by
  have grown :=
    apart.grow (cut.below.length + 1 + cut.trailing.length) true
  unfold TFParser.place
  dsimp only
  split
  · refine grown.withCells ?_
    rw [payload_grow]
    intro cell member
    rcases List.mem_append.mp member with front | behind
    · rcases List.mem_append.mp front with old | isNew
      · exact known cell (List.mem_append_left _ old)
      · rw [List.mem_singleton.mp isNew]
        exact ⟨ends, isValue⟩
    · obtain ⟨extra, isExtra, rfl⟩ := List.mem_map.mp behind
      exact known extra (List.mem_append_right _ isExtra)
  · exact grown

variable (answers : sink.Answers holds valued)

include answers

/-- Handing over a token that is no end token, or as an extra. -/
theorem Apart.emitShift
    (apart : self.Apart holds valued)
    {token : TFToken}
    {extra : Bool}
    (ends : token.symbol = tsBuiltinSymEnd → extra = true) :
    let emitted := emitShift sink self token extra
    emitted.2.Apart holds valued ∧
      (∀ value, valued self.payload value → valued emitted.2.payload value) ∧
      valued emitted.2.payload emitted.1 := by
  obtain ⟨keeps, isValue⟩ :=
    answers.shift token extra self.payload self.heap ends apart.payload
  rw [emitShift_eq]
  refine ⟨apart.record keeps ?_, keeps.values, isValue⟩
  unfold TFSink.shiftEvents
  split
  · intro event member
    rw [List.mem_singleton.mp member]
    trivial
  · exact fun _ none_ => by cases none_

/-- Handing over a reduction whose children end as extras. -/
theorem Apart.emitReduce
    (apart : self.Apart holds valued)
    {reduction : TFReduction V}
    (other : reduction.symbol ≠ tsBuiltinSymEnd)
    (children :
      ∀ child ∈ reduction.children,
        child.EndsAsExtra ∧ valued self.payload child.value) :
    let emitted := emitReduce sink self reduction
    emitted.2.Apart holds valued ∧
      (∀ value, valued self.payload value → valued emitted.2.payload value) ∧
      valued emitted.2.payload emitted.1 := by
  obtain ⟨keeps, isValue⟩ :=
    answers.reduce reduction self.payload self.heap other
      (fun child member => (children child member).2) apart.payload
  rw [emitReduce_eq]
  refine ⟨apart.record keeps ?_, keeps.values, isValue⟩
  unfold TFSink.reduceEvents
  split
  · intro event member
    rw [List.mem_singleton.mp member]
    exact fun child isChild => (children child isChild).1
  · exact fun _ none_ => by cases none_

/-- Handing over the end token and the root over the whole stack. -/
theorem Apart.emitRoot
    (apart : self.Apart holds valued)
    {cells : List (TFCell V)}
    (known :
      ∀ cell ∈ cells,
        cell.node.EndsAsExtra ∧ valued self.payload cell.node.value)
    {own : TFReduction V}
    (other : own.symbol ≠ tsBuiltinSymEnd)
    (token : TFToken) :
    let ended := TFParser.emitShift sink self token true
    let emitted :=
      TFParser.emitReduce sink ended.2
        (rootReduction cells own token ended.1)
    emitted.2.Apart holds valued ∧
      (∀ value, valued self.payload value → valued emitted.2.payload value) ∧
      valued emitted.2.payload emitted.1 := by
  have asExtra : token.symbol = tsBuiltinSymEnd → true = true :=
    fun _ => rfl
  obtain ⟨ended, keepsEnd, isEndValue⟩ := apart.emitShift answers asExtra
  have otherRoot :
      (rootReduction cells own token
        (TFParser.emitShift sink self token true).1).symbol ≠
        tsBuiltinSymEnd :=
    other
  have children :
      ∀ child ∈
        (rootReduction cells own token
          (TFParser.emitShift sink self token true).1).children,
        child.EndsAsExtra ∧
          valued (TFParser.emitShift sink self token true).2.payload
            child.value := by
    intro child member
    rcases List.mem_append.mp member with isCell | isEnd
    · obtain ⟨cell, onStack, rfl⟩ := List.mem_map.mp isCell
      obtain ⟨ends, isValue⟩ := known cell onStack
      exact ⟨ends, keepsEnd _ isValue⟩
    · rw [List.mem_singleton.mp isEnd]
      exact ⟨fun _ => rfl, isEndValue⟩
  obtain ⟨emitted, keepsRoot, isValue⟩ :=
    ended.emitReduce answers otherRoot children
  exact ⟨emitted, fun value old => keepsRoot _ (keepsEnd _ old), isValue⟩

/-- Shifting a token that is no end token, or as an extra. -/
theorem Apart.shift
    (apart : self.Apart holds valued)
    {token : TFToken}
    {extra : Bool}
    (ends : token.symbol = tsBuiltinSymEnd → extra = true)
    (state : TSStateId) :
    (self.shift sink token extra state).2.Apart holds valued := by
  obtain ⟨emitted, _, isValue⟩ := apart.emitShift answers ends
  have isNode :
      ∀ value : Option V, (token.node extra value).EndsAsExtra :=
    fun _ => ends
  unfold TFParser.shift
  dsimp only
  split
  · have counted :
        Apart holds valued
          { (TFParser.emitShift sink self token extra).2 with
            leading :=
              (TFParser.emitShift sink self token extra).2.leading + 1 } :=
      emitted.beside rfl rfl rfl
    exact counted.push (isNode _) isValue state
  · exact emitted.push (isNode _) isValue state

/-- Reducing by a production that is no end token. -/
theorem Apart.reduce
    {lang : TFLanguage}
    (apart : self.Apart holds valued)
    {symbol : TSSymbol}
    (other : symbol ≠ tsBuiltinSymEnd)
    {childCount productionId : Nat}
    {lookahead : Option TFToken}
    {well : Bool}
    {after : TFParser σ V}
    (reduced :
      self.reduce sink lang symbol childCount productionId lookahead =
        some (well, after)) :
    after.Apart holds valued := by
  unfold TFParser.reduce at reduced
  split at reduced
  · cases reduced
  · rename_i cut cuts
    have known :
        ∀ cell ∈ self.cells,
          cell.node.EndsAsExtra ∧ valued self.payload cell.node.value :=
      fun cell member => ⟨apart.cells cell member, apart.values cell member⟩
    have parts := cells_of_popped cuts
    have children :
        ∀ cell ∈ cut.children,
          cell.node.EndsAsExtra ∧ valued self.payload cell.node.value := by
      intro cell member
      apply known
      rw [parts]
      simp [member]
    have beside :
        ∀ {payload : σ},
          (∀ value, valued self.payload value → valued payload value) →
            ∀ cell ∈ cut.below ++ cut.trailing,
              cell.node.EndsAsExtra ∧ valued payload cell.node.value := by
      intro payload keeps cell member
      have isCell : cell ∈ self.cells := by
        rw [parts]
        rcases List.mem_append.mp member with below | trailing
        · simp [below]
        · simp [trailing]
      obtain ⟨ends, isValue⟩ := known cell isCell
      exact ⟨ends, keeps _ isValue⟩
    dsimp only at reduced
    split at reduced
    · have same := congrArg Prod.snd (Option.some.inj reduced)
      dsimp only at same
      rw [← same]
      have ownChildren :
          ∀ child ∈
            (reductionOf self.cells cut.children symbol childCount
              productionId).children,
            child.EndsAsExtra ∧ valued self.payload child.value := by
        intro child member
        obtain ⟨cell, isCell, rfl⟩ := List.mem_map.mp member
        exact children cell isCell
      obtain ⟨emitted, keeps, isValue⟩ :=
        apart.emitReduce answers other ownChildren
      exact emitted.place (beside keeps) (fun isEnd => absurd isEnd other)
        isValue _
    · rename_i token isRoot
      have grown := apart.grow (self.depth + 1) false
      split at reduced
      · have same := congrArg Prod.snd (Option.some.inj reduced)
        dsimp only at same
        rw [← same]
        exact grown
      · have same := congrArg Prod.snd (Option.some.inj reduced)
        dsimp only at same
        rw [← same]
        have ready :
            Apart holds valued
              { (self.grow (self.depth + 1) false).2 with
                rootEmitted := true } :=
          grown.beside rfl rfl rfl
        have samePayload := self.payload_grow (self.depth + 1) false
        have stillKnown :
            ∀ cell ∈ self.cells,
              cell.node.EndsAsExtra ∧
                valued (self.grow (self.depth + 1) false).2.payload
                  cell.node.value := by
          rw [samePayload]
          exact known
        have otherOwn :
            (reductionOf self.cells cut.children symbol childCount
              productionId).symbol ≠ tsBuiltinSymEnd :=
          other
        obtain ⟨emitted, keeps, isValue⟩ :=
          ready.emitRoot answers stillKnown otherOwn token
        exact emitted.place
          (beside fun value old => keeps _ (samePayload ▸ old))
          (fun isEnd => absurd isEnd other) isValue _

/-- Giving back the values on the stack. -/
theorem Apart.discardAll
    (apart : self.Apart holds valued) :
    (self.discardAll sink).Apart holds valued := by
  unfold TFParser.discardAll
  cases known : sink.onDiscard with
  | none =>
      exact apart
  | some onDiscard =>
      dsimp only
      generalize self.cells = cells
      induction cells generalizing self with
      | nil =>
          exact apart
      | cons cell rest inductionHypothesis =>
          rw [List.foldl_cons]
          refine inductionHypothesis ?_
          cases cell.node.value with
          | none =>
              exact apart
          | some value =>
              have keeps :=
                answers.discard onDiscard known value self.payload
                  apart.payload
              refine
                ⟨apart.cells,
                  fun cell member =>
                    keeps.values _ (apart.values cell member),
                  keeps.payload, ?_⟩
              intro event member
              rcases List.mem_append.mp member with old | isNew
              · exact apart.events event old
              · rw [List.mem_singleton.mp isNew]
                trivial

end Stack

/-! ## Splits and steps -/

section Replays

variable {holds : σ → Prop}
variable {valued : σ → Option V → Prop}
variable {env : TFRunEnv σ V}
variable {self : TFParser σ V}
variable {roots : Nat → Prop}

/-- Making room for a replay changes no tree. -/
theorem Apart.reserveScratch
    (apart : self.Apart holds valued)
    {spec spec' : TFSpec}
    {needed : Nat}
    {after : TFParser σ V}
    (reserved : self.reserveScratch spec needed = some (spec', after)) :
    after.Apart holds valued ∧
      ∃ capacity, spec' = spec.withCapacity capacity := by
  unfold TFParser.reserveScratch at reserved
  split at reserved
  · rename_i answer state ran
    obtain ⟨capacity, heap, rfl⟩ := TFSpec.reserve_eq_ok ran
    cases reserved
    exact ⟨apart.beside rfl rfl rfl, capacity, rfl⟩
  · cases reserved

variable (answers : env.sink.Answers holds valued)

include answers

/-- Replaying one item of a graph. -/
theorem Apart.replayItem
    (apart : self.Apart holds valued)
    {spec : TFSpec}
    (graph : spec.Apart 0 roots)
    {rest : List TFReplayItem}
    {item : TFReplayItem}
    (fits : item.Fits spec)
    (later : ∀ item ∈ rest, item.Fits spec) :
    let answer := self.replayItem env spec rest item
    (∃ capacity, answer.1 = spec.withCapacity capacity) ∧
      match answer.2 with
      | .next parser items =>
          parser.Apart holds valued ∧ ∀ item ∈ items, item.Fits spec
      | .failed parser => parser.Apart holds valued
      | .stuck => True := by
  have same : ∃ capacity, spec = spec.withCapacity capacity :=
    ⟨spec.capacity, rfl⟩
  cases item with
  | reduce index =>
      simp only [TFParser.replayItem]
      split
      · exact ⟨same, trivial⟩
      · rename_i parser reduced
        exact ⟨same, apart.reduce answers fits reduced, later⟩
      · rename_i parser reduced
        exact ⟨same, apart.reduce answers fits reduced⟩
  | visit index =>
      have apt := graph.trees index fits
      simp only [TFParser.replayItem]
      split
      · exact ⟨same, apart, later⟩
      · rename_i own
        split
        · have ends :
              (spec.tree index).token.symbol = tsBuiltinSymEnd →
                (spec.tree index).extra = true :=
            fun isEnd => (apt.ends isEnd).1
          have shifted :=
            apart.shift answers ends
              (self.leafState env.lang (spec.tree index))
          split
          · rename_i parser answer
            rw [answer] at shifted
            exact ⟨same, shifted, later⟩
          · rename_i parser answer
            rw [answer] at shifted
            exact ⟨same, shifted⟩
        · rename_i inner
          have other :
              (spec.tree index).token.symbol ≠ tsBuiltinSymEnd := by
            intro isEnd
            rcases (apt.ends isEnd).2 with leaf | inherited
            · exact inner leaf
            · exact own inherited
          split
          · refine ⟨same, apart, ?_⟩
            intro item member
            rcases List.mem_cons.mp member with rfl | old
            · exact other
            · exact later item old
          · split
            · exact ⟨same, apart⟩
            · rename_i spec' parser reserved
              obtain ⟨apartNow, more⟩ := apart.reserveScratch reserved
              refine ⟨more, apartNow, ?_⟩
              intro item member
              rcases List.mem_append.mp member with child | behind
              · obtain ⟨index, isChild, rfl⟩ := List.mem_map.mp child
                exact apt.children index isChild
              · rcases List.mem_cons.mp behind with rfl | old
                · exact other
                · exact later item old

/-- Replaying the items of a stack. -/
theorem Apart.replayItems
    {fuel : Nat}
    (apart : self.Apart holds valued)
    {spec spec' : TFSpec}
    (graph : spec.Apart 0 roots)
    {parser : TFParser σ V}
    {items : List TFReplayItem}
    (fits : ∀ item ∈ items, item.Fits spec)
    {well : Bool}
    (replayed :
      replayItems env fuel self spec items = some (well, spec', parser)) :
    parser.Apart holds valued ∧
      ∃ capacity, spec' = spec.withCapacity capacity := by
  induction fuel generalizing self spec items with
  | zero =>
      cases replayed
  | succ fuel inductionHypothesis =>
      cases items with
      | nil =>
          cases replayed
          exact ⟨apart, _, rfl⟩
      | cons item rest =>
          obtain ⟨⟨capacity, isSpec⟩, step⟩ :=
            apart.replayItem answers graph
              (fits item List.mem_cons_self)
              (fun item member => fits item (List.mem_cons_of_mem _ member))
          simp only [TFParser.replayItems] at replayed
          rcases answer : self.replayItem env spec rest item with
            ⟨next, outcome⟩
          rw [answer] at replayed isSpec step
          dsimp only at isSpec
          subst isSpec
          cases outcome with
          | next middle items =>
              obtain ⟨apartNext, fitsNext⟩ := step
              have graphNext :
                  (spec.withCapacity capacity).Apart 0 roots :=
                graph.beside rfl rfl (Nat.le_refl _)
              obtain ⟨apartLast, last, isLast⟩ :=
                inductionHypothesis apartNext graphNext fitsNext replayed
              exact ⟨apartLast, last, isLast⟩
          | failed middle =>
              cases replayed
              exact ⟨step, capacity, rfl⟩
          | stuck =>
              cases replayed

/-- Replaying a forest of the graph. -/
theorem Apart.replay
    (apart : self.Apart holds valued)
    {spec spec' : TFSpec}
    (graph : spec.Apart 0 roots)
    {parser : TFParser σ V}
    {forest : List Nat}
    (known : ∀ tree ∈ forest, tree < spec.trees.length)
    {well : Bool}
    (replayed : self.replay env spec forest = some (well, spec', parser)) :
    parser.Apart holds valued ∧
      ∃ capacity, spec' = spec.withCapacity capacity := by
  unfold TFParser.replay at replayed
  split at replayed
  · cases replayed
    exact ⟨apart, _, rfl⟩
  · rename_i reservedSpec middle reserved
    obtain ⟨apartNow, capacity, rfl⟩ := apart.reserveScratch reserved
    have graphNow : (spec.withCapacity capacity).Apart 0 roots :=
      graph.beside rfl rfl (Nat.le_refl _)
    have fits :
        ∀ item ∈ forest.map TFReplayItem.visit,
          item.Fits (spec.withCapacity capacity) := by
      intro item member
      obtain ⟨tree, isTree, rfl⟩ := List.mem_map.mp member
      exact known tree isTree
    obtain ⟨apartLast, last, isLast⟩ :=
      apartNow.replayItems answers graphNow fits replayed
    exact ⟨apartLast, last, isLast⟩

/-- Committing to a path. -/
theorem Apart.commitPath
    (apart : self.Apart holds valued)
    {spec : TFSpec}
    (graph : spec.Apart 0 roots)
    {forest : List Nat}
    (known : ∀ tree ∈ forest, tree < spec.trees.length)
    {top : Nat}
    {token next : TFToken}
    {well : Bool}
    {after : TFParser σ V}
    (committed :
      self.commitPath env spec forest top token = some (well, next, after)) :
    after.Apart holds valued := by
  unfold TFParser.commitPath at committed
  split at committed
  · cases committed
  · rename_i spec' parser replayed
    obtain ⟨apartNow, _⟩ := apart.replay answers graph known replayed
    cases committed
    exact apartNow.beside rfl rfl rfl
  · rename_i spec' parser replayed
    obtain ⟨apartNow, _⟩ := apart.replay answers graph known replayed
    split at committed
    · cases committed
    · cases committed
      exact apartNow.beside rfl rfl rfl
    · cases committed
      exact apartNow.beside rfl rfl rfl
    · cases committed
      exact apartNow.beside rfl rfl rfl

/-- Committing to an accepted root. -/
theorem Apart.commitRoot
    (apart : self.Apart holds valued)
    {spec : TFSpec}
    (graph : spec.Apart 0 roots)
    {root : Nat}
    (isRoot : roots root)
    {token next : TFToken}
    {well : Bool}
    {after : TFParser σ V}
    (committed :
      self.commitRoot env spec root token = some (well, next, after)) :
    after.Apart holds valued := by
  obtain ⟨within, other⟩ := graph.roots root isRoot
  have known :
      ∀ tree ∈ (spec.tree root).children.dropLast,
        tree < spec.trees.length :=
    fun tree member =>
      (graph.trees root within).children tree
        (List.dropLast_subset _ member)
  unfold TFParser.commitRoot at committed
  dsimp only at committed
  split at committed
  · cases committed
  · rename_i spec' parser replayed
    obtain ⟨apartNow, _⟩ := apart.replay answers graph known replayed
    cases committed
    exact apartNow.beside rfl rfl rfl
  · rename_i spec' parser replayed
    obtain ⟨apartNow, capacity, rfl⟩ :=
      apart.replay answers graph known replayed
    split at committed
    · cases committed
    · rename_i reached reduced
      cases committed
      exact (apartNow.reduce answers other reduced).beside rfl rfl rfl
    · rename_i reached reduced
      cases committed
      exact (apartNow.reduce answers other reduced).beside rfl rfl rfl

end Replays

section Steps

variable {holds : σ → Prop}
variable {valued : σ → Option V → Prop}
variable {env : TFRunEnv σ V}
variable {self : TFParser σ V}
variable (answers : env.sink.Answers holds valued)
variable (reserves : env.lang.ReservesEnd)
variable
  (rooms :
    ∀ {nodes trees},
      Program.Maintains (TFSpec.Roomy nodes trees) env.materialize)
variable
  (recovers :
    ∀ {count roots},
      Program.Maintains
        (fun state : TFSpecState => state.spec.Apart count roots)
        env.materialize)
variable (keeps : Program.Keeps TFSpec.finishedOf env.materialize)
variable
  (hooks :
    ∀ cells splits token payload heap,
      holds payload →
        KeepsValues holds valued payload
          (env.hook cells splits token payload heap).2.1)

include answers reserves rooms recovers keeps hooks

/-- A split. -/
theorem Apart.split
    (apart : self.Apart holds valued)
    {token next : TFToken}
    {well : Bool}
    {after : TFParser σ V}
    (ran : self.split env token = some (well, next, after)) :
    after.Apart holds valued := by
  unfold TFParser.split at ran
  dsimp only at ran
  generalize asked :
    ({ self with
        splitCount := self.splitCount + 1
        payload :=
          (env.hook self.cells (self.splitCount + 1) token self.payload
            self.heap).2.1
        heap :=
          (env.hook self.cells (self.splitCount + 1) token self.payload
            self.heap).2.2 } : TFParser σ V) = hooked at ran
  have kept : hooked.Apart holds valued := by
    have keptValues :=
      hooks self.cells (self.splitCount + 1) token self.payload self.heap
        apart.payload
    rw [← asked]
    exact ⟨apart.cells,
      fun cell member => keptValues.values _ (apart.values cell member),
      keptValues.payload, apart.events⟩
  split at ran
  · cases ran
    exact kept
  · have keptOwn : hooked.ownSpec.2.Apart holds valued := by
      unfold TFParser.ownSpec
      split
      · exact kept
      · dsimp only
        split
        · exact kept.beside rfl rfl rfl
        · exact kept.beside rfl rfl rfl
    split at ran
    · rename_i parser owns
      rw [owns] at keptOwn
      cases ran
      exact keptOwn.beside rfl rfl rfl
    · rename_i spec parser owns
      rw [owns] at keptOwn
      have cells :
          ∀ cell ∈ parser.owner.cells, cell.node.EndsAsExtra := by
        intro cell member
        obtain ⟨own, onStack, rfl⟩ := List.mem_map.mp member
        exact keptOwn.cells own onStack
      have reservesHere : env.spec.lang.ReservesEnd := reserves
      have explored :
          ∀ {selection : TFSpec.Selection} {state : TFSpecState},
            TFSpec.explore env.spec (parser.splitState spec token) =
                .ok (selection, state) →
              TFSpec.Tidy state ∧ selection.Within state.spec :=
        fun ran =>
          TFSpec.tidy_explore reservesHere rooms recovers keeps cells ran
      split at ran
      · cases ran
      · cases ran
        exact keptOwn.beside rfl rfl rfl
      · cases ran
        unfold failDead
        split
        · exact keptOwn.beside rfl rfl rfl
        · exact keptOwn.beside rfl rfl rfl
      · rename_i forest top state explores
        obtain ⟨tidy, within⟩ := explored explores
        have resumed : (parser.resume state).Apart holds valued :=
          keptOwn.beside rfl rfl rfl
        exact resumed.commitPath answers tidy.apart within ran
      · rename_i root state explores
        obtain ⟨tidy, isRoot⟩ := explored explores
        have resumed : (parser.resume state).Apart holds valued :=
          keptOwn.beside rfl rfl rfl
        exact resumed.commitRoot answers tidy.apart isRoot ran

omit answers reserves rooms recovers keeps hooks in
/-- Where a step stands. -/
def Parting
    (holds : σ → Prop)
    (valued : σ → Option V → Prop) : TFStep σ V → Prop
  | .lex parser => parser.Apart holds valued
  | .act parser _ => parser.Apart holds valued
  | .stop _ _ parser => parser.Apart holds valued
  | .stuck => True

/-- One step of the main loop. -/
theorem parting_step
    {current : TFStep σ V}
    (parting : Parting holds valued current) :
    Parting holds valued (TFStep.step env current) := by
  cases current with
  | lex parser =>
      simp only [TFStep.step, TFStep.lexStep]
      split
      · exact Apart.beside parting rfl rfl rfl
      · exact Apart.beside parting rfl rfl rfl
  | act parser token =>
      have apart : parser.Apart holds valued := parting
      simp only [TFStep.step, TFStep.actStep]
      split
      · split
        · exact apart
        · exact apart.beside rfl rfl rfl
      · rename_i action entry
        have acts : action ∈ env.lang.actions parser.state token.symbol := by
          rw [entry]
          exact List.mem_singleton_self _
        cases action with
        | shift target extra repetition =>
            have ends : token.symbol = tsBuiltinSymEnd → extra = true := by
              intro isEnd
              rw [isEnd] at acts
              exact absurd acts (reserves.shifts _ _ _ _)
            simp only [TFStep.actionStep]
            generalize (if extra = true then parser.state else target) = into
            have shifted := apart.shift answers ends into
            split
            · exact shifted
            · exact shifted.beside rfl rfl rfl
        | reduce childCount symbol precedence productionId =>
            have other : symbol ≠ tsBuiltinSymEnd := by
              intro isEnd
              rw [isEnd] at acts
              exact reserves.reduces _ _ _ _ _ acts
            simp only [TFStep.actionStep]
            split
            · trivial
            · rename_i reduced done
              exact apart.reduce answers other done
            · rename_i reduced done
              exact (apart.reduce answers other done).beside rfl rfl rfl
        | accept =>
            exact apart
        | recover =>
            exact apart.beside rfl rfl rfl
      · split
        · trivial
        · rename_i next parser' ran
          exact apart.split answers reserves rooms recovers keeps hooks ran
        · rename_i next parser' ran
          exact apart.split answers reserves rooms recovers keeps hooks ran
  | stop ok root parser =>
      exact parting
  | stuck =>
      trivial

/-- Any number of steps. -/
theorem parting_steps
    (count : Nat)
    {current : TFStep σ V}
    (parting : Parting holds valued current) :
    Parting holds valued (TFStep.steps env count current) := by
  induction count generalizing current with
  | zero =>
      exact parting
  | succ count inductionHypothesis =>
      exact inductionHypothesis
        (parting_step answers reserves rooms recovers keeps hooks parting)

omit answers reserves rooms recovers keeps hooks in
/-- Before a run there is no cell, and no event. -/
theorem parting_enter
    (source : List UInt8)
    {payload : σ}
    (before : holds payload)
    (heap : Heap) :
    Parting holds valued (enter source payload heap) := by
  have start :
      (initial source payload heap : TFParser σ V).Apart holds valued := by
    refine ⟨?_, ?_, before, ?_⟩
    · intro cell none_
      cases none_
    · intro cell none_
      cases none_
    · intro event none_
      cases none_
  have grown := start.grow 64 false
  unfold enter
  dsimp only
  split
  · exact start.beside rfl rfl rfl
  · split
    · exact grown
    · exact grown.beside rfl rfl rfl

/-- A whole run hands over the end token as an extra only. -/
theorem apart_run
    {source : List UInt8}
    {payload : σ}
    {heap : Heap}
    {result : TFResult σ V}
    (before : holds payload)
    (ran : run env source payload heap = some result) :
    result.parser.Apart holds valued := by
  have ended :=
    parting_steps answers reserves rooms recovers keeps hooks env.fuel
      (parting_enter source before heap)
  unfold run finish at ran
  split at ran
  · rename_i root parser last
    cases ran
    rw [last] at ended
    exact ended
  · rename_i root parser last
    cases ran
    rw [last] at ended
    exact Apart.discardAll answers ended
  · cases ran

end Steps

end TFParser

end TreeFeller
