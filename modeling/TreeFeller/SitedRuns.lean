import TreeFeller.SitedSplits
import TreeFeller.Reached

/-!
# Positions through a whole run

The driver keeps the positions of its lexer, its stack and its graph on the
path of the source, and hands nothing else to the sink.  The collector of a
private replay is one such sink, so a replay gives shapes whose positions are
on the path as well.
-/

namespace TreeFeller

open StatefulProgram
open TFLexer

/-- A reduction whose ends, and those of its children, lie on the path. -/
structure TFReduction.Placed {V : Type}
    (source : List UInt8)
    (reduction : TFReduction V) : Prop where
  start : OnPath source (reduction.startByte, reduction.startPoint)
  ending : OnPath source (reduction.endByte, reduction.endPoint)
  children : ∀ child ∈ reduction.children, child.Placed source

/-- An event that hands over positions on the path only. -/
def Event.Placed {V : Type} (source : List UInt8) : Event V → Prop
  | .shift token _ _ => token.Placed source
  | .reduce reduction _ => reduction.Placed source
  | .discard _ => True
  | .growthFailed _ => True

/-- A sink that keeps a property of its payload over positions on the path. -/
structure TFSink.Places
    {σ V : Type}
    (source : List UInt8)
    (holds : σ → Prop)
    (sink : TFSink σ V) : Prop where
  shift :
    ∀ onShift, sink.onShift = some onShift →
      ∀ token extra payload heap,
        token.Placed source →
          holds payload → holds (onShift token extra payload heap).2.1
  reduce :
    ∀ onReduce, sink.onReduce = some onReduce →
      ∀ reduction payload heap,
        reduction.Placed source →
          holds payload → holds (onReduce reduction payload heap).2.1
  discard :
    ∀ onDiscard, sink.onDiscard = some onDiscard →
      ∀ value payload, holds payload → holds (onDiscard value payload)

namespace TFParser

variable {σ V : Type}

/-- A parser whose positions, and those it has handed over, are on the path. -/
structure Sited
    (lang : TFLanguage)
    (source : List UInt8)
    (holds : σ → Prop)
    (parser : TFParser σ V) : Prop where
  lexer : parser.lexer.Sited lang source
  cells : ∀ cell ∈ parser.cells, cell.node.Placed source
  spec :
    ∀ spec, parser.spec = some spec →
      OnPath source (spec.errorByte, spec.errorPoint)
  error :
    ∀ error, parser.error = some error →
      OnPath source (error.byte, error.point)
  payload : holds parser.payload
  events : ∀ event ∈ parser.events, event.Placed source

section Stack

variable {lang : TFLanguage}
variable {source : List UInt8}
variable {holds : σ → Prop}
variable {sink : TFSink σ V}
variable {self : TFParser σ V}

/-- Failing at a position on the path. -/
theorem Sited.fail
    (sited : self.Sited lang source holds)
    {byte : Nat}
    {point : TFPoint}
    (onPath : OnPath source (byte, point))
    (message : TFMessage) :
    (self.fail byte point message).Sited lang source holds where
  lexer := sited.lexer
  cells := sited.cells
  spec := sited.spec
  error := by
    intro error same
    cases same
    exact onPath
  payload := sited.payload
  events := sited.events

/-- Growing the stack. -/
theorem Sited.grow
    (sited : self.Sited lang source holds)
    (needed : Nat)
    (answered : Bool) :
    (self.grow needed answered).2.Sited lang source holds := by
  unfold TFParser.grow
  split
  · exact sited
  · dsimp only
    split
    · exact ⟨sited.lexer, sited.cells, sited.spec, sited.error,
        sited.payload, sited.events⟩
    · refine ⟨sited.lexer, sited.cells, sited.spec, sited.error,
        sited.payload, ?_⟩
      intro event member
      rcases List.mem_append.mp member with old | isNew
      · exact sited.events event old
      · rw [List.mem_singleton.mp isNew]
        trivial

/-- Replacing the stack by placed cells. -/
theorem Sited.withCells
    (sited : self.Sited lang source holds)
    {cells : List (TFCell V)}
    (placed : ∀ cell ∈ cells, cell.node.Placed source) :
    Sited lang source holds { self with cells := cells } :=
  ⟨sited.lexer, placed, sited.spec, sited.error, sited.payload,
    sited.events⟩

/-- Pushing a placed node. -/
theorem Sited.push
    (sited : self.Sited lang source holds)
    {node : TFNode V}
    (placed : node.Placed source)
    (state : TSStateId) :
    (self.push node state).2.Sited lang source holds := by
  have grown := sited.grow (self.depth + 1) true
  unfold TFParser.push
  dsimp only
  split
  · refine grown.withCells ?_
    intro cell member
    rcases List.mem_append.mp member with old | isNew
    · exact grown.cells cell old
    · rw [List.mem_singleton.mp isNew]
      exact placed
  · exact grown

/-- Putting a placed parent in the place of its children. -/
theorem Sited.place
    (sited : self.Sited lang source holds)
    {cut : Popped V}
    {parent : TFNode V}
    (below : ∀ cell ∈ cut.below, cell.node.Placed source)
    (trailing : ∀ cell ∈ cut.trailing, cell.node.Placed source)
    (placed : parent.Placed source)
    (state : TSStateId) :
    (self.place cut parent state).2.Sited lang source holds := by
  have grown :=
    sited.grow (cut.below.length + 1 + cut.trailing.length) true
  unfold TFParser.place
  dsimp only
  split
  · refine grown.withCells ?_
    intro cell member
    rcases List.mem_append.mp member with front | behind
    · rcases List.mem_append.mp front with old | isNew
      · exact below cell old
      · rw [List.mem_singleton.mp isNew]
        exact placed
    · obtain ⟨extra, isExtra, rfl⟩ := List.mem_map.mp behind
      have same := trailing extra isExtra
      exact ⟨same.start, same.ending⟩
  · exact grown

/-- A token's node is where the token is. -/
theorem placed_node
    {token : TFToken}
    (placed : token.Placed source)
    (extra : Bool)
    (value : Option V) :
    (token.node extra value).Placed source :=
  ⟨placed.start, placed.ending⟩

/-- The parts that a reduction cuts the stack into are on it. -/
theorem popped_placed
    {cells : List (TFCell V)}
    {childCount : Nat}
    {cut : Popped V}
    (placed : ∀ cell ∈ cells, cell.node.Placed source)
    (cuts : popped cells childCount = some cut) :
    (∀ cell ∈ cut.below, cell.node.Placed source) ∧
      (∀ cell ∈ cut.children, cell.node.Placed source) ∧
      ∀ cell ∈ cut.trailing, cell.node.Placed source := by
  obtain ⟨counts, _, rfl⟩ := Option.map_eq_some_iff.mp cuts
  refine ⟨?_, ?_, ?_⟩
  · exact fun cell member => placed cell (List.mem_of_mem_take member)
  · exact fun cell member =>
      placed cell (List.mem_of_mem_take (List.mem_of_mem_drop member))
  · exact fun cell member => placed cell (List.mem_of_mem_drop member)

/-- A reduction over placed cells is placed. -/
theorem placed_reductionOf
    {cells children : List (TFCell V)}
    (placed : ∀ cell ∈ cells, cell.node.Placed source)
    (placedChildren : ∀ cell ∈ children, cell.node.Placed source)
    (symbol : TSSymbol)
    (childCount productionId : Nat) :
    (reductionOf cells children symbol childCount productionId).Placed
      source := by
  have top := onPath_top placed
  refine ⟨?_, ?_, ?_⟩
  · unfold reductionOf
    cases children with
    | nil => exact top
    | cons first rest =>
        exact (placedChildren first List.mem_cons_self).start
  · unfold reductionOf
    dsimp only
    rw [List.getLast?_map]
    cases last : children.getLast? with
    | none => exact top
    | some cell =>
        exact (placedChildren cell (List.mem_of_getLast? last)).ending
  · intro child member
    obtain ⟨cell, isCell, rfl⟩ := List.mem_map.mp member
    exact placedChildren cell isCell

/-- The root's reduction is placed, since the end token is. -/
theorem placed_rootReduction
    {cells : List (TFCell V)}
    {lookahead : TFToken}
    (placed : ∀ cell ∈ cells, cell.node.Placed source)
    (placedEnd : lookahead.Placed source)
    (own : TFReduction V)
    (value : Option V) :
    (rootReduction cells own lookahead value).Placed source := by
  refine ⟨?_, placedEnd.ending, ?_⟩
  · unfold rootReduction
    cases cells with
    | nil => exact placedEnd.start
    | cons first rest => exact (placed first List.mem_cons_self).start
  · intro child member
    rcases List.mem_append.mp member with isCell | isEnd
    · obtain ⟨cell, onStack, rfl⟩ := List.mem_map.mp isCell
      exact placed cell onStack
    · rw [List.mem_singleton.mp isEnd]
      exact placed_node placedEnd true value

variable (places : sink.Places source holds)

include places

/-- Handing over a placed token. -/
theorem Sited.emitShift
    (sited : self.Sited lang source holds)
    {token : TFToken}
    (placed : token.Placed source)
    (extra : Bool) :
    (emitShift sink self token extra).2.Sited lang source holds := by
  unfold TFParser.emitShift
  cases known : sink.onShift with
  | none =>
      exact sited
  | some onShift =>
      refine ⟨sited.lexer, sited.cells, sited.spec, sited.error, ?_, ?_⟩
      · exact places.shift onShift known _ _ _ _ placed sited.payload
      · intro event member
        rcases List.mem_append.mp member with old | isNew
        · exact sited.events event old
        · rw [List.mem_singleton.mp isNew]
          exact placed

/-- Handing over a placed reduction. -/
theorem Sited.emitReduce
    (sited : self.Sited lang source holds)
    {reduction : TFReduction V}
    (placed : reduction.Placed source) :
    (emitReduce sink self reduction).2.Sited lang source holds := by
  unfold TFParser.emitReduce
  cases known : sink.onReduce with
  | none =>
      exact sited
  | some onReduce =>
      refine ⟨sited.lexer, sited.cells, sited.spec, sited.error, ?_, ?_⟩
      · exact places.reduce onReduce known _ _ _ placed sited.payload
      · intro event member
        rcases List.mem_append.mp member with old | isNew
        · exact sited.events event old
        · rw [List.mem_singleton.mp isNew]
          exact placed

/-- Shifting a placed token. -/
theorem Sited.shift
    (sited : self.Sited lang source holds)
    {token : TFToken}
    (placed : token.Placed source)
    (extra : Bool)
    (state : TSStateId) :
    (self.shift sink token extra state).2.Sited lang source holds := by
  have emitted := sited.emitShift places placed extra
  unfold TFParser.shift
  dsimp only
  refine Sited.push ?_ (placed_node placed _ _) state
  split
  · exact ⟨emitted.lexer, emitted.cells, emitted.spec, emitted.error,
      emitted.payload, emitted.events⟩
  · exact emitted

/-- Reducing on a placed token, or on none. -/
theorem Sited.reduce
    (sited : self.Sited lang source holds)
    {symbol : TSSymbol}
    {childCount productionId : Nat}
    {lookahead : Option TFToken}
    (placed : ∀ token, lookahead = some token → token.Placed source)
    {well : Bool}
    {after : TFParser σ V}
    (reduced :
      self.reduce sink lang symbol childCount productionId lookahead =
        some (well, after)) :
    after.Sited lang source holds := by
  unfold TFParser.reduce at reduced
  split at reduced
  · cases reduced
  · rename_i cut cuts
    obtain ⟨below, children, trailing⟩ := popped_placed sited.cells cuts
    have own :=
      placed_reductionOf sited.cells children symbol childCount productionId
    dsimp only at reduced
    split at reduced
    · have same := congrArg Prod.snd (Option.some.inj reduced)
      dsimp only at same
      rw [← same]
      exact (sited.emitReduce places own).place below trailing
        ⟨own.start, own.ending⟩ _
    · rename_i token isRoot
      have grown := sited.grow (self.depth + 1) false
      split at reduced
      · have same := congrArg Prod.snd (Option.some.inj reduced)
        dsimp only at same
        rw [← same]
        exact grown
      · have same := congrArg Prod.snd (Option.some.inj reduced)
        dsimp only at same
        rw [← same]
        have isLookahead : lookahead = some token := by
          unfold TFParser.isRoot at isRoot
          split at isRoot
          · split at isRoot
            · cases isRoot
              rfl
            · cases isRoot
          · cases isRoot
        have placedEnd := placed token isLookahead
        have ready :
            Sited lang source holds
              { (self.grow (self.depth + 1) false).2 with
                rootEmitted := true } :=
          ⟨grown.lexer, grown.cells, grown.spec, grown.error,
            grown.payload, grown.events⟩
        have ended := ready.emitShift places placedEnd true
        have root :=
          placed_rootReduction sited.cells placedEnd
            (reductionOf self.cells cut.children symbol childCount
              productionId)
            (TFParser.emitShift sink
              { (self.grow (self.depth + 1) false).2 with
                rootEmitted := true } token true).1
        exact (ended.emitReduce places root).place below trailing
          ⟨own.start, own.ending⟩ _

/-- Giving back the values on the stack. -/
theorem Sited.discardAll
    (sited : self.Sited lang source holds) :
    (self.discardAll sink).Sited lang source holds := by
  unfold TFParser.discardAll
  cases known : sink.onDiscard with
  | none =>
      exact sited
  | some onDiscard =>
      dsimp only
      generalize self.cells = cells
      induction cells generalizing self with
      | nil =>
          exact sited
      | cons cell rest inductionHypothesis =>
          rw [List.foldl_cons]
          refine inductionHypothesis ?_
          cases cell.node.value with
          | none =>
              exact sited
          | some value =>
              refine
                ⟨sited.lexer, sited.cells, sited.spec, sited.error, ?_, ?_⟩
              · exact places.discard onDiscard known _ _ sited.payload
              · intro event member
                rcases List.mem_append.mp member with old | isNew
                · exact sited.events event old
                · rw [List.mem_singleton.mp isNew]
                  trivial

end Stack

/-! ## Splits and steps -/

section Splits

variable {source : List UInt8}
variable {holds : σ → Prop}
variable {env : TFRunEnv σ V}
variable {self : TFParser σ V}

/-- A parser that goes on with a graph whose failure is on the path. -/
theorem Sited.withSpec
    {lang : TFLanguage}
    (sited : self.Sited lang source holds)
    {spec : TFSpec}
    (onPath : OnPath source (spec.errorByte, spec.errorPoint)) :
    Sited lang source holds { self with spec := some spec } where
  lexer := sited.lexer
  cells := sited.cells
  spec := by
    intro other same
    cases same
    exact onPath
  error := sited.error
  payload := sited.payload
  events := sited.events

/-- Running out of memory at a placed token. -/
theorem Sited.outOfMemory
    {lang : TFLanguage}
    (sited : self.Sited lang source holds)
    {token : TFToken}
    (placed : token.Placed source) :
    (self.outOfMemory token).Sited lang source holds :=
  sited.fail placed.start .outOfMemory

/-- Making room for a replay. -/
theorem Sited.reserveScratch
    {lang : TFLanguage}
    {marks : List (Nat × TFToken × Bool)}
    (sited : self.Sited lang source holds)
    {spec spec' : TFSpec}
    (graph : spec.Sited lang source marks)
    {needed : Nat}
    {after : TFParser σ V}
    (reserved : self.reserveScratch spec needed = some (spec', after)) :
    spec'.Sited lang source marks ∧ after.Sited lang source holds := by
  unfold TFParser.reserveScratch at reserved
  split at reserved
  · rename_i answer state ran
    obtain ⟨capacity, heap, rfl⟩ := TFSpec.reserve_eq_ok ran
    cases reserved
    exact ⟨graph.aside rfl,
      ⟨sited.lexer, sited.cells, sited.spec, sited.error, sited.payload,
        sited.events⟩⟩
  · cases reserved

variable (places : env.sink.Places source holds)

include places

/-- Replaying one item of a graph on the path. -/
theorem Sited.replayItem
    {marks : List (Nat × TFToken × Bool)}
    (sited : self.Sited env.lang source holds)
    {spec : TFSpec}
    (graph : spec.Sited env.lang source marks)
    (rest : List TFReplayItem)
    (item : TFReplayItem) :
    let answer := self.replayItem env spec rest item
    answer.1.Sited env.lang source marks ∧
      match answer.2 with
      | .next parser _ => parser.Sited env.lang source holds
      | .failed parser => parser.Sited env.lang source holds
      | .stuck => True := by
  cases item with
  | reduce index =>
      simp only [TFParser.replayItem]
      split
      · exact ⟨graph, trivial⟩
      · rename_i parser reduced
        exact ⟨graph,
          sited.reduce places (fun token none_ => by cases none_) reduced⟩
      · rename_i parser reduced
        exact ⟨graph,
          sited.reduce places (fun token none_ => by cases none_) reduced⟩
  | visit index =>
      simp only [TFParser.replayItem]
      have shifted :=
        sited.shift places (graph.tree index) (spec.tree index).extra
          (self.leafState env.lang (spec.tree index))
      split
      · exact ⟨graph, sited⟩
      · split
        · split
          · rename_i parser answer
            rw [answer] at shifted
            exact ⟨graph, shifted⟩
          · rename_i parser answer
            rw [answer] at shifted
            exact ⟨graph, shifted⟩
        · split
          · exact ⟨graph, sited⟩
          · split
            · exact ⟨graph, sited⟩
            · rename_i spec' parser reserved
              exact sited.reserveScratch graph reserved

/-- Replaying the items of a stack. -/
theorem Sited.replayItems
    {marks : List (Nat × TFToken × Bool)}
    (sited : self.Sited env.lang source holds)
    {fuel : Nat}
    {parser : TFParser σ V}
    {spec spec' : TFSpec}
    (graph : spec.Sited env.lang source marks)
    {items : List TFReplayItem}
    {well : Bool}
    (replayed :
      replayItems env fuel self spec items = some (well, spec', parser)) :
    spec'.Sited env.lang source marks ∧
      parser.Sited env.lang source holds := by
  induction fuel generalizing self spec items with
  | zero =>
      cases replayed
  | succ fuel inductionHypothesis =>
      cases items with
      | nil =>
          cases replayed
          exact ⟨graph, sited⟩
      | cons item rest =>
          obtain ⟨graphNext, step⟩ :=
            sited.replayItem places graph rest item
          simp only [TFParser.replayItems] at replayed
          rcases answer : self.replayItem env spec rest item with
            ⟨next, outcome⟩
          rw [answer] at replayed graphNext step
          simp only at graphNext step
          cases outcome with
          | next middle items =>
              exact inductionHypothesis step graphNext replayed
          | failed middle =>
              cases replayed
              exact ⟨graphNext, step⟩
          | stuck =>
              cases replayed

/-- Replaying a forest. -/
theorem Sited.replay
    {marks : List (Nat × TFToken × Bool)}
    (sited : self.Sited env.lang source holds)
    {parser : TFParser σ V}
    {spec spec' : TFSpec}
    (graph : spec.Sited env.lang source marks)
    {forest : List Nat}
    {well : Bool}
    (replayed : self.replay env spec forest = some (well, spec', parser)) :
    spec'.Sited env.lang source marks ∧
      parser.Sited env.lang source holds := by
  unfold TFParser.replay at replayed
  split at replayed
  · cases replayed
    exact ⟨graph, sited⟩
  · rename_i reservedSpec middle reserved
    obtain ⟨graphNow, sitedNow⟩ := sited.reserveScratch graph reserved
    exact sitedNow.replayItems places graphNow replayed

omit places in
/-- Going on with what a split left. -/
theorem Sited.resume
    {lang : TFLanguage}
    {marks : List (Nat × TFToken × Bool)}
    {floor : Nat}
    {state : TFSpecState}
    (sited : self.Sited lang source holds)
    (sites :
      TFSpec.Sites lang source marks
        (TFSpec.Above (TFLexer.Sited lang source) floor) state) :
    (self.resume state).Sited lang source holds where
  lexer := sites.rest.1
  cells := sited.cells
  spec := by
    intro spec same
    cases same
    exact sites.graph.error
  error := sited.error
  payload := sited.payload
  events := sited.events

/-- Committing to an accepted root: its end token ends the input. -/
theorem Sited.commitRoot
    {marks : List (Nat × TFToken × Bool)}
    (sited : self.Sited env.lang source holds)
    {spec : TFSpec}
    (graph : spec.Sited env.lang source marks)
    {root : Nat}
    (isRoot : spec.finished = some root)
    {token next : TFToken}
    (sound : token.Sound env.lang source)
    {well : Bool}
    {after : TFParser σ V}
    (committed :
      self.commitRoot env spec root token = some (well, next, after)) :
    after.Sited env.lang source holds ∧ next.Sound env.lang source := by
  have sized := sited.lexer.placed.settled.sized
  have endsThere := graph.root isRoot
  have onPath :
      OnPath source
        (source.length, (spec.tree root).token.endPoint) := by
    rw [← endsThere]
    exact (graph.tree root).ending
  have soundEnd : (self.acceptedEnd spec root).Sound env.lang source := by
    unfold TFParser.acceptedEnd
    rw [sized]
    exact ⟨⟨onPath, onPath⟩, Nat.zero_lt_of_lt sound.terminal,
      fun _ => rfl⟩
  unfold TFParser.commitRoot at committed
  dsimp only at committed
  split at committed
  · cases committed
  · rename_i spec' parser replayed
    obtain ⟨graphNow, sitedNow⟩ := sited.replay places graph replayed
    cases committed
    exact ⟨(sitedNow.withSpec graphNow.error).outOfMemory sound.placed,
      soundEnd⟩
  · rename_i spec' parser replayed
    obtain ⟨graphNow, sitedNow⟩ := sited.replay places graph replayed
    have isEnd :
        ∀ other, some (self.acceptedEnd spec root) = some other →
          other.Placed source := by
      intro other same
      cases same
      exact soundEnd.placed
    split at committed
    · cases committed
    · rename_i parser' reduced
      cases committed
      have kept := sitedNow.reduce places isEnd reduced
      exact ⟨(kept.withSpec graphNow.error).outOfMemory sound.placed,
        soundEnd⟩
    · rename_i parser' reduced
      cases committed
      have kept := sitedNow.reduce places isEnd reduced
      have settled := kept.withSpec graphNow.error
      refine ⟨⟨kept.lexer.seek soundEnd.placed.ending, settled.cells,
        settled.spec, settled.error, settled.payload, settled.events⟩,
        soundEnd⟩

variable (ends : EndsInput env.lang source)

include ends

/-- Committing to a path: the token that follows it is lexed. -/
theorem Sited.commitPath
    {marks : List (Nat × TFToken × Bool)}
    (sited : self.Sited env.lang source holds)
    {spec : TFSpec}
    (graph : spec.Sited env.lang source marks)
    {forest : List Nat}
    {top : Nat}
    {token next : TFToken}
    (sound : token.Sound env.lang source)
    {well : Bool}
    {after : TFParser σ V}
    (committed :
      self.commitPath env spec forest top token = some (well, next, after)) :
    after.Sited env.lang source holds ∧ next.Sound env.lang source := by
  unfold TFParser.commitPath at committed
  split at committed
  · cases committed
  · rename_i spec' parser replayed
    obtain ⟨graphNow, sitedNow⟩ := sited.replay places graph replayed
    cases committed
    exact ⟨(sitedNow.withSpec graphNow.error).outOfMemory sound.placed,
      sound⟩
  · rename_i spec' parser replayed
    obtain ⟨graphNow, sitedNow⟩ := sited.replay places graph replayed
    have sites :
        TFSpec.Sites env.spec.lang source marks
          (TFSpec.Above (TFLexer.Sited env.lang source) 0)
          ⟨spec', parser.lexer, parser.heap⟩ :=
      ⟨graphNow, ⟨sitedNow.lexer, Nat.zero_le _⟩,
        sitedNow.lexer.placed.settled.reading⟩
    split at committed
    · cases committed
    · cases committed
      exact ⟨(sitedNow.withSpec graphNow.error).outOfMemory sound.placed,
        sound⟩
    · rename_i state lexes
      cases committed
      obtain ⟨sitesLexed, _⟩ :=
        TFSpec.sites_lex ends _ _ _ _ sites lexes
      exact ⟨(sitedNow.resume sitesLexed).fail sitesLexed.graph.error _,
        sound⟩
    · rename_i lexed keyword state lexes
      cases committed
      obtain ⟨sitesLexed, isSound⟩ :=
        TFSpec.sites_lex ends _ _ _ _ sites lexes
      obtain ⟨soundNext, words⟩ := isSound _ _ rfl
      have sought :=
        sitesLexed.rest.1.placed.seek soundNext.placed.ending
      have settled := sought.settled
      refine ⟨⟨⟨⟨?_, sought.onPath⟩, words⟩, sitedNow.cells, ?_,
        sitedNow.error, sitedNow.payload, sitedNow.events⟩, soundNext⟩
      · exact ⟨settled.reading, settled.sized, settled.within,
          settled.decoded, settled.decodedSize⟩
      · intro spec same
        cases same
        exact sitesLexed.graph.error

variable
  (recovers :
    ∀ {marks} {fine},
      Program.Maintains (TFSpec.Sites env.lang source marks fine)
        env.materialize)
variable
  (hooks :
    ∀ cells splits token payload heap,
      holds payload →
        holds (env.hook cells splits token payload heap).2.1)

omit places ends in
/-- The graph a split works on has its last failure on the path. -/
theorem Sited.ownSpec
    {lang : TFLanguage}
    (sited : self.Sited lang source holds) :
    self.ownSpec.2.Sited lang source holds ∧
      ∀ spec, self.ownSpec.1 = some spec →
        OnPath source (spec.errorByte, spec.errorPoint) := by
  have kept :
      Sited lang source holds { self with heap := self.heap.allocate.2 } :=
    ⟨sited.lexer, sited.cells, sited.spec, sited.error, sited.payload,
      sited.events⟩
  unfold TFParser.ownSpec
  split
  · rename_i spec known
    refine ⟨sited, ?_⟩
    intro other same
    cases same
    exact sited.spec spec known
  · dsimp only
    split
    · refine ⟨kept, ?_⟩
      intro other same
      cases same
      exact onPath_origin source
    · refine ⟨kept, ?_⟩
      intro other same
      cases same

omit places ends in
/-- The state a split starts from. -/
theorem Sited.splitState
    {lang : TFLanguage}
    (sited : self.Sited lang source holds)
    {spec : TFSpec}
    (onPath : OnPath source (spec.errorByte, spec.errorPoint))
    {token : TFToken}
    (sound : token.Sound lang source) :
    TFSpec.Sites lang source []
      (TFSpec.Above (TFLexer.Sited lang source) 0)
      (self.splitState spec token) where
  graph := {
    sights := fun sight member => by cases member
    marked := fun mark member => by cases member
    places := fun place member => by cases member
    cells := by
      intro cell member
      obtain ⟨own, onStack, rfl⟩ := List.mem_map.mp member
      have placed := sited.cells own onStack
      exact ⟨placed.start, placed.ending⟩
    cached := sound
    keyword := sited.lexer.keyword
    error := onPath
    finished := fun root same => by cases same }
  rest := ⟨sited.lexer, Nat.zero_le _⟩
  reads := sited.lexer.placed.settled.reading

include recovers hooks

/-- A split goes on with a sound token. -/
theorem Sited.split
    (sited : self.Sited env.lang source holds)
    {token next : TFToken}
    (sound : token.Sound env.lang source)
    {well : Bool}
    {after : TFParser σ V}
    (ran : self.split env token = some (well, next, after)) :
    after.Sited env.lang source holds ∧ next.Sound env.lang source := by
  unfold TFParser.split at ran
  dsimp only at ran
  generalize asked :
    ({ self with
        splitCount := self.splitCount + 1
        payload :=
          (env.hook self.cells (self.splitCount + 1) token self.payload
            self.heap).2.1
        heap :=
          (env.hook self.cells (self.splitCount + 1) token self.payload
            self.heap).2.2 } : TFParser σ V) = hooked at ran
  have kept : hooked.Sited env.lang source holds := by
    rw [← asked]
    exact ⟨sited.lexer, sited.cells, sited.spec, sited.error,
      hooks _ _ _ _ _ sited.payload, sited.events⟩
  split at ran
  · cases ran
    exact ⟨kept, sound⟩
  · obtain ⟨keptOwn, errors⟩ := kept.ownSpec
    split at ran
    · rename_i parser owns
      rw [owns] at keptOwn
      cases ran
      exact ⟨keptOwn.outOfMemory sound.placed, sound⟩
    · rename_i spec parser owns
      rw [owns] at keptOwn errors
      have start := keptOwn.splitState (errors spec rfl) sound
      split at ran
      · cases ran
      · cases ran
        exact ⟨keptOwn.outOfMemory sound.placed, sound⟩
      · rename_i state explores
        cases ran
        obtain ⟨sites, _⟩ :=
          TFSpec.sites_explore ends recovers _ _ _ start explores
        have resumed := keptOwn.resume sites
        refine ⟨?_, sound⟩
        unfold failDead
        split
        · exact resumed.fail sites.graph.error _
        · refine ⟨resumed.lexer, resumed.cells, resumed.spec, ?_,
            resumed.payload, resumed.events⟩
          intro error same
          cases same
          exact sites.graph.error
      · rename_i forest top state explores
        obtain ⟨sites, _⟩ :=
          TFSpec.sites_explore ends recovers _ _ _ start explores
        exact (keptOwn.resume sites).commitPath places ends sites.graph
          sound ran
      · rename_i root state explores
        obtain ⟨sites, isRoot⟩ :=
          TFSpec.sites_explore ends recovers _ _ _ start explores
        exact (keptOwn.resume sites).commitRoot places sites.graph
          (isRoot root rfl) sound ran

omit places ends recovers hooks in
/-- Where a step stands: its parser's positions, and its token's. -/
def Standing
    (lang : TFLanguage)
    (source : List UInt8)
    (holds : σ → Prop) : TFStep σ V → Prop
  | .lex parser => parser.Sited lang source holds
  | .act parser token =>
      parser.Sited lang source holds ∧ token.Sound lang source
  | .stop _ _ parser => parser.Sited lang source holds
  | .stuck => True

/-- One step of the main loop. -/
theorem standing_step
    {current : TFStep σ V}
    (standing : Standing env.lang source holds current) :
    Standing env.lang source holds (TFStep.step env current) := by
  have unexpected :
      ∀ (parser : TFParser σ V) (token : TFToken),
        parser.Sited env.lang source holds → token.Placed source →
          Standing env.lang source holds
            (TFStep.unexpected env parser token) := by
    intro parser token sited placed
    refine ⟨sited.lexer, sited.cells, sited.spec, ?_, sited.payload,
      sited.events⟩
    intro error same
    cases same
    exact placed.start
  cases current with
  | lex parser =>
      obtain ⟨lexed, isSound⟩ :=
        standing.lexer.placed.next_sited ends parser.state
      have kept :
          Sited env.lang source holds
            { parser with
              lexer := (parser.lexer.next env.lang parser.state).2 } :=
        ⟨lexed, standing.cells, standing.spec, standing.error,
          standing.payload, standing.events⟩
      simp only [TFStep.step, TFStep.lexStep]
      split
      · rename_i token found
        exact ⟨kept, isSound token found⟩
      · exact kept.fail lexed.placed.onPath _
  | act parser token =>
      obtain ⟨sited, sound⟩ := standing
      simp only [TFStep.step, TFStep.actStep]
      split
      · split
        · rename_i demoted demotes
          exact ⟨sited, sound.demoteKeyword ends sited.lexer.keyword demotes⟩
        · exact unexpected parser token sited sound.placed
      · rename_i action entry
        cases action with
        | shift target extra repetition =>
            simp only [TFStep.actionStep]
            generalize (if extra = true then parser.state else target) = into
            have shifted := sited.shift places sound.placed extra into
            split
            · exact shifted
            · exact shifted.outOfMemory sound.placed
        | reduce childCount symbol precedence productionId =>
            simp only [TFStep.actionStep]
            have isToken :
                ∀ other, some token = some other → other.Placed source := by
              intro other same
              cases same
              exact sound.placed
            split
            · trivial
            · rename_i reduced done
              exact ⟨sited.reduce places isToken done, sound⟩
            · rename_i reduced done
              exact (sited.reduce places isToken done).outOfMemory
                sound.placed
        | accept =>
            exact sited
        | recover =>
            exact unexpected parser token sited sound.placed
      · split
        · trivial
        · rename_i next parser' ran
          exact sited.split places ends recovers hooks sound ran
        · rename_i next parser' ran
          exact (sited.split places ends recovers hooks sound ran).1
  | stop ok root parser =>
      exact standing
  | stuck =>
      trivial

/-- Any number of steps. -/
theorem standing_steps
    {count : Nat}
    {current : TFStep σ V}
    (standing : Standing env.lang source holds current) :
    Standing env.lang source holds (TFStep.steps env count current) := by
  induction count generalizing current with
  | zero =>
      exact standing
  | succ count inductionHypothesis =>
      exact inductionHypothesis
        (standing_step places ends recovers hooks standing)

/-- A whole run keeps positions on the path of its source. -/
theorem sited_run
    {payload : σ}
    {heap : Heap}
    {result : TFResult σ V}
    (ran : run env source payload heap = some result)
    (before : holds payload) :
    result.parser.Sited env.lang source holds := by
  have start :
      (initial source payload heap : TFParser σ V).Sited env.lang source
        holds :=
    { lexer := TFLexer.sited_init _ source
      cells := fun cell member => by cases member
      spec := fun spec none_ => by cases none_
      error := fun error none_ => by cases none_
      payload := before
      events := fun event member => by cases member }
  have entered :
      Standing env.lang source holds
        (enter source payload heap : TFStep σ V) := by
    have grown := start.grow 64 false
    unfold enter
    dsimp only
    split
    · exact start.fail (onPath_origin source) _
    · split
      · exact grown
      · exact grown.fail (onPath_origin source) _
  have ended :
      Standing env.lang source holds
        (TFStep.steps env env.fuel (enter source payload heap)) :=
    standing_steps places ends recovers hooks entered
  unfold run finish at ran
  split at ran
  · rename_i root parser last
    cases ran
    rw [last] at ended
    exact ended
  · rename_i root parser last
    cases ran
    rw [last] at ended
    exact Sited.discardAll places ended
  · cases ran

end Splits

end TFParser

end TreeFeller
