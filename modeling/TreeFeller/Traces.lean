import TreeFeller.Operations

namespace TreeFeller

open StatefulProgram

/-!
# Runs as traces of operations

Whatever the driver does, ordinary steps, splits and replays alike, comes to a
sequence of shifts and reductions of the one real stack.  A run that goes well
is such a trace; one that fails is a trace whose last operation failed, or
after which the driver gave up.

Once the root has been emitted nothing follows but the accept action: the
state the root's reduction leads to has no other action on the end token.
-/

namespace TFParser

variable {σ V : Type}

/-- Parsers with the same stack, the same payload and the same log. -/
structure Quiet (before after : TFParser σ V) : Prop where
  cells : after.cells = before.cells
  capacity : after.capacity = before.capacity
  leading : after.leading = before.leading
  rootEmitted : after.rootEmitted = before.rootEmitted
  payload : after.payload = before.payload
  events : after.events = before.events

namespace Quiet

/-- Nothing happened. -/
theorem refl (self : TFParser σ V) : Quiet self self :=
  ⟨rfl, rfl, rfl, rfl, rfl, rfl⟩

/-- Nothing happened twice. -/
theorem trans
    {first second third : TFParser σ V}
    (before : Quiet first second)
    (after : Quiet second third) :
    Quiet first third where
  cells := after.cells.trans before.cells
  capacity := after.capacity.trans before.capacity
  leading := after.leading.trans before.leading
  rootEmitted := after.rootEmitted.trans before.rootEmitted
  payload := after.payload.trans before.payload
  events := after.events.trans before.events

end Quiet

/-- Shifts and reductions that went well, from a parser to another. -/
inductive Trace
    (sink : TFSink σ V)
    (lang : TFLanguage)
    (first : TFParser σ V) :
    TFParser σ V → Prop where
  | start : Trace sink lang first first
  | quiet
      {before after : TFParser σ V}
      (earlier : Trace sink lang first before)
      (same : Quiet before after) :
      Trace sink lang first after
  | shift
      {before after : TFParser σ V}
      {token : TFToken}
      {extra : Bool}
      {state : TSStateId}
      (earlier : Trace sink lang first before)
      (open_ : before.rootEmitted = false)
      (shifted : before.shift sink token extra state = (true, after)) :
      Trace sink lang first after
  | reduce
      {before after : TFParser σ V}
      {symbol : TSSymbol}
      {childCount productionId : Nat}
      {lookahead : Option TFToken}
      (earlier : Trace sink lang first before)
      (open_ : before.rootEmitted = false)
      (reduced :
        before.reduce sink lang symbol childCount productionId lookahead =
          some (true, after)) :
      Trace sink lang first after

/-- An operation that failed, or the driver giving up between operations. -/
inductive Fails
    (sink : TFSink σ V)
    (lang : TFLanguage)
    (before : TFParser σ V) :
    TFParser σ V → Prop where
  | quiet
      {after : TFParser σ V}
      (same : Quiet before after) :
      Fails sink lang before after
  | shift
      {failed after : TFParser σ V}
      {token : TFToken}
      {extra : Bool}
      {state : TSStateId}
      (shifted : before.shift sink token extra state = (false, failed))
      (same : Quiet failed after) :
      Fails sink lang before after
  | reduce
      {failed after : TFParser σ V}
      {symbol : TSSymbol}
      {childCount productionId : Nat}
      {lookahead : Option TFToken}
      (reduced :
        before.reduce sink lang symbol childCount productionId lookahead =
          some (false, failed))
      (same : Quiet failed after) :
      Fails sink lang before after

namespace Fails

/-- A failure is one whatever happens quietly after it. -/
theorem trans
    {sink : TFSink σ V}
    {lang : TFLanguage}
    {before failed after : TFParser σ V}
    (fails : Fails sink lang before failed)
    (same : Quiet failed after) :
    Fails sink lang before after := by
  cases fails with
  | quiet earlier =>
      exact .quiet (earlier.trans same)
  | shift shifted earlier =>
      exact .shift shifted (earlier.trans same)
  | reduce reduced earlier =>
      exact .reduce reduced (earlier.trans same)

end Fails

/-! ## Replaying a plan -/

/-- What replaying a tree does to the real stack. -/
inductive Replayed where
  | leaf (tree : TFSpecTree)
  | parent (tree : TFSpecTree)
  deriving Repr, DecidableEq

/-- The shifts and reductions, in order, that a replay's items stand for. -/
inductive Postorder (tree : Nat → TFSpecTree) :
    List TFReplayItem → List Replayed → Prop where
  | done : Postorder tree [] []
  | reduce
      {index : Nat}
      {rest : List TFReplayItem}
      {plan : List Replayed}
      (later : Postorder tree rest plan) :
      Postorder tree (.reduce index :: rest) (.parent (tree index) :: plan)
  | inherited
      {index : Nat}
      {rest : List TFReplayItem}
      {plan : List Replayed}
      (isInherited : (tree index).inherited = true)
      (later : Postorder tree rest plan) :
      Postorder tree (.visit index :: rest) plan
  | leaf
      {index : Nat}
      {rest : List TFReplayItem}
      {plan : List Replayed}
      (own : (tree index).inherited = false)
      (isLeaf : (tree index).leaf = true)
      (later : Postorder tree rest plan) :
      Postorder tree (.visit index :: rest) (.leaf (tree index) :: plan)
  | parent
      {index : Nat}
      {rest : List TFReplayItem}
      {plan : List Replayed}
      (own : (tree index).inherited = false)
      (inner : (tree index).leaf = false)
      (later :
        Postorder tree
          ((tree index).children.map .visit ++ .reduce index :: rest)
          plan) :
      Postorder tree (.visit index :: rest) plan

/-- A plan carried out on the real stack. -/
inductive Performs
    (sink : TFSink σ V)
    (lang : TFLanguage) :
    List Replayed → TFParser σ V → TFParser σ V → Prop where
  | done
      {before : TFParser σ V} :
      Performs sink lang [] before before
  | quiet
      {before middle after : TFParser σ V}
      {plan : List Replayed}
      (same : Quiet before middle)
      (later : Performs sink lang plan middle after) :
      Performs sink lang plan before after
  | leaf
      {before middle after : TFParser σ V}
      {tree : TFSpecTree}
      {plan : List Replayed}
      (shifted :
        before.shift sink tree.token tree.extra
            (before.leafState lang tree) =
          (true, middle))
      (later : Performs sink lang plan middle after) :
      Performs sink lang (.leaf tree :: plan) before after
  | parent
      {before middle after : TFParser σ V}
      {tree : TFSpecTree}
      {plan : List Replayed}
      (reduced :
        before.reduce sink lang tree.token.symbol tree.structuralCount
            tree.productionId none =
          some (true, middle))
      (later : Performs sink lang plan middle after) :
      Performs sink lang (.parent tree :: plan) before after

/-- A plan of which some was carried out before an operation failed. -/
structure Stalls
    (sink : TFSink σ V)
    (lang : TFLanguage)
    (before after : TFParser σ V) : Prop where
  partly :
    ∃ plan middle,
      Performs sink lang plan before middle ∧
        Fails sink lang middle after

namespace Stalls

variable {sink : TFSink σ V}
variable {lang : TFLanguage}
variable {before middle after : TFParser σ V}

/-- Nothing was carried out. -/
theorem now (fails : Fails sink lang before after) :
    Stalls sink lang before after :=
  ⟨[], before, .done, fails⟩

/-- Something quiet came first. -/
theorem quiet
    (same : Quiet before middle)
    (stalls : Stalls sink lang middle after) :
    Stalls sink lang before after := by
  obtain ⟨plan, reached, performs, fails⟩ := stalls.partly
  exact ⟨plan, reached, .quiet same performs, fails⟩

/-- A leaf came first. -/
theorem leaf
    {tree : TFSpecTree}
    (shifted :
      before.shift sink tree.token tree.extra
          (before.leafState lang tree) =
        (true, middle))
    (stalls : Stalls sink lang middle after) :
    Stalls sink lang before after := by
  obtain ⟨plan, reached, performs, fails⟩ := stalls.partly
  exact ⟨.leaf tree :: plan, reached, .leaf shifted performs, fails⟩

/-- A parent came first. -/
theorem parent
    {tree : TFSpecTree}
    (reduced :
      before.reduce sink lang tree.token.symbol tree.structuralCount
          tree.productionId none =
        some (true, middle))
    (stalls : Stalls sink lang middle after) :
    Stalls sink lang before after := by
  obtain ⟨plan, reached, performs, fails⟩ := stalls.partly
  exact ⟨.parent tree :: plan, reached, .parent reduced performs, fails⟩

end Stalls

/-- Reserving replay room changes capacities and asks the allocator only. -/
theorem reserveScratch_eq
    {self parser : TFParser σ V}
    {spec spec' : TFSpec}
    {needed : Nat}
    (reserved : self.reserveScratch spec needed = some (spec', parser)) :
    (∃ capacity, spec' = spec.withCapacity capacity) ∧
      Quiet self parser := by
  unfold reserveScratch at reserved
  split at reserved
  · rename_i answer state ran
    cases reserved
    obtain ⟨capacity, heap, stateEq⟩ := TFSpec.reserve_eq_ok ran
    rw [stateEq]
    exact ⟨⟨capacity, rfl⟩, ⟨rfl, rfl, rfl, rfl, rfl, rfl⟩⟩
  · cases reserved

/-- What one item of a replay does, seen from what is done after it. -/
inductive ReplayItemSpec
    (env : TFRunEnv σ V)
    (self : TFParser σ V)
    (spec : TFSpec)
    (rest : List TFReplayItem)
    (item : TFReplayItem) :
    TFReplayStep σ V → Prop where
  | next
      {parser : TFParser σ V}
      {items : List TFReplayItem}
      (performs :
        ∀ plan after,
          Postorder spec.tree items plan →
            Performs env.sink env.lang plan parser after →
              ∃ plan',
                Postorder spec.tree (item :: rest) plan' ∧
                  Performs env.sink env.lang plan' self after)
      (stalls :
        ∀ after,
          Stalls env.sink env.lang parser after →
            Stalls env.sink env.lang self after) :
      ReplayItemSpec env self spec rest item (.next parser items)
  | failed
      {parser : TFParser σ V}
      (fails : Fails env.sink env.lang self parser) :
      ReplayItemSpec env self spec rest item (.failed parser)
  | stuck : ReplayItemSpec env self spec rest item .stuck

/-- One item of a replay: an operation, or its children put before it. -/
theorem replayItem_spec
    (env : TFRunEnv σ V)
    (self : TFParser σ V)
    (spec : TFSpec)
    (rest : List TFReplayItem)
    (item : TFReplayItem) :
    let answer := self.replayItem env spec rest item
    (∃ capacity, answer.1 = spec.withCapacity capacity) ∧
      ReplayItemSpec env self spec rest item answer.2 := by
  have unchanged : ∃ capacity, spec = spec.withCapacity capacity :=
    ⟨spec.capacity, rfl⟩
  cases item with
  | reduce index =>
      simp only [replayItem]
      cases reduced :
          self.reduce env.sink env.lang (spec.tree index).token.symbol
            (spec.tree index).structuralCount
            (spec.tree index).productionId none with
      | none =>
          exact ⟨unchanged, .stuck⟩
      | some answer =>
          rcases answer with ⟨placed, middle⟩
          cases placed with
          | false =>
              exact ⟨unchanged, .failed (.reduce reduced (.refl _))⟩
          | true =>
              refine ⟨unchanged, .next ?_ ?_⟩
              · intro plan after order performs
                exact ⟨_, .reduce order, .parent reduced performs⟩
              · intro after stalls
                exact stalls.parent reduced
  | visit index =>
      simp only [replayItem]
      cases inherited : (spec.tree index).inherited with
      | true =>
          refine ⟨unchanged, .next ?_ ?_⟩
          · intro plan after order performs
            exact ⟨plan, .inherited inherited order, performs⟩
          · intro after stalls
            exact stalls
      | false =>
          cases isLeaf : (spec.tree index).leaf with
          | true =>
              simp only [Bool.false_eq_true, if_false, if_true]
              rcases shifted :
                  self.shift env.sink (spec.tree index).token
                    (spec.tree index).extra
                    (self.leafState env.lang (spec.tree index)) with
                ⟨placed, middle⟩
              cases placed with
              | false =>
                  exact ⟨unchanged, .failed (.shift shifted (.refl _))⟩
              | true =>
                  refine ⟨unchanged, .next ?_ ?_⟩
                  · intro plan after order performs
                    exact ⟨_, .leaf inherited isLeaf order,
                      .leaf shifted performs⟩
                  · intro after stalls
                    exact stalls.leaf shifted
          | false =>
              simp only [Bool.false_eq_true, if_false]
              split
              · rename_i childless
                have none : (spec.tree index).children = [] := by
                  simpa using childless
                refine ⟨unchanged, .next ?_ ?_⟩
                · intro plan after order performs
                  refine ⟨plan, .parent inherited isLeaf ?_, performs⟩
                  rw [none]
                  exact order
                · intro after stalls
                  exact stalls
              · cases reserved :
                    self.reserveScratch spec
                      (rest.length +
                        (spec.tree index).children.length) with
                | none =>
                    exact ⟨unchanged, .failed (.quiet (.refl _))⟩
                | some answer =>
                    rcases answer with ⟨spec', parser⟩
                    obtain ⟨same, quiet⟩ := reserveScratch_eq reserved
                    refine ⟨same, .next ?_ ?_⟩
                    · intro plan after order performs
                      exact ⟨plan, .parent inherited isLeaf order,
                        .quiet quiet performs⟩
                    · intro after stalls
                      exact stalls.quiet quiet

/-- Items replayed to the end carry out their plan; otherwise they stall. -/
theorem replayItems_spec
    {env : TFRunEnv σ V}
    {fuel : Nat}
    {self parser : TFParser σ V}
    {spec spec' : TFSpec}
    {items : List TFReplayItem}
    {well : Bool}
    (replayed :
      replayItems env fuel self spec items = some (well, spec', parser)) :
    (∃ capacity, spec' = spec.withCapacity capacity) ∧
      (well = true →
        ∃ plan,
          Postorder spec.tree items plan ∧
            Performs env.sink env.lang plan self parser) ∧
      (well = false → Stalls env.sink env.lang self parser) := by
  induction fuel generalizing self spec items with
  | zero =>
      cases replayed
  | succ fuel inductionHypothesis =>
      cases items with
      | nil =>
          cases replayed
          exact ⟨⟨_, rfl⟩, fun _ => ⟨[], .done, .done⟩, nofun⟩
      | cons item rest =>
          obtain ⟨⟨capacity, same⟩, step⟩ :=
            replayItem_spec env self spec rest item
          simp only [replayItems] at replayed
          rcases answer : self.replayItem env spec rest item with
            ⟨next, outcome⟩
          rw [answer] at replayed same step
          simp only at same step
          subst same
          cases step with
          | stuck =>
              cases replayed
          | failed fails =>
              cases replayed
              exact ⟨⟨_, rfl⟩, nofun, fun _ => .now fails⟩
          | next performs stalls =>
              obtain ⟨⟨capacity', sameLater⟩, went, stopped⟩ :=
                inductionHypothesis replayed
              refine ⟨⟨capacity', sameLater⟩, ?_, ?_⟩
              · intro isWell
                obtain ⟨plan, order, carried⟩ := went isWell
                exact performs plan parser order carried
              · intro isNot
                exact stalls parser (stopped isNot)

/-- A forest replayed to the end carries out its plan; otherwise it stalls. -/
theorem replay_spec
    {env : TFRunEnv σ V}
    {self parser : TFParser σ V}
    {spec spec' : TFSpec}
    {forest : List Nat}
    {well : Bool}
    (replayed : self.replay env spec forest = some (well, spec', parser)) :
    (∃ capacity, spec' = spec.withCapacity capacity) ∧
      (well = true →
        ∃ plan,
          Postorder spec.tree (forest.map .visit) plan ∧
            Performs env.sink env.lang plan self parser) ∧
      (well = false → Stalls env.sink env.lang self parser) := by
  unfold replay at replayed
  split at replayed
  · cases replayed
    exact ⟨⟨_, rfl⟩, nofun, fun _ => .now (.quiet (.refl _))⟩
  · rename_i reservedSpec middle reserved
    obtain ⟨⟨capacity, same⟩, quiet⟩ := reserveScratch_eq reserved
    subst same
    obtain ⟨⟨capacity', sameLater⟩, went, stopped⟩ :=
      replayItems_spec replayed
    refine ⟨⟨capacity', sameLater⟩, ?_, ?_⟩
    · intro isWell
      obtain ⟨plan, order, performs⟩ := went isWell
      exact ⟨plan, order, .quiet quiet performs⟩
    · intro isNot
      exact (stopped isNot).quiet quiet

/-! ## Before and after the root -/

/-- The state on top is that of the last cell. -/
theorem topState_of_getLast?
    {cells : List (TFCell V)}
    {cell : TFCell V}
    (last : cells.getLast? = some cell) :
    topState cells = cell.state := by
  rw [List.getLast?_eq_getElem?] at last
  cases count : cells.length with
  | zero =>
      simp [List.length_eq_zero_iff.mp count] at last
  | succ below =>
      rw [count, Nat.add_sub_cancel] at last
      simp only [topState, count, stateAt, last, Option.map_some,
        Option.getD_some]

/-- A reduction leaves its own state on top. -/
theorem topState_placed
    (cut : Popped V)
    (parent : TFNode V)
    (state : TSStateId) :
    topState (RawStack.placed cut parent state) = state := by
  unfold RawStack.placed
  rcases List.eq_nil_or_concat cut.trailing with empty | ⟨rest, cell, more⟩
  · have last :
        (cut.below ++ [(⟨parent, state⟩ : TFCell V)] ++
          cut.trailing.map (fun cell : TFCell V =>
            { cell with state := state })).getLast? =
          some ⟨parent, state⟩ := by
      simp [empty]
    exact topState_of_getLast? last
  · have last :
        (cut.below ++ [(⟨parent, state⟩ : TFCell V)] ++
          cut.trailing.map (fun cell : TFCell V =>
            { cell with state := state })).getLast? =
          some { cell with state := state } := by
      rw [more, List.concat_eq_append, List.map_append,
        ← List.append_assoc]
      exact List.getLast?_concat
    exact topState_of_getLast? last

/-- The root has not been emitted, and the stack has room for its cells. -/
structure Ready (parser : TFParser σ V) : Prop where
  open_ : parser.rootEmitted = false
  fits : parser.depth ≤ parser.capacity

/-- The root has been emitted, and only the accept action is left. -/
structure Rooted (lang : TFLanguage) (parser : TFParser σ V) : Prop where
  emitted : parser.rootEmitted = true
  accepts : lang.acceptsEnd.getD parser.state false = true

/-- The root's reduction emits the root. -/
theorem Rooted.root
    {sink : TFSink σ V}
    {lang : TFLanguage}
    {before after : TFParser σ V}
    {cut : Popped V}
    {symbol : TSSymbol}
    {childCount productionId : Nat}
    {token : TFToken}
    (reduced :
      RootReduction sink lang before cut symbol childCount productionId
        token true after) :
    Rooted lang after := by
  obtain ⟨heap, capacity, _, ⟨_, _, heapBefore, same⟩ | ⟨failed, _⟩⟩ :=
    reduced.done
  · constructor
    · rw [same]
    · rw [same]
      simp only [TFParser.state, topState_placed]
      exact reduced.accepts
  · cases failed

namespace Ready

variable {sink : TFSink σ V}
variable {lang : TFLanguage}
variable {before after : TFParser σ V}

/-- Nothing quiet changes whether a parser is ready. -/
theorem quiet (ready : Ready before) (same : Quiet before after) :
    Ready after where
  open_ := same.rootEmitted.trans ready.open_
  fits := by
    unfold depth
    rw [same.cells, same.capacity]
    exact ready.fits

/-- A parser is ready after a shift. -/
theorem shift
    (ready : Ready before)
    {token : TFToken}
    {extra : Bool}
    {state : TSStateId}
    (shifted : before.shift sink token extra state = (true, after)) :
    Ready after := by
  rcases before.shift_cases sink token extra state with
    ⟨heap, capacity, _, room, well⟩ | ⟨heap, failed⟩
  · rw [shifted] at well
    rw [(Prod.mk.inj well).2]
    constructor
    · exact ready.open_
    · simpa [depth] using room
  · rw [shifted] at failed
    cases (Prod.mk.inj failed).1

/-- A parser is ready after a reduction other than the root's. -/
theorem inner
    (ready : Ready before)
    {cut : Popped V}
    {symbol : TSSymbol}
    {childCount productionId : Nat}
    (reduced :
      InnerReduction sink lang before cut symbol childCount productionId
        true after) :
    Ready after := by
  obtain ⟨heap, capacity, _, ⟨_, room, same⟩ | ⟨failed, _⟩⟩ :=
    reduced.done
  · constructor
    · rw [same]
      exact ready.open_
    · rw [same]
      simp only [depth, RawStack.placed, List.length_append,
        List.length_map, List.length_singleton]
      exact room
  · cases failed

/-- After a reduction a parser is ready, or the root has been emitted. -/
theorem reduce
    (ready : Ready before)
    {symbol : TSSymbol}
    {childCount productionId : Nat}
    {lookahead : Option TFToken}
    (reduced :
      before.reduce sink lang symbol childCount productionId lookahead =
        some (true, after)) :
    Ready after ∨
      Rooted lang after ∧
        ∃ token, lookahead = some token ∧
          token.symbol = tsBuiltinSymEnd := by
  obtain ⟨cut, cuts, ⟨_, inner⟩ | ⟨token, lookaheadEq, root⟩⟩ :=
    reduce_cases ready.fits reduced
  · exact Or.inl (ready.inner inner)
  · exact Or.inr ⟨.root root, token, lookaheadEq, root.isEnd⟩

/-- A plan leaves a parser ready, and is a trace. -/
theorem performs
    (ready : Ready before)
    {plan : List Replayed}
    (performed : Performs sink lang plan before after) :
    Ready after ∧
      ∀ first,
        Trace sink lang first before → Trace sink lang first after := by
  induction performed with
  | done =>
      exact ⟨ready, fun _ trace => trace⟩
  | quiet same later inductionHypothesis =>
      obtain ⟨readyAfter, traces⟩ :=
        inductionHypothesis (ready.quiet same)
      exact ⟨readyAfter, fun first trace =>
        traces first (trace.quiet same)⟩
  | leaf shifted later inductionHypothesis =>
      obtain ⟨readyAfter, traces⟩ :=
        inductionHypothesis (ready.shift shifted)
      exact ⟨readyAfter, fun first trace =>
        traces first (trace.shift ready.open_ shifted)⟩
  | parent reduced later inductionHypothesis =>
      rcases ready.reduce reduced with readyMiddle | ⟨_, token, none, _⟩
      · obtain ⟨readyAfter, traces⟩ := inductionHypothesis readyMiddle
        exact ⟨readyAfter, fun first trace =>
          traces first (trace.reduce ready.open_ reduced)⟩
      · cases none

end Ready

/-! ## Splits -/

/-- The parser once the hook of a split has been asked. -/
def asked
    (env : TFRunEnv σ V)
    (self : TFParser σ V)
    (token : TFToken) :
    TFParser σ V :=
  let hooked :=
    env.hook self.cells (self.splitCount + 1) token self.payload self.heap
  { self with
    splitCount := self.splitCount + 1
    payload := hooked.2.1
    heap := hooked.2.2 }

/-- The parser once a split has a graph to work on. -/
def opened
    (env : TFRunEnv σ V)
    (self : TFParser σ V)
    (token : TFToken)
    (heap : Heap) :
    TFParser σ V :=
  { self.asked env token with heap := heap }

/-- Every way a split can end. -/
inductive SplitSpec
    (env : TFRunEnv σ V)
    (self : TFParser σ V)
    (token : TFToken) :
    Bool → TFToken → TFParser σ V → Prop where
  /-- The hook has seen enough. -/
  | captured : SplitSpec env self token false token (self.asked env token)
  /-- There was no room for the graph. -/
  | noRoom
      (heap : Heap) :
      SplitSpec env self token false token
        ((self.opened env token heap).outOfMemory token)
  /-- No alternative is left. -/
  | dead
      (heap : Heap)
      (spec : TFSpec)
      (state : TFSpecState)
      (explored :
        TFSpec.explore env.spec
            ((self.opened env token heap).splitState spec
              token) =
          .ok (.dead, state)) :
      SplitSpec env self token false token
        (((self.opened env token heap).resume
          state).failDead env.lang state.spec)
  /-- One stack is left. -/
  | path
      (heap : Heap)
      (spec : TFSpec)
      (state : TFSpecState)
      {forest : List Nat}
      {top : Nat}
      (explored :
        TFSpec.explore env.spec
            ((self.opened env token heap).splitState spec
              token) =
          .ok (.path forest top, state))
      {well : Bool}
      {next : TFToken}
      {after : TFParser σ V}
      (committed :
        ((self.opened env token heap).resume
            state).commitPath env state.spec forest top token =
          some (well, next, after)) :
      SplitSpec env self token well next after
  /-- A root was accepted. -/
  | root
      (heap : Heap)
      (spec : TFSpec)
      (state : TFSpecState)
      {root : Nat}
      (explored :
        TFSpec.explore env.spec
            ((self.opened env token heap).splitState spec
              token) =
          .ok (.accepted root, state))
      {well : Bool}
      {next : TFToken}
      {after : TFParser σ V}
      (committed :
        ((self.opened env token heap).resume
            state).commitRoot env state.spec root token =
          some (well, next, after)) :
      SplitSpec env self token well next after

/-- A split that ends ends in one of these ways. -/
theorem split_spec
    {env : TFRunEnv σ V}
    {self after : TFParser σ V}
    {token next : TFToken}
    {well : Bool}
    (ran : self.split env token = some (well, next, after)) :
    SplitSpec env self token well next after := by
  unfold split at ran
  dsimp only at ran
  split at ran
  · cases ran
    exact .captured
  · have own :
        ∀ parser : TFParser σ V,
          ∃ heap, parser.ownSpec.2 = { parser with heap := heap } := by
      intro parser
      unfold ownSpec
      split
      · exact ⟨parser.heap, rfl⟩
      · dsimp only
        split <;> exact ⟨_, rfl⟩
    obtain ⟨heap, hasGraph⟩ := own (self.asked env token)
    split at ran
    · rename_i parser found
      have parserEq : (self.asked env token).ownSpec.2 = parser :=
        congrArg Prod.snd found
      cases ran
      rw [← parserEq, hasGraph]
      exact .noRoom heap
    · rename_i spec parser found
      have parserEq : (self.asked env token).ownSpec.2 = parser :=
        congrArg Prod.snd found
      rw [hasGraph] at parserEq
      subst parserEq
      split at ran
      · cases ran
      · cases ran
        exact .noRoom heap
      · rename_i state explored
        cases ran
        exact .dead heap spec state explored
      · rename_i forest top state explored
        exact .path heap spec state explored ran
      · rename_i root state explored
        exact .root heap spec state explored ran

/-- Every way committing to a path can end. -/
inductive CommitPathSpec
    (env : TFRunEnv σ V)
    (self : TFParser σ V)
    (spec : TFSpec)
    (forest : List Nat)
    (top : Nat)
    (token : TFToken) :
    Bool → TFToken → TFParser σ V → Prop where
  /-- The replay failed. -/
  | stalled
      {middle : TFParser σ V}
      (stalls : Stalls env.sink env.lang self middle)
      (left : Option TFSpec) :
      CommitPathSpec env self spec forest top token false token
        (({ middle with spec := left }).outOfMemory token)
  /-- The replay went well; lexing the next token did not. -/
  | unlexed
      {plan : List Replayed}
      {middle after : TFParser σ V}
      {capacity : TFSpecArena → Nat}
      {state : TFSpecState}
      (order : Postorder spec.tree (forest.map .visit) plan)
      (performs : Performs env.sink env.lang plan self middle)
      (lexed :
        TFSpec.lex env.spec top
            ⟨spec.withCapacity capacity, middle.lexer, middle.heap⟩ =
          .ok (none, state))
      (same :
        after =
          (middle.resume state).fail state.spec.errorByte
            state.spec.errorPoint .unexpectedCharacter) :
      CommitPathSpec env self spec forest top token false token after
  /-- The replay went well, and the next token was lexed. -/
  | lexed
      {plan : List Replayed}
      {middle after : TFParser σ V}
      {capacity : TFSpecArena → Nat}
      {state : TFSpecState}
      {next : TFToken}
      {keyword : Bool}
      (order : Postorder spec.tree (forest.map .visit) plan)
      (performs : Performs env.sink env.lang plan self middle)
      (lexed :
        TFSpec.lex env.spec top
            ⟨spec.withCapacity capacity, middle.lexer, middle.heap⟩ =
          .ok (some (next, keyword), state))
      (same :
        after =
          middle.resume
            { state with
              lexer :=
                { state.lexer.seek next.endByte next.endPoint with
                  tokenIsKeyword := keyword
                  tokenLexState := state.spec.cachedState } }) :
      CommitPathSpec env self spec forest top token true next after

/-- Committing to a path ends in one of these ways. -/
theorem commitPath_spec
    {env : TFRunEnv σ V}
    {self after : TFParser σ V}
    {spec : TFSpec}
    {forest : List Nat}
    {top : Nat}
    {token next : TFToken}
    {well : Bool}
    (committed :
      self.commitPath env spec forest top token =
        some (well, next, after)) :
    CommitPathSpec env self spec forest top token well next after := by
  unfold commitPath at committed
  split at committed
  · cases committed
  · rename_i spec' middle replayed
    cases committed
    obtain ⟨_, _, stopped⟩ := replay_spec replayed
    exact .stalled (stopped rfl) _
  · rename_i spec' middle replayed
    obtain ⟨⟨capacity, same⟩, went, _⟩ := replay_spec replayed
    subst same
    obtain ⟨plan, order, performs⟩ := went rfl
    split at committed
    · cases committed
    · cases committed
      exact .stalled
        ⟨plan, middle, performs, .quiet (.refl middle)⟩ _
    · rename_i state lexed
      cases committed
      exact .unlexed order performs lexed rfl
    · rename_i next' keyword state lexed
      cases committed
      exact .lexed order performs lexed rfl

/-- Every way committing to an accepted root can end. -/
inductive CommitRootSpec
    (env : TFRunEnv σ V)
    (self : TFParser σ V)
    (spec : TFSpec)
    (root : Nat)
    (token : TFToken) :
    Bool → TFToken → TFParser σ V → Prop where
  /-- The replay failed, or the root's own reduction did. -/
  | stalled
      {middle : TFParser σ V}
      (stalls : Stalls env.sink env.lang self middle)
      (left : Option TFSpec) :
      CommitRootSpec env self spec root token false
        (self.acceptedEnd spec root)
        (({ middle with spec := left }).outOfMemory token)
  /-- The root's own reduction failed. -/
  | unreduced
      {plan : List Replayed}
      {middle failed : TFParser σ V}
      (left : Option TFSpec)
      (order :
        Postorder spec.tree
          ((spec.tree root).children.dropLast.map .visit) plan)
      (performs : Performs env.sink env.lang plan self middle)
      (reduced :
        middle.reduce env.sink env.lang (spec.tree root).token.symbol
            (spec.tree root).structuralCount
            (spec.tree root).productionId
            (some (self.acceptedEnd spec root)) =
          some (false, failed)) :
      CommitRootSpec env self spec root token false
        (self.acceptedEnd spec root)
        (({ failed with spec := left }).outOfMemory token)
  /-- The root was reduced. -/
  | reduced
      {plan : List Replayed}
      {middle reached : TFParser σ V}
      (left : Option TFSpec)
      (order :
        Postorder spec.tree
          ((spec.tree root).children.dropLast.map .visit) plan)
      (performs : Performs env.sink env.lang plan self middle)
      (reduced :
        middle.reduce env.sink env.lang (spec.tree root).token.symbol
            (spec.tree root).structuralCount
            (spec.tree root).productionId
            (some (self.acceptedEnd spec root)) =
          some (true, reached)) :
      CommitRootSpec env self spec root token true
        (self.acceptedEnd spec root)
        { reached with
          spec := left
          lexer :=
            reached.lexer.seek (self.acceptedEnd spec root).endByte
              (self.acceptedEnd spec root).endPoint }

/-- Committing to an accepted root ends in one of these ways. -/
theorem commitRoot_spec
    {env : TFRunEnv σ V}
    {self after : TFParser σ V}
    {spec : TFSpec}
    {root : Nat}
    {token next : TFToken}
    {well : Bool}
    (committed :
      self.commitRoot env spec root token = some (well, next, after)) :
    CommitRootSpec env self spec root token well next after := by
  unfold commitRoot at committed
  dsimp only at committed
  split at committed
  · cases committed
  · rename_i spec' middle replayed
    cases committed
    obtain ⟨_, _, stopped⟩ := replay_spec replayed
    exact .stalled (stopped rfl) _
  · rename_i spec' middle replayed
    obtain ⟨⟨capacity, same⟩, went, _⟩ := replay_spec replayed
    subst same
    obtain ⟨plan, order, performs⟩ := went rfl
    split at committed
    · cases committed
    · rename_i failed reduced
      cases committed
      exact .unreduced _ order performs reduced
    · rename_i reached reduced
      cases committed
      exact .reduced _ order performs reduced

/-! ## Whole runs -/

namespace Trace

/--
The invariant rule of a trace: what holds of the parser before the root is
emitted, and what holds once it is.
-/
theorem rule
    {sink : TFSink σ V}
    {lang : TFLanguage}
    {first last : TFParser σ V}
    (trace : Trace sink lang first last)
    (invariant finally_ : TFParser σ V → Prop)
    (ready : Ready first)
    (initially : invariant first)
    (quiet :
      ∀ before after,
        invariant before → Quiet before after → invariant after)
    (quietFinally :
      ∀ before after,
        finally_ before → Quiet before after → finally_ after)
    (shift :
      ∀ before after token extra state,
        Ready before → invariant before →
        before.shift sink token extra state = (true, after) →
        invariant after)
    (inner :
      ∀ before after cut symbol childCount productionId,
        Ready before → invariant before →
        popped before.cells childCount = some cut →
        InnerReduction sink lang before cut symbol childCount productionId
          true after →
        invariant after)
    (root :
      ∀ before after cut symbol childCount productionId token,
        Ready before → invariant before →
        popped before.cells childCount = some cut →
        RootReduction sink lang before cut symbol childCount productionId
          token true after →
        finally_ after) :
    (Ready last ∧ invariant last) ∨
      (last.rootEmitted = true ∧ finally_ last) := by
  induction trace with
  | start =>
      exact Or.inl ⟨ready, initially⟩
  | quiet _ same inductionHypothesis =>
      rcases inductionHypothesis with ⟨ready, holds⟩ | ⟨rooted, holds⟩
      · exact Or.inl ⟨ready.quiet same, quiet _ _ holds same⟩
      · exact Or.inr
          ⟨same.rootEmitted.trans rooted, quietFinally _ _ holds same⟩
  | shift _ open_ shifted inductionHypothesis =>
      rcases inductionHypothesis with ⟨ready, holds⟩ | ⟨rooted, _⟩
      · exact Or.inl
          ⟨ready.shift shifted, shift _ _ _ _ _ ready holds shifted⟩
      · rw [open_] at rooted
        cases rooted
  | @reduce before after symbol childCount productionId lookahead _ open_
      reduced inductionHypothesis =>
      rcases inductionHypothesis with ⟨ready, holds⟩ | ⟨rooted, _⟩
      · obtain ⟨cut, cuts, ⟨_, innerReduced⟩ | ⟨token, _, rootReduced⟩⟩ :=
          reduce_cases ready.fits reduced
        · exact Or.inl ⟨ready.inner innerReduced,
            inner _ _ _ _ _ _ ready holds cuts innerReduced⟩
        · exact Or.inr ⟨(Rooted.root rootReduced).emitted,
            root _ _ _ _ _ _ _ ready holds cuts rootReduced⟩
      · rw [open_] at rooted
        cases rooted

end Trace

/-- A parser that got ready by a trace, and then failed. -/
structure FailsAfter
    (sink : TFSink σ V)
    (lang : TFLanguage)
    (first last : TFParser σ V) : Prop where
  failure :
    ∃ before,
      Ready before ∧ Trace sink lang first before ∧
        Fails sink lang before last

/-- A stalled replay is a failure after a trace. -/
theorem Ready.stalls
    {sink : TFSink σ V}
    {lang : TFLanguage}
    {first before after : TFParser σ V}
    (ready : Ready before)
    (trace : Trace sink lang first before)
    (stalls : Stalls sink lang before after) :
    FailsAfter sink lang first after := by
  obtain ⟨plan, middle, performed, fails⟩ := stalls.partly
  obtain ⟨readyMiddle, traces⟩ := ready.performs performed
  exact ⟨middle, readyMiddle, traces first trace, fails⟩

/-- Something quiet after a failure changes nothing. -/
theorem FailsAfter.quiet
    {sink : TFSink σ V}
    {lang : TFLanguage}
    {first failed last : TFParser σ V}
    (fails : FailsAfter sink lang first failed)
    (same : Quiet failed last) :
    FailsAfter sink lang first last := by
  obtain ⟨before, ready, trace, earlier⟩ := fails.failure
  exact ⟨before, ready, trace, earlier.trans same⟩

/-- A hook that captures nothing and leaves the payload alone. -/
def Passive (env : TFRunEnv σ V) : Prop :=
  ∀ cells splitCount token payload heap,
    (env.hook cells splitCount token payload heap).1 = false ∧
      (env.hook cells splitCount token payload heap).2.1 = payload

/-- Taking over what speculation left is quiet. -/
theorem resume_quiet (self : TFParser σ V) (state : TFSpecState) :
    Quiet self (self.resume state) :=
  ⟨rfl, rfl, rfl, rfl, rfl, rfl⟩

/-- What a split without a hook does: a trace, or a failure after one. -/
theorem split_trace
    {env : TFRunEnv σ V}
    (passive : Passive env)
    {first self after : TFParser σ V}
    {token next : TFToken}
    {well : Bool}
    (ready : Ready self)
    (trace : Trace env.sink env.lang first self)
    (ran : self.split env token = some (well, next, after)) :
    (well = true →
      Trace env.sink env.lang first after ∧
        (Ready after ∨
          Rooted env.lang after ∧ next.symbol = tsBuiltinSymEnd)) ∧
      (well = false → FailsAfter env.sink env.lang first after) := by
  have quietAsked :
      ∀ heap, Quiet self (self.opened env token heap) := by
    intro heap
    exact ⟨rfl, rfl, rfl, rfl, (passive _ _ _ _ _).2, rfl⟩
  have failed :
      ∀ last, Quiet self last →
        FailsAfter env.sink env.lang first last :=
    fun last same => ⟨self, ready, trace, .quiet same⟩
  cases split_spec ran with
  | captured =>
      exact ⟨nofun, fun _ => failed _ (quietAsked _)⟩
  | noRoom heap =>
      exact ⟨nofun, fun _ =>
        failed _ ((quietAsked heap).trans ⟨rfl, rfl, rfl, rfl, rfl, rfl⟩)⟩
  | dead heap spec state explored =>
      refine ⟨nofun, fun _ => failed _ ((quietAsked heap).trans ?_)⟩
      unfold failDead
      split <;> exact ⟨rfl, rfl, rfl, rfl, rfl, rfl⟩
  | path heap spec state explored committed =>
      have same :
          Quiet self
            ((self.opened env token heap).resume state) :=
        (quietAsked heap).trans (resume_quiet _ _)
      have traceResumed := trace.quiet same
      have readyResumed := ready.quiet same
      cases commitPath_spec committed with
      | stalled stalls left =>
          exact ⟨nofun, fun _ =>
            (readyResumed.stalls traceResumed stalls).quiet
              ⟨rfl, rfl, rfl, rfl, rfl, rfl⟩⟩
      | unlexed order performs lexed sameAfter =>
          obtain ⟨readyMiddle, traces⟩ := readyResumed.performs performs
          subst sameAfter
          exact ⟨nofun, fun _ =>
            ⟨_, readyMiddle, traces first traceResumed,
              .quiet ⟨rfl, rfl, rfl, rfl, rfl, rfl⟩⟩⟩
      | lexed order performs lexed sameAfter =>
          obtain ⟨readyMiddle, traces⟩ := readyResumed.performs performs
          subst sameAfter
          exact ⟨fun _ =>
            ⟨(traces first traceResumed).quiet (resume_quiet _ _),
              Or.inl (readyMiddle.quiet (resume_quiet _ _))⟩, nofun⟩
  | root heap spec state explored committed =>
      have same :
          Quiet self
            ((self.opened env token heap).resume state) :=
        (quietAsked heap).trans (resume_quiet _ _)
      have traceResumed := trace.quiet same
      have readyResumed := ready.quiet same
      cases commitRoot_spec committed with
      | stalled stalls left =>
          exact ⟨nofun, fun _ =>
            (readyResumed.stalls traceResumed stalls).quiet
              ⟨rfl, rfl, rfl, rfl, rfl, rfl⟩⟩
      | unreduced left order performs reduced =>
          obtain ⟨readyMiddle, traces⟩ := readyResumed.performs performs
          exact ⟨nofun, fun _ =>
            ⟨_, readyMiddle, traces first traceResumed,
              .reduce reduced ⟨rfl, rfl, rfl, rfl, rfl, rfl⟩⟩⟩
      | reduced left order performs reduced =>
          obtain ⟨readyMiddle, traces⟩ := readyResumed.performs performs
          have traceReached :=
            (traces first traceResumed).reduce readyMiddle.open_ reduced
          refine ⟨fun _ =>
            ⟨traceReached.quiet ⟨rfl, rfl, rfl, rfl, rfl, rfl⟩, ?_⟩, nofun⟩
          rcases readyMiddle.reduce reduced with
            readyReached | ⟨rooted, _⟩
          · exact Or.inl
              (readyReached.quiet ⟨rfl, rfl, rfl, rfl, rfl, rfl⟩)
          · exact Or.inr ⟨⟨rooted.emitted, rooted.accepts⟩, rfl⟩

/-- Where a run can stand. -/
inductive Reached
    (env : TFRunEnv σ V)
    (first : TFParser σ V) :
    TFStep σ V → Prop where
  | lex
      {parser : TFParser σ V}
      (ready : Ready parser)
      (trace : Trace env.sink env.lang first parser) :
      Reached env first (.lex parser)
  | act
      {parser : TFParser σ V}
      {token : TFToken}
      (ready : Ready parser)
      (trace : Trace env.sink env.lang first parser) :
      Reached env first (.act parser token)
  /-- The root has been emitted; the accept action follows. -/
  | rooted
      {parser : TFParser σ V}
      {token : TFToken}
      (rooted : Rooted env.lang parser)
      (isEnd : token.symbol = tsBuiltinSymEnd)
      (trace : Trace env.sink env.lang first parser) :
      Reached env first (.act parser token)
  | accepted
      {parser : TFParser σ V}
      (trace : Trace env.sink env.lang first parser)
      (last : Ready parser ∨ Rooted env.lang parser) :
      Reached env first
        (.stop true (TFStep.acceptedRoot parser) parser)
  | failed
      {root : Option V}
      {parser : TFParser σ V}
      (fails : FailsAfter env.sink env.lang first parser) :
      Reached env first (.stop false root parser)
  | stuck : Reached env first .stuck

/-- Taking the one action of an entry. -/
theorem Reached.action
    {env : TFRunEnv σ V}
    {first parser : TFParser σ V}
    (ready : Ready parser)
    (trace : Trace env.sink env.lang first parser)
    (token : TFToken)
    (action : TSParseAction) :
    Reached env first (TFStep.actionStep env parser token action) := by
  cases action with
  | shift target extra repetition =>
      simp only [TFStep.actionStep]
      rcases shifted :
          parser.shift env.sink token extra
            (if extra then parser.state else target) with
        ⟨placed, after⟩
      cases placed with
      | true =>
          exact .lex (ready.shift shifted)
            (trace.shift ready.open_ shifted)
      | false =>
          exact .failed ⟨parser, ready, trace,
            .shift shifted ⟨rfl, rfl, rfl, rfl, rfl, rfl⟩⟩
  | reduce childCount symbol dynamicPrecedence productionId =>
      simp only [TFStep.actionStep]
      split
      · exact .stuck
      · rename_i reduced well
        have traceAfter := trace.reduce ready.open_ well
        rcases ready.reduce well with
          readyAfter | ⟨rooted, found, same, isEnd⟩
        · exact .act readyAfter traceAfter
        · cases same
          exact .rooted rooted isEnd traceAfter
      · rename_i failed bad
        exact .failed ⟨parser, ready, trace,
          .reduce bad ⟨rfl, rfl, rfl, rfl, rfl, rfl⟩⟩
  | accept =>
      exact .accepted trace (Or.inl ready)
  | recover =>
      exact .failed ⟨parser, ready, trace,
        .quiet ⟨rfl, rfl, rfl, rfl, rfl, rfl⟩⟩

/-- One step of the main loop. -/
theorem Reached.step
    {env : TFRunEnv σ V}
    (loaded : env.lang.Loaded)
    (passive : Passive env)
    {first : TFParser σ V}
    {current : TFStep σ V}
    (reached : Reached env first current) :
    Reached env first (TFStep.step env current) := by
  cases reached with
  | @lex parser ready trace =>
      have same : ∀ lexer, Quiet parser { parser with lexer := lexer } :=
        fun lexer => ⟨rfl, rfl, rfl, rfl, rfl, rfl⟩
      simp only [TFStep.step, TFStep.lexStep]
      split
      · exact .act (ready.quiet (same _)) (trace.quiet (same _))
      · exact .failed ⟨parser, ready, trace,
          .quiet ⟨rfl, rfl, rfl, rfl, rfl, rfl⟩⟩
  | @act parser token ready trace =>
      simp only [TFStep.step, TFStep.actStep]
      split
      · split
        · exact .act ready trace
        · exact .failed ⟨parser, ready, trace,
            .quiet ⟨rfl, rfl, rfl, rfl, rfl, rfl⟩⟩
      · exact .action ready trace token _
      · split
        · exact .stuck
        · rename_i next after ran
          obtain ⟨traceAfter, readyOrRooted⟩ :=
            (split_trace passive ready trace ran).1 rfl
          rcases readyOrRooted with readyAfter | ⟨rooted, isEnd⟩
          · exact .act readyAfter traceAfter
          · exact .rooted rooted isEnd traceAfter
        · rename_i next after ran
          exact .failed ((split_trace passive ready trace ran).2 rfl)
  | @rooted parser token rooted isEnd trace =>
      have accepts := loaded.actions_of_acceptsEnd rooted.accepts
      rw [← isEnd] at accepts
      simp only [TFStep.step, TFStep.actStep, accepts, TFStep.actionStep]
      exact .accepted trace (Or.inr rooted)
  | accepted trace last =>
      exact .accepted trace last
  | failed fails =>
      exact .failed fails
  | stuck =>
      exact .stuck

/-- Any number of steps of the main loop. -/
theorem Reached.steps
    {env : TFRunEnv σ V}
    (loaded : env.lang.Loaded)
    (passive : Passive env)
    {first : TFParser σ V}
    (count : Nat)
    {current : TFStep σ V}
    (reached : Reached env first current) :
    Reached env first (TFStep.steps env count current) := by
  induction count generalizing current with
  | zero =>
      exact reached
  | succ count inductionHypothesis =>
      exact inductionHypothesis (reached.step loaded passive)

/-- A parser whose stack has been allocated. -/
structure Entered
    (source : List UInt8)
    (payload : σ)
    (parser : TFParser σ V) : Prop where
  entered :
    ∃ heap capacity,
      parser =
        { initial source payload heap with
          capacity := capacity }

/-- A run enters the loop with an empty stack, or fails before it. -/
theorem enter_spec
    (source : List UInt8)
    (payload : σ)
    (heap : Heap) :
    (∃ first : TFParser σ V,
      enter source payload heap = .lex first ∧
        Entered source payload first) ∨
      ∃ failed : TFParser σ V,
        enter source payload heap = .stop false none failed ∧
          failed.cells = [] ∧
          failed.payload = payload ∧
          (failed.events = [] ∨
            failed.events = [.growthFailed false]) := by
  unfold enter
  dsimp only
  split
  · exact Or.inr ⟨_, rfl, rfl, rfl, Or.inl rfl⟩
  · rcases (initial source payload heap : TFParser σ V).grow_cases 64 false with
      ⟨heap', capacity, _, _, grown⟩ | ⟨heap', _, grown⟩
    · rw [grown]
      exact Or.inl ⟨_, rfl, heap', capacity, rfl⟩
    · rw [grown]
      exact Or.inr ⟨_, rfl, rfl, rfl, Or.inr rfl⟩

/-- A parser that has entered the loop is ready. -/
theorem Entered.ready
    {source : List UInt8}
    {payload : σ}
    {parser : TFParser σ V}
    (entered : Entered source payload parser) :
    Ready parser := by
  obtain ⟨heap, capacity, rfl⟩ := entered.entered
  exact ⟨rfl, Nat.zero_le _⟩

/-- A run that has stopped stays where it is. -/
theorem steps_stop
    (env : TFRunEnv σ V)
    (count : Nat)
    (ok : Bool)
    (root : Option V)
    (parser : TFParser σ V) :
    TFStep.steps env count (.stop ok root parser) =
      .stop ok root parser := by
  induction count with
  | zero =>
      rfl
  | succ count inductionHypothesis =>
      exact inductionHypothesis

/-- The parser at which a run takes the accept action. -/
def AcceptsAt
    (env : TFRunEnv σ V)
    (source : List UInt8)
    (payload : σ)
    (heap : Heap)
    (parser : TFParser σ V) : Prop :=
  ∃ (count : Nat) (token : TFToken),
    TFStep.steps env count (enter source payload heap) =
        .act parser token ∧
      env.lang.actions parser.state token.symbol = [.accept]

/-- Only the accept action stops a run well. -/
theorem step_accepts
    {env : TFRunEnv σ V}
    {current : TFStep σ V}
    {root : Option V}
    {parser : TFParser σ V}
    (stepped : TFStep.step env current = .stop true root parser) :
    current = .stop true root parser ∨
      ∃ token,
        current = .act parser token ∧
          env.lang.actions parser.state token.symbol = [.accept] := by
  cases current with
  | lex before =>
      simp only [TFStep.step, TFStep.lexStep] at stepped
      split at stepped <;> cases stepped
  | act before token =>
      simp only [TFStep.step, TFStep.actStep] at stepped
      split at stepped
      · split at stepped <;> cases stepped
      · rename_i action entry
        cases action with
        | shift target extra repetition =>
            simp only [TFStep.actionStep] at stepped
            generalize (if extra = true then before.state else target) = into
              at stepped
            split at stepped <;> cases stepped
        | reduce childCount symbol precedence productionId =>
            simp only [TFStep.actionStep] at stepped
            split at stepped <;> cases stepped
        | accept =>
            cases stepped
            exact Or.inr ⟨token, rfl, entry⟩
        | recover =>
            cases stepped
      · split at stepped <;> cases stepped
  | stop ok other before =>
      exact Or.inl stepped
  | stuck =>
      cases stepped

/-- A run that stops well has taken the accept action. -/
theorem steps_accept
    {env : TFRunEnv σ V}
    {count : Nat}
    {current : TFStep σ V}
    {root : Option V}
    {parser : TFParser σ V}
    (ran : TFStep.steps env count current = .stop true root parser) :
    current = .stop true root parser ∨
      ∃ earlier token,
        TFStep.steps env earlier current = .act parser token ∧
          env.lang.actions parser.state token.symbol = [.accept] := by
  induction count generalizing current with
  | zero =>
      exact Or.inl ran
  | succ count inductionHypothesis =>
      rcases inductionHypothesis ran with
        stepped | ⟨earlier, token, acting, accepts⟩
      · rcases step_accepts stepped with same | ⟨token, isActing, accepts⟩
        · exact Or.inl same
        · exact Or.inr ⟨0, token, isActing, accepts⟩
      · exact Or.inr ⟨earlier + 1, token, acting, accepts⟩

/-- Steps follow on steps. -/
theorem steps_add
    (env : TFRunEnv σ V)
    (first second : Nat)
    (current : TFStep σ V) :
    TFStep.steps env (first + second) current =
      TFStep.steps env second (TFStep.steps env first current) := by
  induction first generalizing current with
  | zero =>
      rw [Nat.zero_add]
      rfl
  | succ first inductionHypothesis =>
      rw [Nat.succ_add]
      exact inductionHypothesis _

/-- A run takes the accept action at the parser it goes through with. -/
theorem acceptsAt_iff
    {env : TFRunEnv σ V}
    {source : List UInt8}
    {payload : σ}
    {heap : Heap}
    {result : TFResult σ V}
    (ran : run env source payload heap = some result)
    {parser : TFParser σ V} :
    AcceptsAt env source payload heap parser ↔
      result.ok = true ∧ result.parser = parser := by
  unfold run at ran
  constructor
  · rintro ⟨count, token, acting, accepts⟩
    have stops :
        TFStep.steps env (count + 1) (enter source payload heap) =
          .stop true (TFStep.acceptedRoot parser) parser := by
      rw [steps_add, acting]
      simp only [TFStep.steps, TFStep.step, TFStep.actStep, accepts,
        TFStep.actionStep]
    rcases Nat.lt_or_ge count env.fuel with before | after
    · have split : env.fuel = (count + 1) + (env.fuel - (count + 1)) := by
        omega
      rw [split, steps_add, stops, steps_stop] at ran
      cases ran
      exact ⟨rfl, rfl⟩
    · have split : count = env.fuel + (count - env.fuel) := by omega
      rw [split, steps_add] at acting
      cases final : TFStep.steps env env.fuel (enter source payload heap) with
      | stop ok root last =>
          rw [final, steps_stop] at acting
          cases acting
      | lex last =>
          rw [final] at ran
          cases ran
      | act last token =>
          rw [final] at ran
          cases ran
      | stuck =>
          rw [final] at ran
          cases ran
  · rintro ⟨ok, rfl⟩
    unfold finish at ran
    split at ran
    · rename_i root last final
      cases ran
      rcases steps_accept final with same | ⟨count, token, acting, accepts⟩
      · rcases enter_spec source payload heap with
          ⟨first, enters, _⟩ | ⟨failed, enters, _⟩
        · rw [enters] at same
          cases same
        · rw [enters] at same
          cases same
      · exact ⟨count, token, acting, accepts⟩
    · cases ran
      cases ok
    · cases ran

/-- How a run can end. -/
inductive RunSpec
    (env : TFRunEnv σ V)
    (source : List UInt8)
    (payload : σ)
    (result : TFResult σ V) : Prop where
  /-- It failed before the loop. -/
  | unentered
      (notOk : result.ok = false)
      (noCells : result.parser.cells = [])
      (untouched : result.parser.payload = payload)
      (noCalls :
        result.parser.events = [] ∨
          result.parser.events = [.growthFailed false])
  /-- It went through. -/
  | accepted
      {first : TFParser σ V}
      (entered : Entered source payload first)
      (ok : result.ok = true)
      (trace : Trace env.sink env.lang first result.parser)
      (last : Ready result.parser ∨ Rooted env.lang result.parser)
      (root : result.root = TFStep.acceptedRoot result.parser)
  /-- It failed in the loop. -/
  | failed
      {first last : TFParser σ V}
      (entered : Entered source payload first)
      (notOk : result.ok = false)
      (fails : FailsAfter env.sink env.lang first last)
      (discarded : result.parser = last.discardAll env.sink)

/-- A run ends in one of these ways. -/
theorem run_spec
    {env : TFRunEnv σ V}
    (loaded : env.lang.Loaded)
    (passive : Passive env)
    {source : List UInt8}
    {payload : σ}
    {heap : Heap}
    {result : TFResult σ V}
    (ran : run env source payload heap = some result) :
    RunSpec env source payload result := by
  unfold run at ran
  rcases enter_spec source payload heap with
    ⟨first, enters, entered⟩ |
      ⟨failed, enters, noCells, untouched, noCalls⟩
  · rw [enters] at ran
    have reached :=
      (Reached.lex entered.ready .start).steps loaded passive env.fuel
    generalize
      TFStep.steps env env.fuel (.lex first) = final at ran reached
    cases reached with
    | lex ready trace =>
        cases ran
    | act ready trace =>
        cases ran
    | rooted rooted isEnd trace =>
        cases ran
    | accepted trace last =>
        cases ran
        exact .accepted entered rfl trace last rfl
    | failed fails =>
        cases ran
        exact .failed entered rfl fails rfl
    | stuck =>
        cases ran
  · rw [enters, steps_stop] at ran
    have same : failed.discardAll env.sink = failed := by
      unfold discardAll
      split
      · rfl
      · rw [noCells]
        rfl
    simp only [finish, same, Option.some.injEq] at ran
    subst ran
    exact .unentered rfl noCells untouched noCalls

end TFParser

end TreeFeller
