import TreeFeller.Sinks

namespace TreeFeller

open StatefulProgram

/-!
# Whole runs over two sinks

Replays, splits and the main loop, over two sinks in step.  Speculation reads
no value, so both runs explore the same graph and select the same alternative.
-/

namespace TFParser

variable {σ σ' V V' : Type}

/-- Two environments that differ in their sinks only, which are in step. -/
structure SinksDiffer
    (alike : Heap → Heap → Prop)
    (env : TFRunEnv σ V)
    (env' : TFRunEnv σ' V')
    (together : RawStack σ V → RawStack σ' V' → Prop)
    (parted : σ → σ' → Prop)
    (rooted : Option V → σ → Option V' → σ' → Prop) : Prop where
  lang : env.lang = env'.lang
  materialize : env.materialize = env'.materialize
  fuel : env.fuel = env'.fuel
  bisimulation : Heap.Bisimulation alike
  recovers :
    Program.Respects (TFSpecState.Alike alike) env.materialize
  inStep : InStep alike env.sink env'.sink together parted rooted
  hook :
    ∀ {stack stack'} splitCount token,
      together stack stack' → alike stack.heap stack'.heap →
        stack.cells.map TFCell.forget = stack'.cells.map TFCell.forget →
          let hooked :=
            env.hook stack.cells splitCount token stack.payload stack.heap
          let hooked' :=
            env'.hook stack'.cells splitCount token stack'.payload
              stack'.heap
          hooked.1 = hooked'.1 ∧ alike hooked.2.2 hooked'.2.2 ∧
            together ⟨stack.cells, hooked.2.1, hooked.2.2⟩
              ⟨stack'.cells, hooked'.2.1, hooked'.2.2⟩

/-- The same step of a replay on both sides. -/
inductive SameReplayStep
    (went failed : TFParser σ V → TFParser σ' V' → Prop) :
    TFReplayStep σ V → TFReplayStep σ' V' → Prop where
  | next
      {first : TFParser σ V}
      {second : TFParser σ' V'}
      (items : List TFReplayItem)
      (related : went first second) :
      SameReplayStep went failed (.next first items) (.next second items)
  | failed
      {first : TFParser σ V}
      {second : TFParser σ' V'}
      (related : failed first second) :
      SameReplayStep went failed (.failed first) (.failed second)
  | stuck : SameReplayStep went failed .stuck .stuck

/-- The same graph after a replay, and the same outcome. -/
structure SameReplay
    (went failed : TFParser σ V → TFParser σ' V' → Prop)
    (replayed : Bool × TFSpec × TFParser σ V)
    (replayed' : Bool × TFSpec × TFParser σ' V') : Prop where
  spec : replayed.2.1 = replayed'.2.1
  outcome :
    SameOutcome went failed (replayed.1, replayed.2.2)
      (replayed'.1, replayed'.2.2)

/-- The same token after a split, and the same outcome. -/
structure SameTurn
    (lang : TFLanguage)
    (alike : Heap → Heap → Prop)
    (together : RawStack σ V → RawStack σ' V' → Prop)
    (parted : σ → σ' → Prop)
    (rooted : Option V → σ → Option V' → σ' → Prop)
    (turn : Bool × TFToken × TFParser σ V)
    (turn' : Bool × TFToken × TFParser σ' V') : Prop where
  token : turn.2.1 = turn'.2.1
  outcome :
    SameOutcome
      (SameReduced lang alike together rooted (some turn.2.1))
      (Stranded alike parted) (turn.1, turn.2.2) (turn'.1, turn'.2.2)

section Runs

variable {alike : Heap → Heap → Prop}
variable {env : TFRunEnv σ V}
variable {env' : TFRunEnv σ' V'}
variable {together : RawStack σ V → RawStack σ' V' → Prop}
variable {parted : σ → σ' → Prop}
variable {rooted : Option V → σ → Option V' → σ' → Prop}
variable {first : TFParser σ V}
variable {second : TFParser σ' V'}
variable
  (differ : SinksDiffer alike env env' together parted rooted)

/-- Speculation is given the same on both sides. -/
theorem SinksDiffer.spec
    (differ : SinksDiffer alike env env' together parted rooted) :
    env.spec = env'.spec := by
  unfold TFRunEnv.spec
  rw [differ.lang, differ.materialize, differ.fuel]

/-- Twins whose cells and payloads are those of others stay abreast. -/
theorem SinksDiffer.abreast
    (differ : SinksDiffer alike env env' together parted rooted)
    {before : TFParser σ V}
    {before' : TFParser σ' V'}
    (abreast : Abreast alike together before before')
    (twins : Twins alike first second)
    (cells : first.cells = before.cells)
    (cells' : second.cells = before'.cells)
    (payload : first.payload = before.payload)
    (payload' : second.payload = before'.payload)
    (emitted : first.rootEmitted = before.rootEmitted) :
    Abreast alike together first second := by
  refine ⟨twins, ?_, emitted.trans abreast.open_⟩
  unfold stack
  rw [cells, cells', payload, payload']
  exact differ.inStep.allocated abreast.together twins.heap

/-- Stranded twins run out of memory alike. -/
theorem Stranded.outOfMemory
    (stranded : Stranded alike parted first second)
    (spec : TFSpec)
    (token : TFToken) :
    Stranded alike parted
      ({ first with spec := some spec }.outOfMemory token)
      ({ second with spec := some spec }.outOfMemory token) where
  twins := { stranded.twins with spec := rfl, error := rfl }
  parted := stranded.parted

include differ

/-- Both reserve room for a replay. -/
theorem Abreast.reserveScratch
    (abreast : Abreast alike together first second)
    (spec : TFSpec)
    (needed : Nat) :
    Option.Rel
      (fun reserved reserved' =>
        reserved.1 = reserved'.1 ∧
          Abreast alike together reserved.2 reserved'.2)
      (first.reserveScratch spec needed)
      (second.reserveScratch spec needed) := by
  have twins := abreast.twins
  have respects :=
    (TFSpec.judgment_respects differ.bisimulation).reserve .scratch needed
  have agree :=
    respects ⟨spec, first.lexer, first.heap⟩
      ⟨spec, second.lexer, second.heap⟩ ⟨rfl, twins.lexer, twins.heap⟩
  unfold TFParser.reserveScratch
  generalize
    TFSpec.reserve .scratch needed ⟨spec, first.lexer, first.heap⟩ =
      outcome at agree
  generalize
    TFSpec.reserve .scratch needed ⟨spec, second.lexer, second.heap⟩ =
      outcome' at agree
  cases agree with
  | stopped error =>
      exact .none
  | returned value same =>
      exact .some ⟨same.spec,
        differ.abreast abreast { twins with heap := same.heap } rfl rfl rfl
          rfl rfl⟩

/-- Both replay an item. -/
theorem Abreast.replayItem
    (abreast : Abreast alike together first second)
    (spec : TFSpec)
    (rest : List TFReplayItem)
    (item : TFReplayItem) :
    (first.replayItem env spec rest item).1 =
        (second.replayItem env' spec rest item).1 ∧
      SameReplayStep (Abreast alike together) (Stranded alike parted)
        (first.replayItem env spec rest item).2
        (second.replayItem env' spec rest item).2 := by
  cases item with
  | reduce index =>
      have reduced :=
        abreast.reduce differ.bisimulation differ.inStep env.lang
          (spec.tree index).token.symbol (spec.tree index).structuralCount
          (spec.tree index).productionId none
      simp only [TFParser.replayItem, ← differ.lang]
      generalize
        first.reduce env.sink env.lang (spec.tree index).token.symbol
          (spec.tree index).structuralCount (spec.tree index).productionId
          none = outcome at reduced
      generalize
        second.reduce env'.sink env.lang (spec.tree index).token.symbol
          (spec.tree index).structuralCount (spec.tree index).productionId
          none = outcome' at reduced
      cases reduced with
      | none =>
          exact ⟨rfl, .stuck⟩
      | some same =>
          cases same with
          | went related =>
              cases related with
              | inner abreast =>
                  exact ⟨rfl, .next rest abreast⟩
              | root crowned known isEnd =>
                  cases known
          | failed related =>
              exact ⟨rfl, .failed related⟩
  | visit index =>
      simp only [TFParser.replayItem]
      split
      · exact ⟨rfl, .next rest abreast⟩
      · split
        · have states :
              first.leafState env.lang (spec.tree index) =
                second.leafState env'.lang (spec.tree index) := by
            unfold leafState
            rw [abreast.twins.state, differ.lang]
          rw [states]
          have shifted :=
            abreast.shift differ.bisimulation differ.inStep
              (spec.tree index).token (spec.tree index).extra
              (second.leafState env'.lang (spec.tree index))
          generalize
            first.shift env.sink (spec.tree index).token
              (spec.tree index).extra
              (second.leafState env'.lang (spec.tree index)) =
                outcome at shifted
          generalize
            second.shift env'.sink (spec.tree index).token
              (spec.tree index).extra
              (second.leafState env'.lang (spec.tree index)) =
                outcome' at shifted
          cases shifted with
          | went related =>
              exact ⟨rfl, .next rest related⟩
          | failed related =>
              exact ⟨rfl, .failed related⟩
        · split
          · exact ⟨rfl, .next _ abreast⟩
          · have reserved :=
              abreast.reserveScratch differ spec
                (rest.length + (spec.tree index).children.length)
            generalize
              first.reserveScratch spec
                (rest.length + (spec.tree index).children.length) =
                  outcome at reserved
            generalize
              second.reserveScratch spec
                (rest.length + (spec.tree index).children.length) =
                  outcome' at reserved
            cases reserved with
            | none =>
                exact ⟨rfl, .failed
                  ⟨abreast.twins, differ.inStep.parts abreast.together⟩⟩
            | some same =>
                exact ⟨same.1, .next _ same.2⟩

/-- Both replay the items on the stack. -/
theorem Abreast.replayItems
    (fuel : Nat)
    (abreast : Abreast alike together first second)
    (spec : TFSpec)
    (items : List TFReplayItem) :
    Option.Rel
      (SameReplay (Abreast alike together) (Stranded alike parted))
      (replayItems env fuel first spec items)
      (replayItems env' fuel second spec items) := by
  induction fuel generalizing first second spec items with
  | zero =>
      exact .none
  | succ fuel inductionHypothesis =>
      cases items with
      | nil =>
          exact .some ⟨rfl, .went abreast⟩
      | cons item rest =>
          obtain ⟨specs, steps⟩ := abreast.replayItem differ spec rest item
          simp only [TFParser.replayItems]
          generalize first.replayItem env spec rest item = step
            at specs steps
          generalize second.replayItem env' spec rest item = step'
            at specs steps
          rcases step with ⟨spec₁, step⟩
          rcases step' with ⟨spec₂, step'⟩
          cases specs
          cases steps with
          | next items related =>
              exact inductionHypothesis related spec₁ items
          | failed related =>
              exact .some ⟨rfl, .failed related⟩
          | stuck =>
              exact .none

/-- Both replay a forest. -/
theorem Abreast.replay
    (abreast : Abreast alike together first second)
    (spec : TFSpec)
    (forest : List Nat) :
    Option.Rel
      (SameReplay (Abreast alike together) (Stranded alike parted))
      (first.replay env spec forest) (second.replay env' spec forest) := by
  have reserved := abreast.reserveScratch differ spec forest.length
  unfold TFParser.replay
  generalize first.reserveScratch spec forest.length = outcome at reserved
  generalize second.reserveScratch spec forest.length = outcome'
    at reserved
  cases reserved with
  | none =>
      exact .some ⟨rfl, .failed
        ⟨abreast.twins, differ.inStep.parts abreast.together⟩⟩
  | @some reserved reserved' same =>
      rcases reserved with ⟨spec₁, parser₁⟩
      rcases reserved' with ⟨spec₂, parser₂⟩
      obtain ⟨specs, abreast⟩ := same
      cases specs
      rw [← differ.fuel]
      exact abreast.replayItems differ env.fuel spec₁ _

omit differ in
/-- Twins fail alike. -/
theorem Twins.fail
    (twins : Twins alike first second)
    (byte : Nat)
    (point : TFPoint)
    (message : TFMessage) :
    Twins alike (first.fail byte point message)
      (second.fail byte point message) :=
  { twins with error := rfl }

omit differ in
/-- Twins take the same over from speculation. -/
theorem Twins.resume
    (twins : Twins alike first second)
    {state state' : TFSpecState}
    (same : TFSpecState.Alike alike state state') :
    Twins alike (first.resume state) (second.resume state') :=
  { twins with
    lexer := same.lexer
    heap := same.heap
    spec := congrArg some same.spec }

/-- Both replay the one stack that is left, and lex what follows it. -/
theorem Abreast.commitPath
    (abreast : Abreast alike together first second)
    (spec : TFSpec)
    (forest : List Nat)
    (top : Nat)
    (token : TFToken) :
    Option.Rel
      (SameTurn env.lang alike together parted rooted)
      (first.commitPath env spec forest top token)
      (second.commitPath env' spec forest top token) := by
  have replayed := abreast.replay differ spec forest
  unfold TFParser.commitPath
  generalize first.replay env spec forest = outcome at replayed
  generalize second.replay env' spec forest = outcome' at replayed
  cases replayed with
  | none =>
      exact .none
  | @some replay replay' same =>
      rcases replay with ⟨well, spec₁, parser⟩
      rcases replay' with ⟨well', spec₂, parser'⟩
      obtain ⟨specs, outcome⟩ := same
      cases specs
      cases outcome with
      | failed related =>
          exact .some ⟨rfl, .failed (related.outOfMemory spec₁ token)⟩
      | went related =>
          have twins := related.twins
          have respects :
              Program.Respects (TFSpecState.Alike alike)
                (TFSpec.lex env.spec top) :=
            (TFSpec.judgment_respects differ.bisimulation).lex top
          have agree :=
            respects ⟨spec₁, parser.lexer, parser.heap⟩
              ⟨spec₁, parser'.lexer, parser'.heap⟩
              ⟨rfl, twins.lexer, twins.heap⟩
          have stranded : Stranded alike parted parser parser' :=
            ⟨twins, differ.inStep.parts related.together⟩
          dsimp only
          rw [← differ.spec]
          generalize
            TFSpec.lex env.spec top ⟨spec₁, parser.lexer, parser.heap⟩ =
              lexed at agree
          generalize
            TFSpec.lex env.spec top ⟨spec₁, parser'.lexer, parser'.heap⟩ =
              lexed' at agree
          cases agree with
          | stopped error =>
              cases error with
              | stuck =>
                  exact .none
              | outOfMemory =>
                  exact .some
                    ⟨rfl, .failed (stranded.outOfMemory spec₁ token)⟩
          | @returned value after after' same =>
              cases value with
              | none =>
                  refine .some ⟨rfl, .failed ?_⟩
                  dsimp only
                  rw [same.spec]
                  exact ⟨(twins.resume same).fail _ _ _,
                    differ.inStep.parts related.together⟩
              | some found =>
                  refine .some ⟨rfl, .went (.inner ?_)⟩
                  refine differ.abreast related (twins.resume ?_) rfl rfl
                    rfl rfl rfl
                  refine ⟨same.spec, ?_, same.heap⟩
                  dsimp only
                  rw [same.lexer, same.spec]

/-- Both replay an accepted root. -/
theorem Abreast.commitRoot
    (abreast : Abreast alike together first second)
    (spec : TFSpec)
    (root : Nat)
    (token : TFToken) :
    Option.Rel
      (SameTurn env.lang alike together parted rooted)
      (first.commitRoot env spec root token)
      (second.commitRoot env' spec root token) := by
  have ends :
      second.acceptedEnd spec root = first.acceptedEnd spec root := by
    unfold acceptedEnd
    rw [abreast.twins.lexer]
  have replayed :=
    abreast.replay differ spec (spec.tree root).children.dropLast
  unfold TFParser.commitRoot
  rw [ends]
  dsimp only
  generalize
    first.replay env spec (spec.tree root).children.dropLast = outcome
      at replayed
  generalize
    second.replay env' spec (spec.tree root).children.dropLast = outcome'
      at replayed
  cases replayed with
  | none =>
      exact .none
  | @some replay replay' same =>
      rcases replay with ⟨well, spec₁, parser⟩
      rcases replay' with ⟨well', spec₂, parser'⟩
      obtain ⟨specs, outcome⟩ := same
      cases specs
      cases outcome with
      | failed related =>
          exact .some ⟨rfl, .failed (related.outOfMemory spec₁ token)⟩
      | went related =>
          have reduced :=
            related.reduce differ.bisimulation differ.inStep env.lang
              (spec₁.tree root).token.symbol
              (spec₁.tree root).structuralCount
              (spec₁.tree root).productionId
              (some (first.acceptedEnd spec root))
          dsimp only
          rw [← differ.lang]
          generalize
            parser.reduce env.sink env.lang (spec₁.tree root).token.symbol
              (spec₁.tree root).structuralCount
              (spec₁.tree root).productionId
              (some (first.acceptedEnd spec root)) = outcome at reduced
          generalize
            parser'.reduce env'.sink env.lang
              (spec₁.tree root).token.symbol
              (spec₁.tree root).structuralCount
              (spec₁.tree root).productionId
              (some (first.acceptedEnd spec root)) = outcome' at reduced
          cases reduced with
          | none =>
              exact .none
          | some same =>
              cases same with
              | failed related =>
                  exact .some
                    ⟨rfl, .failed (related.outOfMemory spec₁ token)⟩
              | @went after after' related =>
                  refine .some ⟨rfl, .went ?_⟩
                  cases related with
                  | inner abreast =>
                      refine .inner (differ.abreast abreast
                        { abreast.twins with spec := rfl, lexer := ?_ }
                        rfl rfl rfl rfl rfl)
                      dsimp only
                      rw [abreast.twins.lexer]
                  | root crowned known isEnd =>
                      refine .root
                        ⟨{ crowned.twins with spec := rfl, lexer := ?_ },
                          ⟨crowned.emitted.emitted,
                            crowned.emitted.accepts⟩,
                          crowned.rooted⟩ known isEnd
                      dsimp only
                      rw [crowned.twins.lexer]

/-- Both find a graph to work on, or no room for one. -/
theorem Abreast.ownSpec
    (abreast : Abreast alike together first second) :
    first.ownSpec.1 = second.ownSpec.1 ∧
      Abreast alike together first.ownSpec.2 second.ownSpec.2 := by
  have twins := abreast.twins
  have answers := differ.bisimulation.answers twins.heap
  have after := differ.bisimulation.after twins.heap
  have asked (spec : Option TFSpec) :
      Abreast alike together
        { first with heap := first.heap.allocate.2, spec := spec }
        { second with heap := second.heap.allocate.2, spec := spec } :=
    differ.abreast abreast { twins with heap := after, spec := rfl } rfl rfl
      rfl rfl rfl
  unfold TFParser.ownSpec
  rw [← twins.spec]
  cases first.spec with
  | some spec =>
      exact ⟨rfl, abreast⟩
  | none =>
      dsimp only
      rw [answers]
      split
      · exact ⟨rfl, asked none⟩
      · exact ⟨rfl, asked none⟩

/-- Both replay what the same exploration selects. -/
theorem Abreast.explored
    (abreast : Abreast alike together first second)
    (spec : TFSpec)
    (token : TFToken) :
    Option.Rel
      (SameTurn env.lang alike together parted rooted)
      (match TFSpec.explore env.spec (first.splitState spec token) with
        | .error .stuck => none
        | .error .outOfMemory =>
            some (false, token, first.outOfMemory token)
        | .ok (.dead, state) =>
            some (false, token,
              (first.resume state).failDead env.lang state.spec)
        | .ok (.path forest top, state) =>
            (first.resume state).commitPath env state.spec forest top token
        | .ok (.accepted root, state) =>
            (first.resume state).commitRoot env state.spec root token)
      (match TFSpec.explore env'.spec (second.splitState spec token) with
        | .error .stuck => none
        | .error .outOfMemory =>
            some (false, token, second.outOfMemory token)
        | .ok (.dead, state) =>
            some (false, token,
              (second.resume state).failDead env'.lang state.spec)
        | .ok (.path forest top, state) =>
            (second.resume state).commitPath env' state.spec forest top
              token
        | .ok (.accepted root, state) =>
            (second.resume state).commitRoot env' state.spec root
              token) := by
  have twins := abreast.twins
  have owners : first.owner = second.owner := by
    unfold owner
    rw [twins.cells, twins.splitCount]
  have begun :
      TFSpecState.Alike alike (first.splitState spec token)
        (second.splitState spec token) := by
    refine ⟨?_, twins.lexer, twins.heap⟩
    unfold splitState
    dsimp only
    rw [owners, twins.lexer]
  have respects :
      Program.Respects (TFSpecState.Alike alike)
        (TFSpec.explore env.spec) :=
    (TFSpec.judgment_respects differ.bisimulation).explore differ.recovers
  have agree := respects _ _ begun
  rw [← differ.spec, ← differ.lang]
  generalize
    TFSpec.explore env.spec (first.splitState spec token) = explored
      at agree
  generalize
    TFSpec.explore env.spec (second.splitState spec token) = explored'
      at agree
  cases agree with
  | stopped error =>
      cases error with
      | stuck =>
          exact .none
      | outOfMemory =>
          exact .some ⟨rfl, .failed ⟨twins.fail _ _ _,
            differ.inStep.parts abreast.together⟩⟩
  | @returned selection after after' same =>
      have resumed := twins.resume same
      have abreast' :
          Abreast alike together (first.resume after)
            (second.resume after') :=
        differ.abreast abreast resumed rfl rfl rfl rfl rfl
      cases selection with
      | dead =>
          dsimp only
          rw [same.spec]
          unfold failDead
          split
          · exact .some ⟨rfl, .failed ⟨resumed.fail _ _ _,
              differ.inStep.parts abreast'.together⟩⟩
          · exact .some ⟨rfl, .failed ⟨{ resumed with error := rfl },
              differ.inStep.parts abreast'.together⟩⟩
      | path forest top =>
          dsimp only
          rw [same.spec]
          exact abreast'.commitPath differ after'.spec forest top token
      | accepted root =>
          dsimp only
          rw [same.spec]
          exact abreast'.commitRoot differ after'.spec root token

/-- Both work a conflict out, and to the same end. -/
theorem Abreast.split
    (abreast : Abreast alike together first second)
    (token : TFToken) :
    Option.Rel
      (SameTurn env.lang alike together parted rooted)
      (first.split env token) (second.split env' token) := by
  have twins := abreast.twins
  obtain ⟨answers, heaps, together_⟩ :=
    differ.hook (first.splitCount + 1) token abreast.together twins.heap
      twins.cells
  have counts : first.splitCount + 1 = second.splitCount + 1 := by
    rw [twins.splitCount]
  unfold TFParser.split
  dsimp only
  rw [← counts]
  dsimp only [stack] at answers heaps together_
  generalize
    env.hook first.cells (first.splitCount + 1) token first.payload
      first.heap = hooked at answers heaps together_
  generalize
    env'.hook second.cells (first.splitCount + 1) token second.payload
      second.heap = hooked' at answers heaps together_
  have asked :
      Abreast alike together
        { first with
          splitCount := first.splitCount + 1
          payload := hooked.2.1
          heap := hooked.2.2 }
        { second with
          splitCount := first.splitCount + 1
          payload := hooked'.2.1
          heap := hooked'.2.2 } :=
    ⟨{ twins with splitCount := rfl, heap := heaps }, together_,
      abreast.open_⟩
  rw [← answers]
  split
  · exact .some ⟨rfl, .failed
      ⟨asked.twins, differ.inStep.parts asked.together⟩⟩
  · obtain ⟨graphs, owned⟩ := asked.ownSpec differ
    generalize
      TFParser.ownSpec
        { first with
          splitCount := first.splitCount + 1
          payload := hooked.2.1
          heap := hooked.2.2 } = own at graphs owned
    generalize
      TFParser.ownSpec
        { second with
          splitCount := first.splitCount + 1
          payload := hooked'.2.1
          heap := hooked'.2.2 } = own' at graphs owned
    rcases own with ⟨graph, parser⟩
    rcases own' with ⟨graph', parser'⟩
    dsimp only at graphs owned ⊢
    cases graphs
    cases graph with
    | none =>
        exact .some ⟨rfl, .failed ⟨owned.twins.fail _ _ _,
          differ.inStep.parts owned.together⟩⟩
    | some spec =>
        exact owned.explored differ spec token

/-- The same step of the main loop on both sides. -/
inductive SameStep
    (lang : TFLanguage)
    (alike : Heap → Heap → Prop)
    (together : RawStack σ V → RawStack σ' V' → Prop)
    (parted : σ → σ' → Prop)
    (rooted : Option V → σ → Option V' → σ' → Prop) :
    TFStep σ V → TFStep σ' V' → Prop where
  | lex
      {first : TFParser σ V}
      {second : TFParser σ' V'}
      (abreast : Abreast alike together first second) :
      SameStep lang alike together parted rooted (.lex first) (.lex second)
  | act
      {first : TFParser σ V}
      {second : TFParser σ' V'}
      (token : TFToken)
      (abreast : Abreast alike together first second) :
      SameStep lang alike together parted rooted (.act first token)
        (.act second token)
  /-- The root has been reported; the accept action follows. -/
  | crowned
      {first : TFParser σ V}
      {second : TFParser σ' V'}
      {token : TFToken}
      (crowned : Crowned lang alike rooted first second)
      (isEnd : token.symbol = tsBuiltinSymEnd) :
      SameStep lang alike together parted rooted (.act first token)
        (.act second token)
  | accepted
      {first : TFParser σ V}
      {second : TFParser σ' V'}
      (abreast : Abreast alike together first second) :
      SameStep lang alike together parted rooted
        (.stop true (TFStep.acceptedRoot first) first)
        (.stop true (TFStep.acceptedRoot second) second)
  | reported
      {first : TFParser σ V}
      {second : TFParser σ' V'}
      (crowned : Crowned lang alike rooted first second) :
      SameStep lang alike together parted rooted
        (.stop true (TFStep.acceptedRoot first) first)
        (.stop true (TFStep.acceptedRoot second) second)
  | failed
      {first : TFParser σ V}
      {second : TFParser σ' V'}
      {root : Option V}
      {root' : Option V'}
      (stranded : Stranded alike parted first second) :
      SameStep lang alike together parted rooted (.stop false root first)
        (.stop false root' second)
  | stuck : SameStep lang alike together parted rooted .stuck .stuck

/-- Both take the one action of an entry. -/
theorem Abreast.actionStep
    (abreast : Abreast alike together first second)
    (token : TFToken)
    (action : TSParseAction) :
    SameStep env.lang alike together parted rooted
      (TFStep.actionStep env first token action)
      (TFStep.actionStep env' second token action) := by
  have twins := abreast.twins
  cases action with
  | shift target extra repetition =>
      simp only [TFStep.actionStep, ← twins.state]
      have shifted :=
        abreast.shift differ.bisimulation differ.inStep token extra
          (if extra then first.state else target)
      generalize
        first.shift env.sink token extra
          (if extra then first.state else target) = outcome at shifted
      generalize
        second.shift env'.sink token extra
          (if extra then first.state else target) = outcome' at shifted
      cases shifted with
      | went related =>
          exact .lex related
      | failed related =>
          exact .failed ⟨related.twins.fail _ _ _, related.parted⟩
  | reduce childCount symbol dynamicPrecedence productionId =>
      simp only [TFStep.actionStep, ← differ.lang]
      have reduced :=
        abreast.reduce differ.bisimulation differ.inStep env.lang symbol
          childCount productionId (some token)
      generalize
        first.reduce env.sink env.lang symbol childCount productionId
          (some token) = outcome at reduced
      generalize
        second.reduce env'.sink env.lang symbol childCount productionId
          (some token) = outcome' at reduced
      cases reduced with
      | none =>
          exact .stuck
      | some same =>
          cases same with
          | failed related =>
              exact .failed ⟨related.twins.fail _ _ _, related.parted⟩
          | went related =>
              cases related with
              | inner abreast =>
                  exact .act token abreast
              | root crowned known isEnd =>
                  cases known
                  exact .crowned crowned isEnd
  | accept =>
      exact .accepted abreast
  | recover =>
      simp only [TFStep.actionStep, TFStep.unexpected, ← differ.lang,
        ← twins.state]
      exact .failed ⟨{ twins with error := rfl },
        differ.inStep.parts abreast.together⟩

/-- Both act on a token. -/
theorem Abreast.actStep
    (abreast : Abreast alike together first second)
    (token : TFToken) :
    SameStep env.lang alike together parted rooted
      (TFStep.actStep env first token)
      (TFStep.actStep env' second token) := by
  have twins := abreast.twins
  have splits := abreast.split differ token
  simp only [TFStep.actStep, ← differ.lang, ← twins.state, ← twins.lexer]
  split
  · split
    · exact .act _ abreast
    · simp only [TFStep.unexpected, ← differ.lang, ← twins.state]
      exact .failed ⟨{ twins with error := rfl },
        differ.inStep.parts abreast.together⟩
  · exact abreast.actionStep differ token _
  · generalize first.split env token = turn at splits
    generalize second.split env' token = turn' at splits
    cases splits with
    | none =>
        exact .stuck
    | @some turn turn' same =>
        rcases turn with ⟨well, next, parser⟩
        rcases turn' with ⟨well', next', parser'⟩
        obtain ⟨tokens, outcome⟩ := same
        cases tokens
        cases outcome with
        | failed related =>
            exact .failed related
        | went related =>
            cases related with
            | inner abreast =>
                exact .act next abreast
            | root crowned known isEnd =>
                cases known
                exact .crowned crowned isEnd

/-- One step of the main loop. -/
theorem SameStep.step
    (loaded : env.lang.Loaded)
    {current : TFStep σ V}
    {current' : TFStep σ' V'}
    (same :
      SameStep env.lang alike together parted rooted current current') :
    SameStep env.lang alike together parted rooted
      (TFStep.step env current) (TFStep.step env' current') := by
  cases same with
  | @lex first second abreast =>
      have twins := abreast.twins
      simp only [TFStep.step, TFStep.lexStep, ← differ.lang,
        ← twins.state, ← twins.lexer]
      have lexed :
          Abreast alike together
            { first with
              lexer := (first.lexer.next env.lang first.state).2 }
            { second with
              lexer := (first.lexer.next env.lang first.state).2 } :=
        differ.abreast abreast { twins with lexer := rfl } rfl rfl rfl rfl
          rfl
      split
      · exact .act _ lexed
      · exact .failed ⟨lexed.twins.fail _ _ _,
          differ.inStep.parts lexed.together⟩
  | act token abreast =>
      exact abreast.actStep differ token
  | @crowned first second token crowned isEnd =>
      have accepts :=
        loaded.actions_of_acceptsEnd crowned.emitted.accepts
      rw [← isEnd] at accepts
      simp only [TFStep.step, TFStep.actStep, ← differ.lang,
        ← crowned.twins.state, accepts, TFStep.actionStep]
      exact .reported crowned
  | accepted abreast =>
      exact .accepted abreast
  | reported crowned =>
      exact .reported crowned
  | failed stranded =>
      exact .failed stranded
  | stuck =>
      exact .stuck

/-- Any number of steps. -/
theorem SameStep.steps
    (loaded : env.lang.Loaded)
    (count : Nat)
    {current : TFStep σ V}
    {current' : TFStep σ' V'}
    (same :
      SameStep env.lang alike together parted rooted current current') :
    SameStep env.lang alike together parted rooted
      (TFStep.steps env count current)
      (TFStep.steps env' count current') := by
  induction count generalizing current current' with
  | zero =>
      exact same
  | succ count inductionHypothesis =>
      exact inductionHypothesis (same.step differ loaded)

/-- Both enter the loop, or fail before it. -/
theorem SinksDiffer.enter
    (source : List UInt8)
    {payload : σ}
    {payload' : σ'}
    {heap heap' : Heap}
    (heaps : alike heap heap')
    (initially : together ⟨[], payload, heap⟩ ⟨[], payload', heap'⟩) :
    SameStep env.lang alike together parted rooted
      (enter source payload heap : TFStep σ V)
      (enter source payload' heap' : TFStep σ' V') := by
  have twins :
      Twins alike (initial source payload heap : TFParser σ V)
        (initial source payload' heap' : TFParser σ' V') :=
    ⟨rfl, rfl, rfl, rfl, rfl, rfl, rfl, rfl, heaps, rfl⟩
  have parts := differ.inStep.parts initially
  obtain ⟨answers, grown⟩ := twins.grow differ.bisimulation 64 false
  have kept := (initial source payload heap : TFParser σ V).grow_keeps 64 false
  have kept' :=
    (initial source payload' heap' : TFParser σ' V').grow_keeps 64 false
  unfold TFParser.enter
  dsimp only
  rw [← answers]
  split
  · exact .failed ⟨twins.fail _ _ _, parts⟩
  · split
    · refine .lex ⟨grown, ?_, kept.rootEmitted⟩
      unfold stack
      rw [kept.cells, kept'.cells, kept.payload, kept'.payload]
      exact differ.inStep.allocated initially grown.heap
    · refine .failed ⟨grown.fail _ _ _, ?_⟩
      change parted
        ((initial source payload heap : TFParser σ V).grow 64 false).2.payload
        ((initial source payload' heap' : TFParser σ' V').grow 64
          false).2.payload
      rw [kept.payload, kept'.payload]
      exact parts

omit differ in
/-- Giving values back changes neither the error nor the calls. -/
theorem discardAll_keeps
    (sink : TFSink σ V)
    (self : TFParser σ V) :
    (self.discardAll sink).error = self.error ∧
      (self.discardAll sink).heap = self.heap ∧
      (self.discardAll sink).rootEmitted = self.rootEmitted ∧
      callsOf (self.discardAll sink).events = callsOf self.events := by
  unfold discardAll
  cases sink.onDiscard with
  | none =>
      exact ⟨rfl, rfl, rfl, rfl⟩
  | some onDiscard =>
      dsimp only
      generalize self.cells = cells
      induction cells generalizing self with
      | nil =>
          exact ⟨rfl, rfl, rfl, rfl⟩
      | cons cell rest inductionHypothesis =>
          simp only [List.foldl_cons]
          cases cell.node.value with
          | none =>
              exact inductionHypothesis self
          | some value =>
              obtain ⟨error, heap, emitted, calls⟩ :=
                inductionHypothesis
                  { self with
                    payload := onDiscard value self.payload
                    events := self.events ++ [.discard value] }
              refine ⟨error, heap, emitted, calls.trans ?_⟩
              rw [callsOf_append]
              exact List.append_nil _

/-- The same end of a run on both sides. -/
inductive SameResult
    (env : TFRunEnv σ V)
    (env' : TFRunEnv σ' V')
    (alike : Heap → Heap → Prop)
    (together : RawStack σ V → RawStack σ' V' → Prop)
    (parted : σ → σ' → Prop)
    (rooted : Option V → σ → Option V' → σ' → Prop) :
    TFResult σ V → TFResult σ' V' → Prop where
  | accepted
      {first : TFParser σ V}
      {second : TFParser σ' V'}
      (abreast : Abreast alike together first second) :
      SameResult env env' alike together parted rooted
        ⟨true, TFStep.acceptedRoot first, first⟩
        ⟨true, TFStep.acceptedRoot second, second⟩
  | reported
      {first : TFParser σ V}
      {second : TFParser σ' V'}
      (crowned : Crowned env.lang alike rooted first second) :
      SameResult env env' alike together parted rooted
        ⟨true, TFStep.acceptedRoot first, first⟩
        ⟨true, TFStep.acceptedRoot second, second⟩
  | failed
      {first : TFParser σ V}
      {second : TFParser σ' V'}
      (stranded : Stranded alike parted first second) :
      SameResult env env' alike together parted rooted
        ⟨false, none, first.discardAll env.sink⟩
        ⟨false, none, second.discardAll env'.sink⟩

/-- Both runs end the same. -/
theorem SinksDiffer.run
    (loaded : env.lang.Loaded)
    (source : List UInt8)
    {payload : σ}
    {payload' : σ'}
    {heap heap' : Heap}
    (heaps : alike heap heap')
    (initially : together ⟨[], payload, heap⟩ ⟨[], payload', heap'⟩) :
    Option.Rel
      (SameResult env env' alike together parted rooted)
      (run env source payload heap) (run env' source payload' heap') := by
  have same :=
    (differ.enter source heaps initially).steps differ loaded env.fuel
  unfold TFParser.run
  rw [← differ.fuel]
  generalize
    TFStep.steps env env.fuel (TFParser.enter source payload heap) = last
      at same
  generalize
    TFStep.steps env' env.fuel (TFParser.enter source payload' heap') =
      last' at same
  cases same with
  | lex abreast =>
      exact .none
  | act token abreast =>
      exact .none
  | crowned crowned isEnd =>
      exact .none
  | accepted abreast =>
      exact .some (.accepted abreast)
  | reported crowned =>
      exact .some (.reported crowned)
  | failed stranded =>
      exact .some (.failed stranded)
  | stuck =>
      exact .none

/-- Two results that differ in what their consumers answered only. -/
structure SameParse
    (alike : Heap → Heap → Prop)
    (first : TFResult σ V)
    (second : TFResult σ' V') : Prop where
  ok : first.ok = second.ok
  error : first.parser.error = second.parser.error
  rootEmitted : first.parser.rootEmitted = second.parser.rootEmitted
  heap : alike first.parser.heap second.parser.heap
  calls : callsOf first.parser.events = callsOf second.parser.events

omit differ in
/-- Runs that end the same agree on all but values. -/
theorem SameResult.agree
    {result : TFResult σ V}
    {result' : TFResult σ' V'}
    (same :
      SameResult env env' alike together parted rooted result result') :
    SameParse alike result result' := by
  cases same with
  | accepted abreast =>
      have twins := abreast.twins
      exact ⟨rfl, twins.error, twins.rootEmitted, twins.heap, twins.calls⟩
  | reported crowned =>
      have twins := crowned.twins
      exact ⟨rfl, twins.error, twins.rootEmitted, twins.heap, twins.calls⟩
  | @failed first second stranded =>
      have twins := stranded.twins
      obtain ⟨error, heap, emitted, calls⟩ :=
        discardAll_keeps env.sink first
      obtain ⟨error', heap', emitted', calls'⟩ :=
        discardAll_keeps env'.sink second
      constructor
      · rfl
      · rw [error, error', twins.error]
      · rw [emitted, emitted', twins.rootEmitted]
      · rw [heap, heap']
        exact twins.heap
      · rw [calls, calls', twins.calls]

end Runs

end TFParser

end TreeFeller
