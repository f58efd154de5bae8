import TreeFeller.Rebuilds
import TreeFeller.LonePaths
import TreeFeller.StackGraphs
import TreeFeller.Sinks

namespace TreeFeller

open StatefulProgram

/-!
# The stack that a split leaves

A split that goes well leaves the parser with the stack that it selected, cell
for node: what the driver goes on with is what the graph worked out, and what
the sink has heard since is what the trees of the selected stack say.
-/

/-- Where a cell stands: its state, and the byte it ends at. -/
def TFCell.footing {V : Type} (self : TFCell V) : TSStateId × Nat :=
  (self.state, self.node.endByte)

/-- Where a node of a graph stands. -/
def TFSpec.footing (self : TFSpec) (index : Nat) : TSStateId × Nat :=
  ((self.node index).state, (self.node index).byte)

namespace TFParser

variable {σ V : Type}

section Chains

variable {lang : TFLanguage}
variable {ends roots : Nat → Prop}
variable {graph : TFSpec}

/-- Cells that show the trees of a chain stand where its nodes do. -/
theorem footing_of_chain
    {node : Nat}
    {trees nodes : List Nat}
    {cells base upper rest : List (TFCell V)}
    (stacked : TFSpec.Stacked lang ends roots graph)
    (stack : LrStack lang cells)
    (chain : TFSpec.Chain graph node trees nodes)
    (within : node < graph.nodes.length)
    (plain : ¬ ends node)
    (parts : cells = base ++ (upper ++ rest))
    (atBottom :
      stateAt cells base.length = (graph.node graph.frontier).state)
    (shows : Shows graph trees upper) :
    upper.map TFCell.footing = nodes.map graph.footing ∧
      stateAt cells (base.length + upper.length) =
        (graph.node node).state := by
  induction chain generalizing upper rest with
  | @bottom node links =>
      have isFrontier : node = graph.frontier := by
        by_contra elsewhere
        exact stacked.rooted node within elsewhere links
      have none_ : upper = [] := List.map_eq_nil_iff.mp shows
      rw [none_, isFrontier]
      exact ⟨rfl, atBottom⟩
  | @link node link trees nodes links below inductionHypothesis =>
      have isLink : link ∈ (graph.node node).links := by
        rw [links]
        exact List.mem_singleton_self _
      have fits := stacked.fits node plain link isLink
      unfold Shows at shows
      rw [List.map_append, List.map_cons, List.map_nil] at shows
      obtain ⟨lower, top, rfl, showsLower, showsTop⟩ :=
        List.map_eq_append_iff.mp shows
      obtain ⟨cell, rfl, showsCell⟩ :
          ∃ cell, top = [cell] ∧
            cell.node.forget = (graph.tree link.tree).shown := by
        cases top with
        | nil => cases showsTop
        | cons cell others =>
            rw [List.map_cons, List.cons.injEq,
              List.map_eq_nil_iff] at showsTop
            exact ⟨cell, by rw [showsTop.2], showsTop.1⟩
      have partsLower : cells = base ++ (lower ++ (cell :: rest)) := by
        rw [parts, List.append_assoc]
        rfl
      obtain ⟨footing, state⟩ :=
        inductionHypothesis (stacked.linked.link isLink).1
          (stacked.apart node link isLink) partsLower showsLower
      have isCell : cells[base.length + lower.length]? = some cell := by
        rw [partsLower, List.getElem?_append_right (by omega),
          List.getElem?_append_right (by omega)]
        simp
      have isState := stack.states _ cell isCell
      have extra : cell.node.extra = (graph.tree link.tree).extra :=
        congrArg TFNode.extra showsCell
      have symbol :
          cell.node.symbol = (graph.tree link.tree).token.symbol :=
        congrArg TFNode.symbol showsCell
      have byte :
          cell.node.endByte = (graph.tree link.tree).token.endByte :=
        congrArg TFNode.endByte showsCell
      have same : cell.state = (graph.node node).state := by
        rw [isState, fits.state, state, extra, symbol]
        rfl
      refine ⟨?_, ?_⟩
      · rw [List.map_append, List.map_append, footing, List.map_cons,
          List.map_nil, List.map_cons, List.map_nil]
        unfold TFCell.footing TFSpec.footing
        rw [same, byte, ← fits.byte]
      · rw [List.length_append, List.length_singleton, ← Nat.add_assoc,
          stateAt_succ isCell]
        exact same

end Chains

/-- What a split that went well has made of the parser's stack. -/
inductive Rebuilt
    (sink : TFSink σ V)
    (lang : TFLanguage)
    (graph : TFSpec)
    (before after : TFParser σ V)
    (next : TFToken) :
    TFSpec.Selection → Prop where
  /-- The cells below the graph are left, and each node above has its own. -/
  | path
      {top : Nat}
      {forest nodes : List Nat}
      {upper : List (TFCell V)}
      {told : List (Event V)}
      (chain : TFSpec.Chain graph top forest nodes)
      (cells : after.cells = before.cells.take graph.prefixLeft ++ upper)
      (shows : Shows graph forest upper)
      (footing : upper.map TFCell.footing = nodes.map graph.footing)
      (retold : Retold sink graph forest told)
      (heard : after.events = before.events ++ told) :
      Rebuilt sink lang graph before after next (.path forest top)
  /-- The stack was the root's children, and then the root was reduced. -/
  | accepted
      {root : Nat}
      {told : List (Event V)}
      {middle reached : TFParser σ V}
      (shows :
        Shows graph (graph.tree root).children.dropLast middle.cells)
      (retold :
        Retold sink graph (graph.tree root).children.dropLast told)
      (heard : middle.events = before.events ++ told)
      (reduced :
        middle.reduce sink lang (graph.tree root).token.symbol
            (graph.tree root).structuralCount
            (graph.tree root).productionId (some next) =
          some (true, reached))
      (same : Quiet reached after) :
      Rebuilt sink lang graph before after next (.accepted root)

/-- A row that a replay begins with and ends with is all that it rebuilds. -/
theorem Rebuilds.whole
    {sink : TFSink σ V}
    {lang : TFLanguage}
    {graph : TFSpec}
    {own base : List (TFCell V)}
    {trees : List Nat}
    {last : Nat}
    {before after : TFParser σ V}
    (rebuilds :
      Rebuilds sink lang graph own base trees last [] before after)
    (stack : LrStack lang own)
    (high : topByte own ≤ last) :
    ∃ upper told,
      after.cells = base ++ upper ∧ Shows graph trees upper ∧
        Retold sink graph trees told ∧
        after.events = before.events ++ told := by
  obtain ⟨middle, upper, told, plan, amid, shows, heard, retold, order,
    performs⟩ := rebuilds.done
  cases order
  have same := performs.quiet_of_nil
  obtain ⟨rest, index, cells, isRest, reaches⟩ := amid.cells
  have all := reaches.all stack high
  rw [all, List.drop_length, List.map_nil, List.map_eq_nil_iff] at isRest
  rw [isRest, List.append_nil] at cells
  exact ⟨upper, told, same.cells.trans cells, shows, retold,
    same.events.trans heard⟩

section Steps

variable {env : TFRunEnv σ V}
variable {depth : Nat}
variable (tables : SpanningTables env.lang)
variable (isReplay : env.materialize = TFSpec.materialize env.lang depth)

include tables isReplay

/-- A path that is committed to is what the stack becomes. -/
theorem rebuilt_path
    {parser after : TFParser σ V}
    {spec : TFSpec}
    {state : TFSpecState}
    {forest : List Nat}
    {top : Nat}
    {token next : TFToken}
    (ready : Ready parser)
    (piled : Piled env.lang startState 0 parser.cells)
    (forks : TFSpec.Forks env.lang (parser.splitState spec token))
    (explored :
      TFSpec.explore env.spec (parser.splitState spec token) =
        .ok (.path forest top, state))
    (committed :
      (parser.resume state).commitPath env state.spec forest top token =
        some (true, next, after)) :
    Rebuilt env.sink env.lang state.spec parser after next
      (.path forest top) := by
  have concluded := TFSpec.explore_covers tables isReplay forks explored
  obtain ⟨ends, roots, graph, head, nodes, reaches, alone, going, rfl, chain,
    same⟩ := (TFSpec.explore_lone tables isReplay forks explored).stands
  have sound := reaches.sound tables isReplay forks
  have grafting := (reaches.thrives tables isReplay forks).grafting
  have evolves : TFSpec.Evolves graph.spec state.spec :=
    .of_same same.nodes same.trees same.owner
  have isHead : graph.spec.head 0 = head := by
    unfold TFSpec.head
    rw [alone]
    rfl
  have within := sound.stacked.headWithin 0
  have goes : (graph.spec.head 0).halted = false := by
    rw [isHead]
    exact going
  have plain := sound.stacked.head sound.settled goes
  rw [isHead] at within plain
  have owned := reaches.owner tables isReplay forks
  have isOwn : graph.spec.owner.cells = parser.cells.map TFCell.forget := by
    rw [owned]
    rfl
  have unrolling := sound.stacked.unrolling
  have stack := piled.lrStack
  have left : graph.spec.prefixLeft ≤ parser.cells.length := by
    have bound := unrolling.left
    rw [isOwn, List.length_map] at bound
    exact bound
  have isByte :
      (graph.spec.node graph.spec.frontier).byte =
        topByte (parser.cells.take graph.spec.prefixLeft) := by
    rw [unrolling.byte, isOwn, ← List.map_take, topByte_forget]
  have high :
      topByte parser.cells ≤ (graph.spec.node head.node).byte := by
    have member : head ∈ graph.spec.heads := by
      rw [alone]
      exact List.mem_singleton_self _
    have above_ := sound.abreast head member going
    rw [isOwn, topByte_forget] at above_
    exact above_
  have row := (sound.stacked.chain_row chain within plain).evolves evolves
  have grafted :
      ∀ tree ∈ forest, TFSpec.Grafted state.spec tree := by
    intro tree member
    obtain ⟨index, link, isLink, rfl⟩ := chain.linked member
    exact (grafting.links index link isLink).evolves evolves
  have isOwnNow : state.spec.owner.cells = parser.cells.map TFCell.forget := by
    rw [same.owner]
    exact isOwn
  have amid :
      Amid parser.cells (parser.cells.take graph.spec.prefixLeft)
        (graph.spec.node graph.spec.frontier).byte
        (parser.resume state) := by
    refine ⟨ready.quiet (resume_quiet parser state),
      parser.cells.drop graph.spec.prefixLeft, graph.spec.prefixLeft, ?_, rfl,
      left, ?_⟩
    · exact (List.take_append_drop _ _).symm
    · rw [isByte, Nat.min_eq_left (stack.topByte_take_le _)]
  cases commitPath_spec committed with
  | @lexed plan middle after capacity lexedState next keyword order performs
      lexed isAfter =>
      subst isAfter
      obtain ⟨rises, _⟩ :=
        rises_of_path tables isReplay forks concluded order
      have begins :
          topByte (parser.splitState spec token).spec.owner.cells =
            topByte parser.cells :=
        topByte_forget _
      rw [begins] at rises
      obtain ⟨piledNow, _⟩ :=
        piled_performs (ready.quiet (resume_quiet parser state)) piled rises
          performs
      have stackNow := piledNow.lrStack
      rw [← List.append_nil (forest.map _)] at order
      obtain ⟨upper, told, cells, shows, retold, heard⟩ :=
        (rebuilds_row isOwnNow stack row grafted amid order
          performs).whole stack high
      have count :
          (parser.cells.take graph.spec.prefixLeft).length =
            graph.spec.prefixLeft :=
        List.length_take_of_le left
      have atBottom :
          stateAt middle.cells
              (parser.cells.take graph.spec.prefixLeft).length =
            (graph.spec.node graph.spec.frontier).state := by
        rw [cells, stateAt_below, ← stateAt_below _
          (parser.cells.drop graph.spec.prefixLeft), List.take_append_drop,
          count, unrolling.state, isOwn, stateAt_map_forget]
      have showsGraph : Shows graph.spec forest upper := by
        have sameTree : ∀ tree, state.spec.tree tree = graph.spec.tree tree := by
          intro tree
          unfold TFSpec.tree
          rw [same.trees]
        unfold Shows at shows ⊢
        simp only [sameTree] at shows
        exact shows
      have parts :
          middle.cells =
            parser.cells.take graph.spec.prefixLeft ++ (upper ++ []) := by
        rw [List.append_nil]
        exact cells
      obtain ⟨footing, _⟩ :=
        footing_of_chain sound.stacked stackNow chain within plain parts
          atBottom showsGraph
      have sameFooting :
          ∀ node, state.spec.footing node = graph.spec.footing node := by
        intro node
        unfold TFSpec.footing TFSpec.node
        rw [same.nodes]
      have footingNow : upper.map TFCell.footing =
          nodes.map state.spec.footing := by
        rw [footing]
        exact List.map_congr_left (fun node _ => (sameFooting node).symm)
      refine .path (chain.same same.nodes) ?_ shows footingNow retold heard
      rw [same.prefixLeft]
      exact cells

/-- And an accepted root takes in the whole of it. -/
theorem rebuilt_root
    {parser after : TFParser σ V}
    {spec : TFSpec}
    {state : TFSpecState}
    {root : Nat}
    {token next : TFToken}
    (ready : Ready parser)
    (piled : Piled env.lang startState 0 parser.cells)
    (forks : TFSpec.Forks env.lang (parser.splitState spec token))
    (explored :
      TFSpec.explore env.spec (parser.splitState spec token) =
        .ok (.accepted root, state))
    (counts : (state.spec.tree root).structuralCount ≠ 0)
    (committed :
      (parser.resume state).commitRoot env state.spec root token =
        some (true, next, after)) :
    Rebuilt env.sink env.lang state.spec parser after next
      (.accepted root) := by
  have stack := piled.lrStack
  cases TFSpec.explore_covers tables isReplay forks explored with
  | accepted reaches finished =>
      have crowned :=
        (reaches.thrives tables isReplay forks).crowned root finished
      obtain ⟨last, beyond, row⟩ := crowned.row counts
      have isOwn :
          state.spec.owner.cells = parser.cells.map TFCell.forget := by
        rw [reaches.owner tables isReplay forks]
        rfl
      have high : topByte parser.cells ≤ last := by
        rw [isOwn, topByte_forget] at beyond
        exact beyond
      have amid : Amid parser.cells [] 0 (parser.resume state) := by
        refine ⟨ready.quiet (resume_quiet parser state), parser.cells, 0,
          rfl, rfl, Nat.zero_le _, ?_⟩
        rw [Nat.zero_min]
        rfl
      cases commitRoot_spec committed with
      | @reduced plan middle reached left order performs reduced =>
          rw [← List.append_nil (List.map _ _)] at order
          obtain ⟨upper, told, cells, shows, retold, heard⟩ :=
            (rebuilds_row isOwn stack row (crowned.grafted counts) amid order
              performs).whole stack high
          rw [List.nil_append] at cells
          rw [← cells] at shows
          exact .accepted shows retold heard reduced
            ⟨rfl, rfl, rfl, rfl, rfl, rfl⟩

end Steps

/-! ## Splits of a run -/

/-- What is rebuilt from a parser is rebuilt from its stack and its calls. -/
theorem Rebuilt.of_stack
    {sink : TFSink σ V}
    {lang : TFLanguage}
    {graph : TFSpec}
    {first before after : TFParser σ V}
    {next : TFToken}
    {selection : TFSpec.Selection}
    (rebuilt : Rebuilt sink lang graph before after next selection)
    (cells : before.cells = first.cells)
    (events : before.events = first.events) :
    Rebuilt sink lang graph first after next selection := by
  cases rebuilt with
  | path chain isStack shows footing retold heard =>
      rw [cells] at isStack
      rw [events] at heard
      exact .path chain isStack shows footing retold heard
  | accepted shows retold heard reduced same =>
      rw [events] at heard
      exact .accepted shows retold heard reduced same

section Splits

variable {env : TFRunEnv σ V}
variable {depth : Nat}
variable {source : List UInt8}
variable {payload : σ}
variable {first : Heap}
variable {count : Nat}
variable {parser after : TFParser σ V}
variable {token next : TFToken}

/-- A split of a run that goes well leaves the stack that it selected. -/
theorem split_rebuilds
    (tables : SpanningTables env.lang)
    (isReplay : env.materialize = TFSpec.materialize env.lang depth)
    (spanning : SpanningRun env (enter source payload first) count)
    (reached :
      TFStep.steps env count (enter source payload first) =
        .act parser token)
    (conflict :
      2 ≤ (env.lang.actions parser.state token.symbol).length)
    (spansRoots : SpansRoots env parser token)
    (ran : parser.split env token = some (true, next, after)) :
    ∃ heap spec selection state,
      (parser.asked env token).ownSpec =
          (some spec, parser.opened env token heap) ∧
        TFSpec.explore env.spec
            ((parser.opened env token heap).splitState spec token) =
          .ok (selection, state) ∧
        Rebuilt env.sink env.lang state.spec parser after next
          selection := by
  have owned :
      Owned env (TFStep.steps env count (enter source payload first)) :=
    (owned_enter source payload first).steps tables isReplay
      (fun index within parser token acts =>
        ⟨spanning.tokens index (Nat.le_of_lt within) parser token acts,
          spanning.roots index within parser token acts⟩)
  rw [reached] at owned
  cases owned with
  | act ready piled here ahead fresh =>
      have readyNow :
          ∀ heap, Ready (parser.opened env token heap) :=
        fun heap => ⟨ready.open_, ready.fits⟩
      have forks :=
        forks_of_run tables isReplay spanning reached conflict
      obtain ⟨heap, spec, state, opening,
        ⟨forest, top, explored, committed⟩ | ⟨root, explored, committed⟩⟩ :=
          split_explores ran
      · have rebuilt :=
          rebuilt_path tables isReplay (readyNow heap) piled
            (forks heap spec) explored committed
        exact ⟨heap, spec, _, state, opening, explored,
          rebuilt.of_stack rfl rfl⟩
      · have counts :=
          spansRoots conflict heap spec root state opening explored
        have rebuilt :=
          rebuilt_root tables isReplay (readyNow heap) piled
            (forks heap spec) explored counts committed
        exact ⟨heap, spec, _, state, opening, explored,
          rebuilt.of_stack rfl rfl⟩
  | rooted rooted isEnd =>
      have accepts := tables.loaded.actions_of_acceptsEnd rooted.accepts
      rw [← isEnd] at accepts
      rw [accepts] at conflict
      exact absurd conflict (by decide)

end Splits

end TFParser

/-- Whether a root that a split here accepts has a child for it to reduce. -/
def TFParser.reducesRoots
    {σ V : Type}
    (env : TFRunEnv σ V)
    (self : TFParser σ V)
    (token : TFToken) :
    Bool :=
  match (self.asked env token).ownSpec with
  | (some spec, opened) =>
      match TFSpec.explore env.spec (opened.splitState spec token) with
      | .ok (.accepted root, state) =>
          (state.spec.tree root).structuralCount != 0
      | _ => true
  | _ => true

/-- Where it has, it spans something. -/
theorem TFParser.spansRoots_of_reduces
    {σ V : Type}
    {env : TFRunEnv σ V}
    {parser : TFParser σ V}
    {token : TFToken}
    (reduces : parser.reducesRoots env token = true) :
    SpansRoots env parser token := by
  intro _ heap spec root state opening explored
  unfold TFParser.reducesRoots at reduces
  simp only [opening, explored, bne_iff_ne] at reduces
  exact reduces

/-! ## Two rules that one letter tells apart -/

/-- Two rules over `x`; only the first one goes on, with a `y`. -/
def chosenTables : TSLanguage :=
  smallTables 6 3 7 [(120, 1), (121, 2)]
    [[], [.shift 2 false false], [.reduce 1 3 0 0, .reduce 1 4 0 0],
      [.shift 5 false false], [.reduce 2 5 0 0], [.accept]]
    [(1, 1, 1), (2, 2, 2), (3, 2, 3), (5, 0, 4), (6, 0, 5)]
    [(1, 3, 3), (1, 4, 4), (1, 5, 6)]

/-- The two rules, loaded. -/
def chosenGrammar : TFLanguage :=
  chosenTables.loaded

/-- The splits of the grammar keep to LR stacks. -/
theorem chosenGrammar_spans : SpanningTables chosenGrammar := by
  have isTables : chosenGrammar.ts = chosenTables :=
    TSLanguage.loaded_ts chosenTables
  refine @spanningTables_of_letters chosenGrammar [(120, 1), (121, 2)] ?_ ?_
    ?_ ?_ ?_ ?_ ?_ ?_ ?_ ?_
  · exact TSLanguage.loaded_of_isOk (by decide +kernel)
  · rw [isTables]
    rfl
  · rw [isTables]
    rfl
  · decide
  · rw [isTables]
    decide
  · rw [isTables]
    decide
  · rw [isTables]
    decide
  · decide +kernel
  · rw [isTables]
    rfl
  · decide +kernel

/-- A run over the two rules that hands nothing over. -/
def chosenRun : TFRunEnv Unit Unit :=
  .consumer chosenGrammar ⟨none, none, none⟩ 20

/-- Where the run on `xy` stands after a number of steps. -/
def chosenStep (count : Nat) : TFStep Unit Unit :=
  TFStep.steps chosenRun count (TFParser.enter [120, 121] () .reliable)

/-- No token of the run is a keyword. -/
theorem chosenStep_plain :
    ∀ count ≤ 3, ∀ acting ∈ (chosenStep count).acting,
      acting.1.lexer.tokenIsKeyword = false := by
  decide +kernel

/-- Its first steps are no conflicts. -/
theorem chosenStep_going :
    ∀ count < 3, ∀ acting ∈ (chosenStep count).acting,
      (chosenGrammar.actions acting.1.state acting.2.symbol).length < 2 := by
  decide +kernel

/-- The run keeps to tokens and reductions that span something. -/
theorem chosenRun_spans :
    TFParser.SpanningRun chosenRun
      (TFParser.enter [120, 121] () .reliable) 3 where
  tokens := by
    intro index within parser token acts state demoted demotes
    have isStep : chosenStep index = .act parser token := acts
    have flagged := (TFToken.demoteKeyword_spec demotes).1
    have plain := chosenStep_plain index within (parser, token) (by
      rw [isStep]
      rfl)
    cases flagged.symm.trans plain
  roots := by
    intro index within parser token acts conflict
    have isStep : chosenStep index = .act parser token := acts
    have going := chosenStep_going index within (parser, token) (by
      rw [isStep]
      rfl)
    exact absurd conflict (Nat.not_le_of_lt going)

/-- The split at `y`, which leaves the first rule and the `y`. -/
theorem chosenStep_splits :
    ∃ parser token next after,
      chosenStep 3 = .act parser token ∧
        2 ≤ (chosenGrammar.actions parser.state token.symbol).length ∧
          parser.reducesRoots chosenRun token = true ∧
            parser.split chosenRun token = some (true, next, after) ∧
              after.cells.map TFCell.footing = [(3, 1), (5, 2)] := by
  let leaves : Bool × TFToken × TFParser Unit Unit → Bool :=
    fun result =>
      result.1 &&
        result.2.2.cells.map TFCell.footing == [(3, 1), (5, 2)]
  let splits : TFParser Unit Unit × TFToken → Bool :=
    fun acting =>
      2 ≤ (chosenGrammar.actions acting.1.state acting.2.symbol).length &&
        acting.1.reducesRoots chosenRun acting.2 &&
          (acting.1.split chosenRun acting.2).any leaves
  have computed : (chosenStep 3).acting.any splits = true := by
    decide +kernel
  obtain ⟨⟨parser, token⟩, acts, isSplit⟩ :=
    (Option.any_eq_true _ _).mp computed
  have isStep : chosenStep 3 = .act parser token := by
    unfold TFStep.acting at acts
    split at acts
    · rename_i found
      rw [found]
      cases acts
      rfl
    · cases acts
  simp only [splits, Bool.and_eq_true, decide_eq_true_eq] at isSplit
  obtain ⟨⟨conflict, reduces⟩, went⟩ := isSplit
  obtain ⟨⟨well, next, after⟩, ran, isLeft⟩ :=
    (Option.any_eq_true _ _).mp went
  simp only [leaves, Bool.and_eq_true, beq_iff_eq] at isLeft
  obtain ⟨rfl, footing⟩ := isLeft
  exact ⟨parser, token, next, after, isStep, conflict, reduces, ran, footing⟩

/-- On `xy`, the stack that was selected is left. -/
theorem split_rebuilds_chosen :
    ∃ parser token next after heap spec selection state,
      chosenStep 3 = .act parser token ∧
        after.cells.map TFCell.footing = [(3, 1), (5, 2)] ∧
        (parser.asked chosenRun token).ownSpec =
          (some spec, parser.opened chosenRun token heap) ∧
        TFSpec.explore chosenRun.spec
            ((parser.opened chosenRun token heap).splitState spec token) =
          .ok (selection, state) ∧
        TFParser.Rebuilt chosenRun.sink chosenGrammar state.spec parser after
          next selection := by
  obtain ⟨parser, token, next, after, isStep, conflict, reduces, ran,
    footing⟩ := chosenStep_splits
  obtain ⟨heap, spec, selection, state, opening, explored, rebuilt⟩ :=
    TFParser.split_rebuilds chosenGrammar_spans rfl chosenRun_spans isStep
      conflict (TFParser.spansRoots_of_reduces reduces) ran
  exact ⟨parser, token, next, after, heap, spec, selection, state, isStep,
    footing, opening, explored, rebuilt⟩

end TreeFeller
