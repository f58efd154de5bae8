import TreeFeller.LetterTables
import TreeFeller.StackDriver

namespace TreeFeller

open StatefulProgram

/-!
# Every graph of every split

From the start of a run to its end, a split begins on a stack of LR cells.  So
what it builds is a graph of LR stacks, whatever came before.
-/

namespace TFSpec

open Program

/--
A graph of LR stacks.  The nodes of `ends` were pushed for the end token, and
the trees of `roots` were built by accepting.
-/
structure LrGraph
    (lang : TFLanguage)
    (ends roots : Nat → Prop)
    (graph : TFSpec) : Prop where
  state :
    ∀ node, ¬ ends node → ∀ link ∈ (graph.node node).links,
      (graph.node node).state =
        if (graph.tree link.tree).extra then
          (graph.node link.node).state
        else
          lang.nextState (graph.node link.node).state
            (graph.tree link.tree).token.symbol
  byte :
    ∀ node, ¬ ends node → ∀ link ∈ (graph.node node).links,
      (graph.node node).byte = (graph.tree link.tree).token.endByte
  padding :
    ∀ node, ¬ ends node → ∀ link ∈ (graph.node node).links,
      (graph.tree link.tree).paddingStart = (graph.node link.node).byte
  lower :
    ∀ node, ¬ ends node → ∀ link ∈ (graph.node node).links,
      (graph.node link.node).byte < (graph.node node).byte
  children :
    ∀ tree, Reduced roots graph tree → Tiled graph (graph.tree tree)
  room :
    ∀ node,
      (graph.node node).links.length ≤ (graph.node node).linkCapacity ∧
        (graph.node node).linkCapacity ≤ 8
  linked : graph.Linked
  frontier : graph.frontier < graph.nodes.length
  /-- Nothing stands on a node pushed for the end token. -/
  apart : ∀ node, ∀ link ∈ (graph.node node).links, ¬ ends link.node
  acyclic : graph.Acyclic

/-- What the operations keep makes a graph of LR stacks. -/
theorem Stacked.lrGraph
    {lang : TFLanguage}
    {ends roots : Nat → Prop}
    {graph : TFSpec}
    (stacked : Stacked lang ends roots graph) :
    LrGraph lang ends roots graph where
  state := fun node ordinary link isLink =>
    (stacked.fits node ordinary link isLink).state
  byte := fun node ordinary link isLink =>
    (stacked.fits node ordinary link isLink).byte
  padding := fun node ordinary link isLink =>
    (stacked.fits node ordinary link isLink).padding
  lower := fun node ordinary link isLink =>
    (stacked.fits node ordinary link isLink).spans
  children := stacked.tiled
  room := stacked.room
  linked := stacked.linked
  frontier := stacked.unrolling.frontier
  apart := stacked.apart
  acyclic := stacked.acyclic

/--
The recursions over a graph come to an end: adding a link gets stuck only where
a private replay does, and looking for a second path and popping never do.
-/
structure Descends
    (env : TFSpecEnv)
    (ends roots : Nat → Prop)
    (state : TFSpecState) : Prop where
  addLink :
    ∀ {fuel target : Nat} {link : TFSpecLink},
      Offers env.lang ends state.spec target link →
        (state.spec.node target).byte < fuel →
          TFSpec.addLink env.materialize fuel target link state =
              .error .stuck →
            ∃ later : TFSpecState,
              Evolves state.spec later.spec ∧
                env.materialize later = .error .stuck
  unique :
    ∀ node, ∃ height, ∀ fuel, height < fuel →
      TFSpec.unique fuel node state ≠ .error .stuck
  pop :
    ∀ (goal : Option Nat) (version : Nat),
      version < state.spec.heads.length →
        ∃ height, ∀ fuel, height < fuel →
          TFSpec.pop fuel version goal state ≠ .error .stuck

/-- They go down from byte to byte. -/
theorem Stacked.descends
    {env : TFSpecEnv}
    {depth : Nat}
    (isReplay : env.materialize = materialize env.lang depth)
    {ends roots : Nat → Prop}
    {state : TFSpecState}
    (stacked : Stacked env.lang ends roots state.spec) :
    Descends env ends roots state where
  addLink := by
    intro fuel target link offers enough stuck
    obtain ⟨later, stays, stops⟩ :=
      addLink_ends (replay_stays isReplay) stacked offers enough stuck
    exact ⟨later, stays.evolves, stops⟩
  unique := unique_ends stacked.acyclic
  pop := fun _ _ inRange => pop_ends stacked.linked stacked.acyclic inRange

/-- A split holds what exploring its conflict comes to. -/
theorem visited_of_explore
    {env : TFSpecEnv}
    {depth : Nat}
    (tables : SpanningTables env.lang)
    (isReplay : env.materialize = materialize env.lang depth)
    {fork state : TFSpecState}
    (forks : Forks env.lang fork)
    {selection : Selection}
    (explored : explore env fork = .ok (selection, state)) :
    ∃ ends roots, Visited env fork ends roots state := by
  cases explore_covers tables isReplay forks explored with
  | path earlier alone going pops isSlice =>
      exact ⟨_, _, .popped earlier pops⟩
  | accepted earlier finished =>
      exact ⟨_, _, .explored earlier⟩
  | dead idle =>
      obtain ⟨ends, roots, earlier⟩ := idle
      exact ⟨ends, roots, .explored earlier⟩

end TFSpec

namespace TFParser

variable {σ V : Type}

/--
A run, up to one of its steps: but for the end token, what it acts on spans
something, and every root that it reduces takes a child.
-/
structure SpanningRun
    (env : TFRunEnv σ V)
    (start : TFStep σ V)
    (count : Nat) : Prop where
  tokens :
    ∀ index ≤ count, ∀ parser token,
      TFStep.steps env index start = .act parser token →
        Spans env.lang token parser.lexer.tokenIsKeyword
  roots :
    ∀ index < count, ∀ parser token,
      TFStep.steps env index start = .act parser token →
        SpansRoots env parser token

section Splits

variable {env : TFRunEnv σ V}
variable {depth : Nat}
variable {source : List UInt8}
variable {payload : σ}
variable {first : Heap}
variable {count : Nat}
variable {parser : TFParser σ V}
variable {token : TFToken}

/-- Every split of a run begins on a stack of LR cells. -/
theorem forks_of_run
    (tables : SpanningTables env.lang)
    (isReplay : env.materialize = TFSpec.materialize env.lang depth)
    (spanning : SpanningRun env (enter source payload first) count)
    (reached :
      TFStep.steps env count (enter source payload first) =
        .act parser token)
    (conflict :
      2 ≤ (env.lang.actions parser.state token.symbol).length)
    (heap : Heap)
    (spec : TFSpec) :
    TFSpec.Forks env.lang
      ((parser.opened env token heap).splitState spec token) := by
  have owned :
      Owned env (TFStep.steps env count (enter source payload first)) :=
    (owned_enter source payload first).steps tables isReplay
      (fun index within parser token acts =>
        ⟨spanning.tokens index (Nat.le_of_lt within) parser token acts,
          spanning.roots index within parser token acts⟩)
  rw [reached] at owned
  cases owned with
  | act ready piled here ahead fresh =>
      have acts := here (spanning.tokens count (Nat.le_refl _) _ _ reached)
      have piledNow :
          Piled env.lang startState 0
            (parser.opened env token heap).cells := piled
      exact forks_of_piled piledNow acts spec
  | rooted rooted isEnd =>
      have accepts := tables.loaded.actions_of_acceptsEnd rooted.accepts
      rw [← isEnd] at accepts
      rw [accepts] at conflict
      exact absurd conflict (by decide)

/-- Whatever a split of a run holds is a graph of LR stacks. -/
theorem split_holds_lrGraphs
    (tables : SpanningTables env.lang)
    (isReplay : env.materialize = TFSpec.materialize env.lang depth)
    (spanning : SpanningRun env (enter source payload first) count)
    (reached :
      TFStep.steps env count (enter source payload first) =
        .act parser token)
    (conflict :
      2 ≤ (env.lang.actions parser.state token.symbol).length)
    {heap : Heap}
    {spec : TFSpec}
    {ends roots : Nat → Prop}
    {state : TFSpecState}
    (visited :
      TFSpec.Visited env.spec
        ((parser.opened env token heap).splitState spec token) ends roots
        state) :
    TFSpec.LrGraph env.lang ends roots state.spec ∧
      TFSpec.Descends env.spec ends roots state := by
  have forks :=
    forks_of_run tables isReplay spanning reached conflict heap spec
  have stacked := visited.stacked tables isReplay forks
  exact ⟨stacked.lrGraph, stacked.descends isReplay⟩

end Splits

end TFParser

/-! ## Two rules over one letter -/

/-- A root over either of two rules, both of them over `x`. -/
def pairedTables : TSLanguage :=
  smallTables 5 2 5 [(120, 1)]
    [[], [.shift 2 false false], [.reduce 1 2 0 0, .reduce 1 3 0 0],
      [.reduce 1 4 0 0], [.accept]]
    [(1, 1, 1), (2, 0, 2), (3, 0, 3), (4, 0, 4)]
    [(1, 2, 3), (1, 3, 3), (1, 4, 4)]

/-- The two rules, loaded. -/
def pairedGrammar : TFLanguage :=
  pairedTables.loaded

/-- The splits of the grammar keep to LR stacks. -/
theorem pairedGrammar_spans : SpanningTables pairedGrammar := by
  have isTables : pairedGrammar.ts = pairedTables :=
    TSLanguage.loaded_ts pairedTables
  refine @spanningTables_of_letters pairedGrammar [(120, 1)] ?_ ?_ ?_ ?_ ?_ ?_
    ?_ ?_ ?_ ?_
  · exact TSLanguage.loaded_of_isOk (by decide +kernel)
  · rw [isTables]
    rfl
  · rw [isTables]
    rfl
  · decide
  · rw [isTables]
    decide
  · rw [isTables]
    decide
  · rw [isTables]
    decide
  · decide +kernel
  · rw [isTables]
    rfl
  · decide +kernel

/-- A run over the two rules that hands nothing over. -/
def pairedRun : TFRunEnv Unit Unit :=
  .consumer pairedGrammar ⟨none, none, none⟩ 20

/-- The parser of a step that is about to act. -/
def TFStep.acting : TFStep Unit Unit → Option (TFParser Unit Unit × TFToken)
  | .act parser token => some (parser, token)
  | _ => none

/-- Where the run on `x` stands after a number of steps. -/
def pairedStep (count : Nat) : TFStep Unit Unit :=
  TFStep.steps pairedRun count (TFParser.enter [120] () .reliable)

/-- No token of the run is a keyword. -/
theorem pairedStep_plain :
    ∀ count ≤ 3, ∀ acting ∈ (pairedStep count).acting,
      acting.1.lexer.tokenIsKeyword = false := by
  decide +kernel

/-- Its first steps are no conflicts. -/
theorem pairedStep_going :
    ∀ count < 3, ∀ acting ∈ (pairedStep count).acting,
      (pairedGrammar.actions acting.1.state acting.2.symbol).length < 2 := by
  decide +kernel

/-- Whether exploring a conflict went well and accepted a root. -/
def TFSpec.acceptsRoot :
    Except TFSpecStop (Selection × TFSpecState) → Bool
  | .ok (.accepted _, _) => true
  | _ => false

/-- A root that was accepted. -/
theorem TFSpec.exists_root_of_acceptsRoot
    {explored : Except TFSpecStop (Selection × TFSpecState)}
    (accepts : acceptsRoot explored = true) :
    ∃ root state, explored = .ok (.accepted root, state) := by
  unfold acceptsRoot at accepts
  split at accepts
  · exact ⟨_, _, rfl⟩
  · cases accepts

/-- The split at the end of the input, which accepts a root. -/
theorem pairedStep_splits :
    ∃ parser token,
      pairedStep 3 = .act parser token ∧
        2 ≤ (pairedGrammar.actions parser.state token.symbol).length ∧
          ∃ root state,
            TFSpec.explore pairedRun.spec
                ((parser.opened pairedRun token .reliable).splitState .zero
                  token) =
              .ok (.accepted root, state) := by
  let splits : TFParser Unit Unit × TFToken → Bool :=
    fun acting =>
      2 ≤ (pairedGrammar.actions acting.1.state acting.2.symbol).length &&
        TFSpec.acceptsRoot (TFSpec.explore pairedRun.spec
          ((acting.1.opened pairedRun acting.2 .reliable).splitState .zero
            acting.2))
  have computed : (pairedStep 3).acting.any splits = true := by
    decide +kernel
  obtain ⟨⟨parser, token⟩, acts, isSplit⟩ :=
    (Option.any_eq_true _ _).mp computed
  have isStep : pairedStep 3 = .act parser token := by
    unfold TFStep.acting at acts
    split at acts
    · rename_i found
      rw [found]
      cases acts
      rfl
    · cases acts
  simp only [splits, Bool.and_eq_true, decide_eq_true_eq] at isSplit
  exact ⟨parser, token, isStep, isSplit.1,
    TFSpec.exists_root_of_acceptsRoot isSplit.2⟩

/-- The run keeps to tokens and reductions that span something. -/
theorem pairedRun_spans :
    TFParser.SpanningRun pairedRun
      (TFParser.enter [120] () .reliable) 3 where
  tokens := by
    intro index within parser token acts state demoted demotes
    have isStep : pairedStep index = .act parser token := acts
    have flagged := (TFToken.demoteKeyword_spec demotes).1
    have plain := pairedStep_plain index within (parser, token) (by
      rw [isStep]
      rfl)
    cases flagged.symm.trans plain
  roots := by
    intro index within parser token acts conflict
    have isStep : pairedStep index = .act parser token := acts
    have going := pairedStep_going index within (parser, token) (by
      rw [isStep]
      rfl)
    exact absurd conflict (Nat.not_le_of_lt going)

/-- On `x`, the graph of the accepted split is one of LR stacks. -/
theorem split_holds_lrGraphs_paired :
    ∃ parser token root ends roots state,
      pairedStep 3 = .act parser token ∧
        TFSpec.explore pairedRun.spec
            ((parser.opened pairedRun token .reliable).splitState .zero
              token) =
          .ok (.accepted root, state) ∧
        TFSpec.LrGraph pairedGrammar ends roots state.spec ∧
        TFSpec.Descends pairedRun.spec ends roots state := by
  obtain ⟨parser, token, isStep, conflict, root, state, explored⟩ :=
    pairedStep_splits
  have forks :=
    TFParser.forks_of_run pairedGrammar_spans rfl pairedRun_spans isStep
      conflict .reliable .zero
  obtain ⟨ends, roots, visited⟩ :=
    TFSpec.visited_of_explore pairedGrammar_spans rfl forks explored
  exact ⟨parser, token, root, ends, roots, state, isStep, explored,
    TFParser.split_holds_lrGraphs pairedGrammar_spans rfl pairedRun_spans
      isStep conflict visited⟩

end TreeFeller
