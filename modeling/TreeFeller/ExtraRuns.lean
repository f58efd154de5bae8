import TreeFeller.RawDriving
import Mathlib.Data.List.Forall2

namespace TreeFeller

/-!
# Runs with extras put in

The driver, given its tokens one after another, on a list of tokens and on the
same list with extras put in.  The second run takes the steps of the first,
and shifts each extra on the way; their stacks stay woven.
-/

/-- A token as the lexer hands it over, and whether it is a keyword. -/
abbrev Lexeme : Type :=
  TFToken × Bool

namespace TFStep

variable {σ V : Type}

/-- Act on a token that has just been lexed. -/
def deliver (parser : TFParser σ V) (lexeme : Lexeme) : TFStep σ V :=
  .act
    { parser with
      lexer := { parser.lexer with tokenIsKeyword := lexeme.2 } }
    lexeme.1

/-- One step of the main loop, which lexes the tokens of a list. -/
def feed
    (env : TFRunEnv σ V) :
    TFStep σ V × List Lexeme → TFStep σ V × List Lexeme
  | (.lex parser, lexeme :: rest) => (deliver parser lexeme, rest)
  | (.lex parser, []) => (.lex parser, [])
  | (current, rest) => (step env current, rest)

/-- Any number of steps of the main loop over a list of tokens. -/
def feeds
    (env : TFRunEnv σ V) :
    Nat → TFStep σ V × List Lexeme → TFStep σ V × List Lexeme
  | 0, current => current
  | count + 1, current => feeds env count (feed env current)

/-- Runs compose. -/
theorem feeds_add
    (env : TFRunEnv σ V)
    (first second : Nat)
    (current : TFStep σ V × List Lexeme) :
    feeds env (first + second) current =
      feeds env second (feeds env first current) := by
  induction first generalizing current with
  | zero =>
      rw [Nat.zero_add]
      rfl
  | succ first inductionHypothesis =>
      rw [Nat.succ_add]
      exact inductionHypothesis _

/-- A run that has stopped stays where it is. -/
theorem feeds_stop
    (env : TFRunEnv σ V)
    (count : Nat)
    (ok : Bool)
    (root : Option V)
    (parser : TFParser σ V)
    (rest : List Lexeme) :
    feeds env count (.stop ok root parser, rest) =
      (.stop ok root parser, rest) := by
  induction count with
  | zero =>
      rfl
  | succ count inductionHypothesis =>
      exact inductionHypothesis

end TFStep

/-- Tokens, and the same tokens with extras put in. -/
inductive Interspersed (inserted : TFToken → Prop) :
    List Lexeme → List Lexeme → Prop where
  | nil : Interspersed inserted [] []
  | keep
      {token token' : TFToken}
      {keyword : Bool}
      {rest rest' : List Lexeme}
      (symbol : token'.symbol = token.symbol)
      (later : Interspersed inserted rest rest') :
      Interspersed inserted ((token, keyword) :: rest)
        ((token', keyword) :: rest')
  | added
      {token : TFToken}
      {keyword : Bool}
      {rest rest' : List Lexeme}
      (known : inserted token)
      (later : Interspersed inserted rest rest') :
      Interspersed inserted rest ((token, keyword) :: rest')

namespace TFParser

/-! ## The leading extras -/

/-- How many extras stand at the bottom of some cells. -/
def extrasBelow {V : Type} (cells : List (TFCell V)) : Nat :=
  (cells.takeWhile (fun cell => cell.node.extra)).length

/-- The extras at the bottom are counted. -/
def Bottomed {σ V : Type} (parser : TFParser σ V) : Prop :=
  parser.leading = extrasBelow parser.cells

section Leading

variable {V : Type}

/-- What stands above a cell that is not an extra does not count. -/
theorem extrasBelow_structural
    {below above : List (TFCell V)}
    {cell : TFCell V}
    (isNot : cell.node.extra = false) :
    extrasBelow (below ++ cell :: above) = extrasBelow below := by
  induction below with
  | nil =>
      simp [extrasBelow, isNot]
  | cons first rest inductionHypothesis =>
      unfold extrasBelow at inductionHypothesis ⊢
      rw [List.cons_append, List.takeWhile_cons, List.takeWhile_cons]
      split
      · rw [List.length_cons, List.length_cons, inductionHypothesis]
      · rfl

/-- All cells count exactly if all are extras. -/
theorem extrasBelow_eq_length_iff
    {cells : List (TFCell V)} :
    cells.length = extrasBelow cells ↔ AllExtra cells := by
  induction cells with
  | nil =>
      exact ⟨fun _ => nofun, fun _ => rfl⟩
  | cons cell rest inductionHypothesis =>
      unfold extrasBelow AllExtra at inductionHypothesis ⊢
      rw [List.takeWhile_cons, List.forall_mem_cons]
      cases kind : cell.node.extra with
      | true =>
          rw [if_pos rfl, List.length_cons, List.length_cons,
            Nat.add_right_cancel_iff, inductionHypothesis]
          exact ⟨fun others => ⟨rfl, others⟩, fun both => both.2⟩
      | false =>
          simp

/-- An extra on top counts if everything below it does. -/
theorem extrasBelow_extra
    {cells : List (TFCell V)}
    {cell : TFCell V}
    (isExtra : cell.node.extra = true) :
    extrasBelow (cells ++ [cell]) =
      if cells.length = extrasBelow cells then
        extrasBelow cells + 1
      else
        extrasBelow cells := by
  induction cells with
  | nil =>
      simp [extrasBelow, isExtra]
  | cons first rest inductionHypothesis =>
      unfold extrasBelow at inductionHypothesis ⊢
      rw [List.cons_append, List.takeWhile_cons, List.takeWhile_cons]
      split
      · rw [List.length_cons, List.length_cons, List.length_cons,
          inductionHypothesis]
        split
        · rename_i all
          rw [if_pos (by omega)]
        · rename_i some_
          rw [if_neg (by omega)]
      · simp

/-- A reduction's base is the bottom exactly if only extras are below it. -/
theorem base_eq_leading_iff {σ : Type}
    {parser : TFParser σ V}
    {childCount : Nat}
    {cut : Popped V}
    (bottomed : Bottomed parser)
    (cuts : CutsAt parser.cells childCount cut) :
    cut.below.length = parser.leading ↔ AllExtra cut.below := by
  unfold Bottomed at bottomed
  rw [bottomed, ← extrasBelow_eq_length_iff]
  cases cuts with
  | empty =>
      exact Iff.rfl
  | single parts isOnly extras =>
      rw [parts, extrasBelow_structural isOnly]
  | several parts isFirst isLast extras =>
      rw [parts, extrasBelow_structural isFirst]

/-- The parts of a cut with no extras counted above the base. -/
theorem extrasBelow_cut
    {cells : List (TFCell V)}
    {childCount : Nat}
    {cut : Popped V}
    (cuts : CutsAt cells childCount cut) :
    extrasBelow cells = extrasBelow cut.below := by
  cases cuts with
  | empty =>
      rfl
  | single parts isOnly extras =>
      rw [parts, extrasBelow_structural isOnly]
  | several parts isFirst isLast extras =>
      rw [parts, extrasBelow_structural isFirst]

end Leading

/-- Shifting counts on. -/
theorem Shifted.bottomed
    {before after : TFParser Unit RawTree}
    {token : TFToken}
    {extra : Bool}
    {state : TSStateId}
    (shifted : Shifted before token extra state after)
    (bottomed : Bottomed before) :
    Bottomed after := by
  unfold Bottomed at bottomed ⊢
  rw [shifted.leading, shifted.cells]
  unfold leadingAfter depth
  cases extra with
  | false =>
      rw [extrasBelow_structural rfl, ← bottomed]
      rfl
  | true =>
      rw [extrasBelow_extra rfl, ← bottomed]
      by_cases all : before.cells.length = before.leading
      · simp [all]
      · simp [all]

/-- Reducing leaves the count. -/
theorem Reduced.bottomed
    {lang : TFLanguage}
    {before after : TFParser Unit RawTree}
    {cut : Popped RawTree}
    {symbol : TSSymbol}
    {childCount productionId : Nat}
    {lookahead : Option TFToken}
    (reduced :
      Reduced lang before cut symbol childCount productionId lookahead
        after)
    (cuts : CutsAt before.cells childCount cut)
    (bottomed : Bottomed before) :
    Bottomed after := by
  unfold Bottomed at bottomed ⊢
  rw [reduced.leading, reduced.cells, bottomed, extrasBelow_cut cuts]
  unfold RawStack.placed
  rw [List.append_assoc, List.singleton_append]
  exact (extrasBelow_structural rfl).symm

/-! ## Woven runs -/

/-- A reduction, and the same reduction with extras among its children. -/
structure ReductionWoven
    (inserted : TFToken → Prop)
    (first second : TFReduction RawTree) : Prop where
  symbol : second.symbol = first.symbol
  productionId : second.productionId = first.productionId
  childCount : second.childCount = first.childCount
  children : NodesWoven inserted first.children second.children

/-- Parsers whose stacks are woven. -/
structure ParsersWoven
    (inserted : TFToken → Prop)
    (first second : TFParser Unit RawTree) : Prop where
  cells : CellsWoven inserted startState first.cells second.cells
  bottomed : Bottomed first
  bottomed' : Bottomed second
  rootEmitted : second.rootEmitted = first.rootEmitted
  reductions :
    List.Forall₂ (ReductionWoven inserted)
      (reductions first.events) (reductions second.events)
  supplied : Supplied first
  supplied' : Supplied second

/-- Roots that are woven, or none. -/
def RootsWoven
    (inserted : TFToken → Prop)
    (first second : Option RawTree) : Prop :=
  first = none ∧ second = none ∨
    ∃ tree tree', first = some tree ∧ second = some tree' ∧
      tree.Woven inserted tree'

/-- Steps of two runs that correspond. -/
inductive StepsWoven (inserted : TFToken → Prop) :
    TFStep Unit RawTree → TFStep Unit RawTree → Prop where
  | lex
      {first second : TFParser Unit RawTree}
      (parsers : ParsersWoven inserted first second) :
      StepsWoven inserted (.lex first) (.lex second)
  | act
      {first second : TFParser Unit RawTree}
      {token token' : TFToken}
      (parsers : ParsersWoven inserted first second)
      (keyword : second.lexer.tokenIsKeyword = first.lexer.tokenIsKeyword)
      (symbol : token'.symbol = token.symbol) :
      StepsWoven inserted (.act first token) (.act second token')
  | stop
      {ok : Bool}
      {root root' : Option RawTree}
      {first second : TFParser Unit RawTree}
      (roots : RootsWoven inserted root root')
      (parsers : ParsersWoven inserted first second) :
      StepsWoven inserted (.stop ok root first) (.stop ok root' second)
  | stuck : StepsWoven inserted .stuck .stuck

namespace ParsersWoven

variable {inserted : TFToken → Prop}
variable {first second : TFParser Unit RawTree}

/-- Both stand in the same state. -/
theorem state
    (woven : ParsersWoven inserted first second) :
    second.state = first.state := by
  unfold TFParser.state
  rw [topState_eq_above, topState_eq_above, woven.cells.above_eq]

/-- The accepted roots are woven. -/
theorem acceptedRoot
    (woven : ParsersWoven inserted first second) :
    RootsWoven inserted (TFStep.acceptedRoot first)
      (TFStep.acceptedRoot second) := by
  have bottom :
      ∀ {V : Type} (cells : List (TFCell V)),
        cells[extrasBelow cells]? =
          cells.find? (fun cell => !cell.node.extra) := by
    intro V cells
    induction cells with
    | nil =>
        rfl
    | cons cell rest inductionHypothesis =>
        unfold extrasBelow at inductionHypothesis ⊢
        rw [List.takeWhile_cons, List.find?_cons]
        cases kind : cell.node.extra with
        | true =>
            simpa using inductionHypothesis
        | false =>
            rfl
  have wovenFind :
      ∀ {state : TSStateId} {cells cells' : List (TFCell RawTree)},
        CellsWoven inserted state cells cells' →
          cells.find? (fun cell => !cell.node.extra) = none ∧
              cells'.find? (fun cell => !cell.node.extra) = none ∨
            ∃ cell cell',
              cells.find? (fun cell => !cell.node.extra) = some cell ∧
                cells'.find? (fun cell => !cell.node.extra) =
                  some cell' ∧
                NodeWoven inserted cell.node cell'.node := by
    intro state cells cells' cellsWoven
    induction cellsWoven with
    | nil =>
        exact Or.inl ⟨rfl, rfl⟩
    | @keep _ cell cell' _ _ same sameState rest inductionHypothesis =>
        rw [List.find?_cons, List.find?_cons, same.extra]
        cases cell.node.extra with
        | true =>
            exact inductionHypothesis
        | false =>
            exact Or.inr ⟨cell, cell', rfl, rfl, same⟩
    | added known rest inductionHypothesis =>
        rw [List.find?_cons]
        exact inductionHypothesis
  unfold TFStep.acceptedRoot
  have isBottom := woven.bottomed
  have isBottom' := woven.bottomed'
  unfold Bottomed at isBottom isBottom'
  rw [isBottom, isBottom', bottom, bottom]
  rcases wovenFind woven.cells with
    ⟨isNone, isNone'⟩ | ⟨cell, cell', isCell, isCell', same⟩
  · rw [isNone, isNone']
    exact Or.inl ⟨rfl, rfl⟩
  · rw [isCell, isCell']
    obtain ⟨tree, tree', isTree, isTree', trees⟩ := same.trees
    exact Or.inr ⟨tree, tree', isTree, isTree', trees⟩

/-- Shifting corresponding tokens. -/
theorem shift
    (woven : ParsersWoven inserted first second)
    {token token' : TFToken}
    {extra : Bool}
    {state : TSStateId}
    {after after' : TFParser Unit RawTree}
    (symbol : token'.symbol = token.symbol)
    (shifted : Shifted first token extra state after)
    (shifted' : Shifted second token' extra state after') :
    ParsersWoven inserted after after' where
  cells := by
    rw [shifted.cells, shifted'.cells]
    refine woven.cells.append (.keep ⟨symbol, rfl, ?_⟩ rfl .nil)
    exact ⟨_, _, rfl, rfl, .token symbol.symm⟩
  bottomed := shifted.bottomed woven.bottomed
  bottomed' := shifted'.bottomed woven.bottomed'
  rootEmitted := by
    rw [shifted.rootEmitted, shifted'.rootEmitted]
    exact woven.rootEmitted
  reductions := by
    rw [shifted.events, shifted'.events]
    exact woven.reductions
  supplied := shifted.supplied
  supplied' := shifted'.supplied

/-- Shifting an extra that has been put in. -/
theorem insert
    (woven : ParsersWoven inserted first second)
    {token : TFToken}
    {after : TFParser Unit RawTree}
    (known : inserted token)
    (shifted : Shifted second token true second.state after) :
    ParsersWoven inserted first after where
  cells := by
    rw [shifted.cells]
    have whole := woven.cells.append (.added known .nil)
    rw [List.append_nil, ← topState_eq_above] at whole
    rw [woven.state]
    exact whole
  bottomed := woven.bottomed
  bottomed' := shifted.bottomed woven.bottomed'
  rootEmitted := shifted.rootEmitted.trans woven.rootEmitted
  reductions := by
    rw [shifted.events]
    exact woven.reductions
  supplied := woven.supplied
  supplied' := shifted.supplied

/-- The states reductions lead to are the same. -/
theorem reducedState
    {lang : TFLanguage}
    {childCount childCount' : Nat}
    {cut cut' : Popped RawTree}
    (cuts : CutsAt first.cells childCount cut)
    (cuts' : CutsAt second.cells childCount' cut')
    (cutsWoven : CutsWoven inserted cut cut')
    (symbol : TSSymbol) :
    TFParser.reducedState lang second.cells cut' symbol =
      TFParser.reducedState lang first.cells cut symbol := by
  have parts := cells_of_popped (popped_of_cutsAt cuts)
  have parts' := cells_of_popped (popped_of_cutsAt cuts')
  unfold TFParser.reducedState
  rw [parts, parts', List.append_assoc, List.append_assoc, stateAt_below,
    stateAt_below, cutsWoven.below.above_eq]

/-- Both reductions are the root's, or neither is. -/
theorem isRoot
    (woven : ParsersWoven inserted first second)
    {lang : TFLanguage}
    {childCount : Nat}
    {cut cut' : Popped RawTree}
    (cuts : CutsAt first.cells childCount cut)
    (cuts' : CutsAt second.cells childCount cut')
    (cutsWoven : CutsWoven inserted cut cut')
    {token token' : TFToken}
    (sameSymbol : token'.symbol = token.symbol)
    (state : TSStateId) :
    TFParser.isRoot lang (some token) cut.below.length first.leading state =
          none ∧
        TFParser.isRoot lang (some token') cut'.below.length second.leading
            state =
          none ∨
      TFParser.isRoot lang (some token) cut.below.length first.leading state =
          some token ∧
        TFParser.isRoot lang (some token') cut'.below.length second.leading
            state =
          some token' := by
  have bases :
      cut'.below.length = second.leading ↔
        cut.below.length = first.leading := by
    rw [base_eq_leading_iff woven.bottomed cuts,
      base_eq_leading_iff woven.bottomed' cuts',
      cutsWoven.below.allExtra_iff]
  unfold TFParser.isRoot
  dsimp only
  rw [sameSymbol]
  simp only [bases]
  split
  · exact Or.inr ⟨rfl, rfl⟩
  · exact Or.inl ⟨rfl, rfl⟩

/-- Corresponding reductions hand over corresponding children. -/
theorem reductionMade
    (woven : ParsersWoven inserted first second)
    {lang : TFLanguage}
    {childCount : Nat}
    {cut cut' : Popped RawTree}
    (cuts : CutsAt first.cells childCount cut)
    (cuts' : CutsAt second.cells childCount cut')
    (cutsWoven : CutsWoven inserted cut cut')
    {token token' : TFToken}
    (sameSymbol : token'.symbol = token.symbol)
    (symbol : TSSymbol)
    (productionId : Nat) :
    ReductionWoven inserted
      (TFParser.reductionMade lang first cut symbol childCount productionId
        (some token))
      (TFParser.reductionMade lang second cut' symbol childCount productionId
        (some token')) := by
  unfold TFParser.reductionMade
  rw [ParsersWoven.reducedState cuts cuts' cutsWoven symbol]
  dsimp only
  rcases woven.isRoot cuts cuts' cutsWoven sameSymbol
      (TFParser.reducedState lang first.cells cut symbol) with
    ⟨inner, inner'⟩ | ⟨root, root'⟩
  · rw [inner, inner']
    exact ⟨rfl, rfl, rfl, cutsWoven.children⟩
  · rw [root, root']
    refine ⟨rfl, rfl, rfl, woven.cells.nodes.append (.keep ?_ .nil)⟩
    exact ⟨sameSymbol, rfl, _, _, rfl, rfl, .token sameSymbol.symm⟩

/-- Reducing the same production. -/
theorem reduce
    (woven : ParsersWoven inserted first second)
    {lang : TFLanguage}
    {childCount : Nat}
    {cut cut' : Popped RawTree}
    (cuts : CutsAt first.cells childCount cut)
    (cuts' : CutsAt second.cells childCount cut')
    (cutsWoven : CutsWoven inserted cut cut')
    {token token' : TFToken}
    (sameSymbol : token'.symbol = token.symbol)
    {symbol : TSSymbol}
    {productionId : Nat}
    {after after' : TFParser Unit RawTree}
    (reduced :
      Reduced lang first cut symbol childCount productionId (some token)
        after)
    (reduced' :
      Reduced lang second cut' symbol childCount productionId (some token')
        after') :
    ParsersWoven inserted after after' := by
  have made :
      ReductionWoven inserted
        (TFParser.reductionMade lang first cut symbol childCount
          productionId (some token))
        (TFParser.reductionMade lang second cut' symbol childCount
          productionId (some token')) :=
    woven.reductionMade cuts cuts' cutsWoven sameSymbol symbol productionId
  have state :
      TFParser.reducedState lang second.cells cut' symbol =
        TFParser.reducedState lang first.cells cut symbol :=
    ParsersWoven.reducedState cuts cuts' cutsWoven symbol
  refine ⟨?_, reduced.bottomed cuts woven.bottomed,
    reduced'.bottomed cuts' woven.bottomed', ?_, ?_, reduced.supplied,
    reduced'.supplied⟩
  · rw [reduced.cells, reduced'.cells, state]
    unfold RawStack.placed
    rw [List.append_assoc, List.append_assoc]
    obtain ⟨_, trailing⟩ := cutsWoven.trailing
    refine cutsWoven.below.append
      (.keep ⟨rfl, rfl, _, _, rfl, rfl, ?_⟩ rfl (trailing.restated _))
    unfold RawTree.ofReduction
    rw [made.productionId]
    exact .rule made.symbol.symm made.children.trees
  · rw [reduced.rootEmitted, reduced'.rootEmitted, woven.rootEmitted, state]
    rcases woven.isRoot cuts cuts' cutsWoven sameSymbol
        (TFParser.reducedState lang first.cells cut symbol) with
      ⟨inner, inner'⟩ | ⟨root, root'⟩
    · rw [inner, inner']
    · rw [root, root']
      rfl
  · rw [reduced.events, reduced'.events]
    exact List.rel_append woven.reductions (.cons made .nil)

end ParsersWoven

/-! ## Steps of the main loop -/

/-- Demotion depends on the symbol of a token only. -/
theorem demoteKeyword_congr
    {lang : TFLanguage}
    {state : TSStateId}
    {token token' : TFToken}
    {keyword : Bool}
    (symbol : token'.symbol = token.symbol) :
    token.demoteKeyword lang state keyword = none ∧
        token'.demoteKeyword lang state keyword = none ∨
      ∃ demoted demoted',
        token.demoteKeyword lang state keyword = some demoted ∧
          token'.demoteKeyword lang state keyword = some demoted' ∧
          demoted'.symbol = demoted.symbol := by
  unfold TFToken.demoteKeyword
  rw [symbol]
  dsimp only
  split
  · exact Or.inl ⟨rfl, rfl⟩
  · split
    · exact Or.inl ⟨rfl, rfl⟩
    · split
      · exact Or.inl ⟨rfl, rfl⟩
      · exact Or.inr ⟨_, _, rfl, rfl, rfl⟩

/-- An entry with no conflict. -/
def Decided (lang : TFLanguage) : TFStep Unit RawTree → Prop
  | .act parser token =>
      (lang.actions parser.state token.symbol).length ≤ 1
  | _ => True

section Acting

variable {inserted : TFToken → Prop}
variable {lang : TFLanguage}
variable {fuel : Nat}
variable {first second : TFParser Unit RawTree}
variable {token token' : TFToken}

/-- Failing on corresponding tokens. -/
theorem ParsersWoven.unexpected
    (woven : ParsersWoven inserted first second) :
    StepsWoven inserted
      (TFStep.unexpected (.consumer lang RawTree.sink fuel) first token)
      (TFStep.unexpected (.consumer lang RawTree.sink fuel) second
        token') :=
  .stop (Or.inl ⟨rfl, rfl⟩)
    ⟨woven.cells, woven.bottomed, woven.bottomed', woven.rootEmitted,
      woven.reductions,
      ⟨woven.supplied.reliable, woven.supplied.fits⟩,
      ⟨woven.supplied'.reliable, woven.supplied'.fits⟩⟩

/-- Taking the same action. -/
theorem ParsersWoven.action
    (woven : ParsersWoven inserted first second)
    (keyword : second.lexer.tokenIsKeyword = first.lexer.tokenIsKeyword)
    (symbol : token'.symbol = token.symbol)
    (action : TSParseAction) :
    StepsWoven inserted
      (TFStep.actionStep (.consumer lang RawTree.sink fuel) first token
        action)
      (TFStep.actionStep (.consumer lang RawTree.sink fuel) second token'
        action) := by
  cases action with
  | shift target extra repetition =>
      simp only [TFStep.actionStep, TFRunEnv.consumer]
      rw [woven.state]
      generalize (if extra = true then first.state else target) = state
      obtain ⟨after, run, shifted⟩ :=
        shift_supplied woven.supplied token extra state
      obtain ⟨after', run', shifted'⟩ :=
        shift_supplied woven.supplied' token' extra state
      simp only [run, run', if_true]
      exact .lex (woven.shift symbol shifted shifted')
  | reduce childCount production precedence productionId =>
      simp only [TFStep.actionStep, TFRunEnv.consumer]
      by_cases enough : childCount ≤ structural first.cells
      · obtain ⟨cut, cuts⟩ := exists_cutsAt enough
        obtain ⟨cut', cuts', cutsWoven⟩ := woven.cells.cuts cuts
        obtain ⟨after, run, reduced⟩ :
            ∃ after, first.reduce RawTree.sink lang _ _ _ _ = _ ∧ _ :=
          reduce_supplied woven.supplied cuts production productionId
            (some token)
        obtain ⟨after', run', reduced'⟩ :
            ∃ after', second.reduce RawTree.sink lang _ _ _ _ = _ ∧ _ :=
          reduce_supplied woven.supplied' cuts' production productionId
            (some token')
        rw [run, run']
        refine .act (woven.reduce cuts cuts' cutsWoven symbol reduced
          reduced') ?_ symbol
        rw [reduced.lexer, reduced'.lexer]
        exact keyword
      · have few : structural first.cells < childCount :=
          Nat.lt_of_not_le enough
        have few' : structural second.cells < childCount := by
          rw [woven.cells.structural_eq]
          exact few
        rw [reduce_stuck few, reduce_stuck few']
        exact .stuck
  | accept =>
      exact .stop woven.acceptedRoot woven
  | recover =>
      exact woven.unexpected

/-- Acting on corresponding tokens, where there is no conflict. -/
theorem ParsersWoven.act
    (woven : ParsersWoven inserted first second)
    (keyword : second.lexer.tokenIsKeyword = first.lexer.tokenIsKeyword)
    (symbol : token'.symbol = token.symbol)
    (decided : Decided lang (.act first token)) :
    StepsWoven inserted
      (TFStep.actStep (.consumer lang RawTree.sink fuel) first token)
      (TFStep.actStep (.consumer lang RawTree.sink fuel) second token') := by
  unfold TFStep.actStep
  rw [woven.state, symbol, keyword]
  dsimp only [Decided] at decided
  dsimp only [TFRunEnv.consumer]
  cases entry : lang.actions first.state token.symbol with
  | nil =>
      have demotes :=
        @demoteKeyword_congr lang first.state token token'
          first.lexer.tokenIsKeyword symbol
      rcases demotes with
        ⟨none, none'⟩ | ⟨demoted, demoted', some_, some', same⟩
      · rw [none, none']
        exact woven.unexpected
      · rw [some_, some']
        exact .act woven keyword same
  | cons action rest =>
      cases rest with
      | nil =>
          exact woven.action keyword symbol action
      | cons other others =>
          rw [entry] at decided
          simp at decided

end Acting

/-! ## Whole runs -/

/-- The only action on a token is to shift it as an extra. -/
def OnlyExtra (lang : TFLanguage) (state : TSStateId) (token : TFToken) :
    Prop :=
  ∃ target repetition,
    lang.actions state token.symbol = [.shift target true repetition]

/-- A run without conflicts, on whose way the tokens put in are extras. -/
structure Smooth
    (inserted : TFToken → Prop)
    (lang : TFLanguage)
    (fuel : Nat)
    (current : TFStep Unit RawTree × List Lexeme) : Prop where
  decided :
    ∀ count,
      Decided lang
        (TFStep.feeds (.consumer lang RawTree.sink fuel) count current).1
  extras :
    ∀ count parser rest,
      TFStep.feeds (.consumer lang RawTree.sink fuel) count current =
          (.lex parser, rest) →
        ∀ token, inserted token → OnlyExtra lang parser.state token

/-- A smooth run stays smooth. -/
theorem Smooth.feed
    {inserted : TFToken → Prop}
    {lang : TFLanguage}
    {fuel : Nat}
    {current : TFStep Unit RawTree × List Lexeme}
    (smooth : Smooth inserted lang fuel current) :
    Smooth inserted lang fuel
      (TFStep.feed (.consumer lang RawTree.sink fuel) current) :=
  ⟨fun count => smooth.decided (count + 1),
    fun count => smooth.extras (count + 1)⟩

/-- A smooth run is smooth from any of its steps on. -/
theorem Smooth.after
    {inserted : TFToken → Prop}
    {lang : TFLanguage}
    {fuel : Nat}
    {current : TFStep Unit RawTree × List Lexeme}
    (smooth : Smooth inserted lang fuel current)
    (count : Nat) :
    Smooth inserted lang fuel
      (TFStep.feeds (.consumer lang RawTree.sink fuel) count current) := by
  induction count generalizing current with
  | zero =>
      exact smooth
  | succ count inductionHypothesis =>
      exact inductionHypothesis smooth.feed

/-- Where two runs stand when one has had extras put in. -/
inductive Follows (inserted : TFToken → Prop) :
    TFStep Unit RawTree × List Lexeme →
      TFStep Unit RawTree × List Lexeme → Prop where
  | woven
      {step step' : TFStep Unit RawTree}
      {rest rest' : List Lexeme}
      (steps : StepsWoven inserted step step')
      (tokens : Interspersed inserted rest rest') :
      Follows inserted (step, rest) (step', rest')
  /-- The second run is about to shift an extra that was put in. -/
  | inserting
      {first second : TFParser Unit RawTree}
      {token : TFToken}
      {rest rest' : List Lexeme}
      (parsers : ParsersWoven inserted first second)
      (known : inserted token)
      (tokens : Interspersed inserted rest rest') :
      Follows inserted (.lex first, rest) (.act second token, rest')

/-- How many steps the extras put in can still take. -/
def pending : TFStep Unit RawTree × List Lexeme → Nat
  | (.act _ _, rest) => 2 * rest.length + 1
  | (_, rest) => 2 * rest.length

section Following

variable {inserted : TFToken → Prop}
variable {lang : TFLanguage}
variable {fuel : Nat}
variable {current current' : TFStep Unit RawTree × List Lexeme}

/-- A lexer's flag does not matter to what is woven. -/
theorem ParsersWoven.flagged
    {first second : TFParser Unit RawTree}
    (woven : ParsersWoven inserted first second)
    (lexer lexer' : TFLexer) :
    ParsersWoven inserted { first with lexer := lexer }
      { second with lexer := lexer' } :=
  ⟨woven.cells, woven.bottomed, woven.bottomed', woven.rootEmitted,
    woven.reductions, ⟨woven.supplied.reliable, woven.supplied.fits⟩,
    ⟨woven.supplied'.reliable, woven.supplied'.fits⟩⟩

/-- Shifting an extra that was put in leaves the runs woven. -/
theorem ParsersWoven.inserts
    {first second : TFParser Unit RawTree}
    {token : TFToken}
    (woven : ParsersWoven inserted first second)
    (known : inserted token)
    (only : OnlyExtra lang first.state token) :
    ∃ after,
      TFStep.actStep (.consumer lang RawTree.sink fuel) second token =
          .lex after ∧
        ParsersWoven inserted first after := by
  obtain ⟨target, repetition, entry⟩ := only
  obtain ⟨after, run, shifted⟩ :=
    shift_supplied woven.supplied' token true second.state
  refine ⟨after, ?_, woven.insert known shifted⟩
  unfold TFStep.actStep
  rw [woven.state]
  dsimp only [TFRunEnv.consumer]
  rw [entry]
  dsimp only
  simp only [TFStep.actionStep, if_true, run]

/-- One step of the second run: the first takes it too, or an extra goes by. -/
theorem Follows.feed
    (follows : Follows inserted current current')
    (smooth : Smooth inserted lang fuel current) :
    Follows inserted
        (TFStep.feed (.consumer lang RawTree.sink fuel) current)
        (TFStep.feed (.consumer lang RawTree.sink fuel) current') ∨
      Follows inserted current
          (TFStep.feed (.consumer lang RawTree.sink fuel) current') ∧
        pending (TFStep.feed (.consumer lang RawTree.sink fuel) current') <
          pending current' := by
  cases follows with
  | @inserting first second token rest rest' parsers known tokens =>
      have only := smooth.extras 0 _ _ rfl token known
      obtain ⟨after, acted, woven⟩ := parsers.inserts known only
      have fed :
          TFStep.feed (.consumer lang RawTree.sink fuel)
              (.act second token, rest') = (.lex after, rest') :=
        congrArg (fun step => (step, rest')) acted
      rw [fed]
      exact Or.inr ⟨.woven (.lex woven) tokens, Nat.lt_succ_self _⟩
  | woven steps tokens =>
      cases steps with
      | lex parsers =>
          cases tokens with
          | nil =>
              exact Or.inl (.woven (.lex parsers) .nil)
          | keep symbol later =>
              exact Or.inl
                (.woven (.act (parsers.flagged _ _) rfl symbol) later)
          | added known later =>
              refine Or.inr ⟨.inserting (parsers.flagged _ _) known later,
                ?_⟩
              exact Nat.lt_succ_self _
      | act parsers keyword symbol =>
          exact Or.inl
            (.woven (parsers.act keyword symbol (smooth.decided 0)) tokens)
      | stop roots parsers =>
          exact Or.inl (.woven (.stop roots parsers) tokens)
      | stuck =>
          exact Or.inl (.woven .stuck tokens)

/-- The second run has no conflict where the first has none. -/
theorem Follows.decided
    (follows : Follows inserted current current')
    (smooth : Smooth inserted lang fuel current) :
    Decided lang current'.1 := by
  cases follows with
  | inserting parsers known tokens =>
      obtain ⟨target, repetition, entry⟩ :=
        smooth.extras 0 _ _ rfl _ known
      dsimp only [Decided]
      rw [parsers.state, entry]
      exact Nat.le_refl _
  | woven steps tokens =>
      cases steps with
      | lex parsers =>
          trivial
      | act parsers keyword symbol =>
          have decided := smooth.decided 0
          dsimp only [Decided, TFStep.feeds] at decided ⊢
          rw [parsers.state, symbol]
          exact decided
      | stop roots parsers =>
          trivial
      | stuck =>
          trivial

/-- Every step of the second run follows a step of the first. -/
theorem Follows.feeds
    (follows : Follows inserted current current')
    (smooth : Smooth inserted lang fuel current)
    (count : Nat) :
    ∃ reached,
      Follows inserted
          (TFStep.feeds (.consumer lang RawTree.sink fuel) reached current)
          (TFStep.feeds (.consumer lang RawTree.sink fuel) count
            current') := by
  induction count generalizing current current' with
  | zero =>
      exact ⟨0, follows⟩
  | succ count inductionHypothesis =>
      rcases follows.feed smooth with both | ⟨only, _⟩
      · obtain ⟨reached, later⟩ := inductionHypothesis both smooth.feed
        exact ⟨reached + 1, later⟩
      · exact inductionHypothesis only smooth

/-- The second run takes the next step of the first in the end. -/
theorem Follows.catches
    (follows : Follows inserted current current')
    (smooth : Smooth inserted lang fuel current) :
    ∃ count,
      Follows inserted
        (TFStep.feed (.consumer lang RawTree.sink fuel) current)
        (TFStep.feeds (.consumer lang RawTree.sink fuel) (count + 1)
          current') := by
  induction size : pending current' using Nat.strongRecOn
    generalizing current' with
  | ind size inductionHypothesis =>
      rcases follows.feed smooth with both | ⟨only, less⟩
      · exact ⟨0, both⟩
      · rw [size] at less
        obtain ⟨count, later⟩ := inductionHypothesis _ less only rfl
        exact ⟨count + 1, later⟩

/-- The second run takes every step of the first, and none ahead of it. -/
theorem Follows.reaches
    (follows : Follows inserted current current')
    (smooth : Smooth inserted lang fuel current)
    (count : Nat) :
    ∃ reached, count ≤ reached ∧
      Follows inserted
        (TFStep.feeds (.consumer lang RawTree.sink fuel) count current)
        (TFStep.feeds (.consumer lang RawTree.sink fuel) reached
          current') := by
  induction count generalizing current current' with
  | zero =>
      exact ⟨0, Nat.le_refl 0, follows⟩
  | succ count inductionHypothesis =>
      obtain ⟨caught, next⟩ := follows.catches smooth
      obtain ⟨reached, atLeast, later⟩ :=
        inductionHypothesis next smooth.feed
      refine ⟨caught + 1 + reached, by omega, ?_⟩
      rw [TFStep.feeds_add _ (caught + 1) reached]
      exact later

end Following

end TFParser

end TreeFeller
