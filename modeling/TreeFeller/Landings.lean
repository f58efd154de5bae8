import TreeFeller.ExtraPlaces
import TreeFeller.SmallTables

namespace TreeFeller

/-!
# Where a run's extras land

What holds at every step of a run without conflicts: each token consumed is a
leaf of one tree on the stack, and the reductions of these trees are the
reductions made.  The root's reduction takes all of it.
-/

namespace TFParser

/-- The tree of an accepted root over the tokens consumed, its end included. -/
structure RootedOver
    (inserted : TFToken → Prop)
    (lang : TFLanguage)
    (consumed : List Lexeme)
    (parser : TFParser Unit RawTree)
    (tree : RawTree) : Prop where
  root : TFStep.acceptedRoot parser = some tree
  leaves : List.Forall₂ (Delivers inserted lang) consumed tree.leaves
  rules :
    (reductions parser.events).map RawTree.ofReduction = tree.rules
  trimmed : ∀ child ∈ tree.children, child.Trimmed

section Roots

variable {inserted : TFToken → Prop}
variable {lang : TFLanguage}
variable {consumed : List Lexeme}
variable {before after : TFParser Unit RawTree}
variable {childCount : Nat}
variable {cut : Popped RawTree}

/-- A reduction leaves its state on top. -/
theorem Reduced.state
    {symbol : TSSymbol}
    {productionId : Nat}
    {lookahead : Option TFToken}
    (reduced :
      Reduced lang before cut symbol childCount productionId lookahead
        after) :
    after.state = reducedState lang before.cells cut symbol := by
  unfold TFParser.state
  rw [reduced.cells, topState_eq_above]
  unfold RawStack.placed
  rw [above_append, above_append]
  generalize cut.trailing = trailing
  induction trailing with
  | nil =>
      rfl
  | cons cell rest inductionHypothesis =>
      exact inductionHypothesis

/-- The root's reduction takes the whole stack and the end of the input. -/
theorem Stacked.root
    {symbol : TSSymbol}
    {productionId : Nat}
    {lexeme : Lexeme}
    {token : TFToken}
    (stacked : Stacked inserted lang consumed before)
    (cuts : CutsAt before.cells childCount cut)
    (delivers : Delivers inserted lang lexeme (token, true))
    (reduced :
      Reduced lang before cut symbol childCount productionId (some token)
        after)
    (whole :
      isRoot lang (some token) cut.below.length before.leading
        (reducedState lang before.cells cut symbol) = some token)
    (bottom : cut.below.length = before.leading) :
    Layered lang startState after.cells ∧
      ∃ tree,
        RootedOver inserted lang (consumed ++ [lexeme]) after tree := by
  have made :
      reductionMade lang before cut symbol childCount productionId
          (some token) =
        rootReduction before.cells
          (reductionOf before.cells cut.children symbol childCount
            productionId)
          token (some (.token token true)) := by
    unfold reductionMade
    rw [whole]
  let tree : RawTree :=
    RawTree.ofReduction
      (rootReduction before.cells
        (reductionOf before.cells cut.children symbol childCount
          productionId)
        token (some (.token token true)))
  have children :
      tree.children = treesOf before.cells ++ [.token token true] := by
    change List.filterMap TFNode.value
      (before.cells.map TFCell.node ++ [_]) = _
    rw [List.filterMap_append]
    rfl
  have shape :
      ∃ at_ production, tree = .rule at_ production tree.children :=
    ⟨_, _, rfl⟩
  obtain ⟨at_, production, isRule⟩ := shape
  have cellsAfter := reduced.cells
  rw [made] at cellsAfter
  refine ⟨?_, tree, ?_, ?_, ?_, ?_⟩
  · rw [cellsAfter]
    exact stacked.placed cuts rfl rfl
  · unfold TFStep.acceptedRoot
    rw [reduced.leading, cellsAfter, ← bottom]
    unfold RawStack.placed
    rw [List.append_assoc, List.getElem?_append_right (Nat.le_refl _),
      Nat.sub_self]
    rfl
  · rw [isRule, RawTree.leaves, children, RawTree.leavesAll_append]
    exact List.rel_append stacked.leaves (.cons delivers .nil)
  · rw [reduced.events, made, List.map_append, stacked.rules]
    conv_rhs => rw [isRule, RawTree.rules, children,
      RawTree.rulesAll_append]
    rw [← children, ← isRule]
    simp [RawTree.rulesAll, RawTree.rules, tree]
  · rw [children]
    intro child member
    rcases List.mem_append.mp member with old | new
    · exact stacked.trimmed child old
    · rw [List.mem_singleton.mp new]
      exact .token

end Roots

/-! ## Steps -/

/-- A token that is being acted on, and the lexeme it came from. -/
structure Acting
    (inserted : TFToken → Prop)
    (lang : TFLanguage)
    (parser : TFParser Unit RawTree)
    (lexeme : Lexeme)
    (token : TFToken) : Prop where
  origin :
    token = lexeme.1 ∨
      token = { lexeme.1 with symbol := lang.ts.keywordCaptureToken }
  only :
    inserted lexeme.1 → token = lexeme.1 ∧ OnlyExtra lang parser.state token

/-- A run over some tokens, and where those it has consumed are. -/
inductive Grounded
    (inserted : TFToken → Prop)
    (lang : TFLanguage)
    (tokens : List Lexeme) :
    TFStep Unit RawTree × List Lexeme → Prop where
  | lex
      {parser : TFParser Unit RawTree}
      {consumed rest : List Lexeme}
      (parts : tokens = consumed ++ rest)
      (stacked : Stacked inserted lang consumed parser)
      (rootless : parser.rootEmitted = false) :
      Grounded inserted lang tokens (.lex parser, rest)
  | act
      {parser : TFParser Unit RawTree}
      {consumed rest : List Lexeme}
      {lexeme : Lexeme}
      {token : TFToken}
      (parts : tokens = consumed ++ lexeme :: rest)
      (stacked : Stacked inserted lang consumed parser)
      (rootless : parser.rootEmitted = false)
      (acting : Acting inserted lang parser lexeme token) :
      Grounded inserted lang tokens (.act parser token, rest)
  /-- The root has been reduced, which leaves nothing but to accept it. -/
  | reduced
      {parser : TFParser Unit RawTree}
      {consumed rest : List Lexeme}
      {token : TFToken}
      {tree : RawTree}
      (parts : tokens = consumed ++ rest)
      (layered : Layered lang startState parser.cells)
      (rooted : RootedOver inserted lang consumed parser tree)
      (emitted : parser.rootEmitted = true)
      (entry : lang.actions parser.state token.symbol = [.accept]) :
      Grounded inserted lang tokens (.act parser token, rest)
  | stop
      {ok : Bool}
      {root : Option RawTree}
      {parser : TFParser Unit RawTree}
      {consumed rest : List Lexeme}
      {lexeme : Lexeme}
      (parts : tokens = consumed ++ lexeme :: rest)
      (stacked : Stacked inserted lang consumed parser)
      (rootless : parser.rootEmitted = false) :
      Grounded inserted lang tokens (.stop ok root parser, rest)
  | accepted
      {parser : TFParser Unit RawTree}
      {consumed rest : List Lexeme}
      {tree : RawTree}
      (parts : tokens = consumed ++ rest)
      (layered : Layered lang startState parser.cells)
      (rooted : RootedOver inserted lang consumed parser tree)
      (emitted : parser.rootEmitted = true) :
      Grounded inserted lang tokens (.stop true (some tree) parser, rest)
  | stuck
      {rest : List Lexeme} :
      Grounded inserted lang tokens (.stuck, rest)

section Steps

variable {inserted : TFToken → Prop}
variable {lang : TFLanguage}
variable {fuel : Nat}
variable {tokens consumed rest : List Lexeme}
variable {lexeme : Lexeme}
variable {token : TFToken}
variable {parser : TFParser Unit RawTree}

/-- An extra that was put in is only shifted. -/
theorem Acting.not_inserted
    (acting : Acting inserted lang parser lexeme token)
    {actions : List TSParseAction}
    (entry : lang.actions parser.state token.symbol = actions)
    (other : ∀ target repetition, actions ≠ [.shift target true repetition]) :
    ¬ inserted lexeme.1 := by
  intro known
  obtain ⟨_, target, repetition, only⟩ := acting.only known
  exact other target repetition (entry.symm.trans only)

/-- Failing leaves the stack and its tokens. -/
theorem Grounded.unexpected
    (parts : tokens = consumed ++ lexeme :: rest)
    (stacked : Stacked inserted lang consumed parser)
    (rootless : parser.rootEmitted = false) :
    Grounded inserted lang tokens
      (TFStep.unexpected (.consumer lang RawTree.sink fuel) parser token,
        rest) :=
  .stop parts
    ⟨stacked.layered, stacked.bottomed,
      ⟨stacked.supplied.reliable, stacked.supplied.fits⟩, stacked.leaves,
      stacked.rules, stacked.trimmed⟩
    rootless

/-- Reducing, below the root or to it. -/
theorem Grounded.reduce
    (loaded : lang.Loaded)
    (parts : tokens = consumed ++ lexeme :: rest)
    (stacked : Stacked inserted lang consumed parser)
    (rootless : parser.rootEmitted = false)
    (acting : Acting inserted lang parser lexeme token)
    (notInserted : ¬ inserted lexeme.1)
    {childCount : Nat}
    {cut : Popped RawTree}
    (cuts : CutsAt parser.cells childCount cut)
    {symbol : TSSymbol}
    {productionId : Nat}
    {after : TFParser Unit RawTree}
    (reduced :
      Reduced lang parser cut symbol childCount productionId (some token)
        after) :
    Grounded inserted lang tokens (.act after token, rest) := by
  have emitted := reduced.rootEmitted
  rw [rootless, Bool.false_or] at emitted
  cases whole :
      isRoot lang (some token) cut.below.length parser.leading
        (reducedState lang parser.cells cut symbol) with
  | none =>
      rw [whole] at emitted
      refine .act parts (stacked.reduce cuts reduced whole) emitted
        ⟨acting.origin, ?_⟩
      intro known
      exact absurd known notInserted
  | some found =>
      rw [whole] at emitted
      have reads := whole
      unfold isRoot at reads
      dsimp only at reads
      split at reads
      · rename_i conditions
        obtain ⟨isEnd, bottom, accepts⟩ := conditions
        cases reads
        have delivers : Delivers inserted lang lexeme (token, true) :=
          ⟨acting.origin, fun known => absurd known notInserted⟩
        obtain ⟨layered, tree, rooted⟩ :=
          stacked.root cuts delivers reduced whole bottom
        refine .reduced ?_ layered rooted emitted ?_
        · rw [parts]
          simp
        · rw [reduced.state, isEnd]
          exact loaded.actions_of_acceptsEnd accepts
      · cases reads

/-- Taking the one action of an entry. -/
theorem Grounded.action
    (loaded : lang.Loaded)
    (parts : tokens = consumed ++ lexeme :: rest)
    (stacked : Stacked inserted lang consumed parser)
    (rootless : parser.rootEmitted = false)
    (acting : Acting inserted lang parser lexeme token)
    {action : TSParseAction}
    (entry : lang.actions parser.state token.symbol = [action]) :
    Grounded inserted lang tokens
      (TFStep.actionStep (.consumer lang RawTree.sink fuel) parser token
        action, rest) := by
  cases action with
  | shift target extra repetition =>
      simp only [TFStep.actionStep, TFRunEnv.consumer]
      obtain ⟨after, run, shifted⟩ :=
        shift_supplied stacked.supplied token extra
          (if extra = true then parser.state else target)
      simp only [run, if_true]
      have delivers : Delivers inserted lang lexeme (token, extra) := by
        refine ⟨acting.origin, ?_⟩
        intro known
        obtain ⟨same, target', repetition', only⟩ := acting.only known
        rw [entry] at only
        cases only
        rw [same]
      refine .lex ?_ (stacked.shift delivers entry shifted) ?_
      · rw [parts]
        simp
      · rw [shifted.rootEmitted]
        exact rootless
  | reduce childCount symbol precedence productionId =>
      simp only [TFStep.actionStep, TFRunEnv.consumer]
      by_cases enough : childCount ≤ structural parser.cells
      · obtain ⟨cut, cuts⟩ := exists_cutsAt enough
        obtain ⟨after, run, reduced⟩ :
            ∃ after, parser.reduce RawTree.sink lang _ _ _ _ = _ ∧ _ :=
          reduce_supplied stacked.supplied cuts symbol productionId
            (some token)
        rw [run]
        apply Grounded.reduce loaded parts stacked rootless acting
          (acting.not_inserted entry (by simp)) cuts reduced
      · rw [reduce_stuck (Nat.lt_of_not_le enough)]
        exact .stuck
  | accept =>
      exact .stop parts stacked rootless
  | recover =>
      exact Grounded.unexpected parts stacked rootless

/-- A demoted keyword is the word token. -/
theorem Grounded.demoted
    (parts : tokens = consumed ++ lexeme :: rest)
    (stacked : Stacked inserted lang consumed parser)
    (rootless : parser.rootEmitted = false)
    (acting : Acting inserted lang parser lexeme token)
    (entry : lang.actions parser.state token.symbol = [])
    {keyword : Bool}
    {next : TFToken}
    (demotes :
      token.demoteKeyword lang parser.state keyword = some next) :
    Grounded inserted lang tokens (.act parser next, rest) := by
  refine .act parts stacked rootless ⟨?_, ?_⟩
  · unfold TFToken.demoteKeyword at demotes
    dsimp only at demotes
    split_ifs at demotes
    cases demotes
    rcases acting.origin with same | same
    · exact Or.inr (by rw [same])
    · exact Or.inr (by rw [same])
  · intro known
    exact absurd known (acting.not_inserted entry (by simp))

/-- One step. -/
theorem Grounded.feed
    {current : TFStep Unit RawTree × List Lexeme}
    (loaded : lang.Loaded)
    (grounded : Grounded inserted lang tokens current)
    (smooth : Smooth inserted lang fuel current) :
    Grounded inserted lang tokens
      (TFStep.feed (.consumer lang RawTree.sink fuel) current) := by
  cases grounded with
  | @lex parser consumed rest parts stacked rootless =>
      cases rest with
      | nil =>
          exact .lex parts stacked rootless
      | cons lexeme rest =>
          refine .act parts
            ⟨stacked.layered, stacked.bottomed,
              ⟨stacked.supplied.reliable, stacked.supplied.fits⟩,
              stacked.leaves, stacked.rules, stacked.trimmed⟩
            rootless ⟨Or.inl rfl, ?_⟩
          intro known
          exact ⟨rfl, smooth.extras 0 _ _ rfl _ known⟩
  | @act parser consumed rest lexeme token parts stacked rootless acting =>
      have decided := smooth.decided 0
      dsimp only [Decided, TFStep.feeds] at decided
      dsimp only [TFStep.feed, TFStep.step]
      unfold TFStep.actStep
      dsimp only [TFRunEnv.consumer]
      cases entry : lang.actions parser.state token.symbol with
      | nil =>
          dsimp only
          cases demotes :
              token.demoteKeyword lang parser.state
                parser.lexer.tokenIsKeyword with
          | none =>
              exact Grounded.unexpected parts stacked rootless
          | some next =>
              exact Grounded.demoted parts stacked rootless acting entry
                demotes
      | cons action others =>
          cases others with
          | nil =>
              exact Grounded.action loaded parts stacked rootless acting
                entry
          | cons second more =>
              rw [entry] at decided
              simp at decided
  | @reduced parser consumed rest token tree parts layered rooted emitted
      entry =>
      dsimp only [TFStep.feed, TFStep.step]
      unfold TFStep.actStep
      dsimp only [TFRunEnv.consumer]
      rw [entry]
      dsimp only [TFStep.actionStep]
      rw [rooted.root]
      exact .accepted parts layered rooted emitted
  | stop parts stacked rootless =>
      exact .stop parts stacked rootless
  | accepted parts layered rooted emitted =>
      exact .accepted parts layered rooted emitted
  | stuck =>
      exact .stuck

/-- A whole run. -/
theorem Grounded.feeds
    {current : TFStep Unit RawTree × List Lexeme}
    (loaded : lang.Loaded)
    (grounded : Grounded inserted lang tokens current)
    (smooth : Smooth inserted lang fuel current)
    (count : Nat) :
    Grounded inserted lang tokens
      (TFStep.feeds (.consumer lang RawTree.sink fuel) count current) := by
  induction count generalizing current with
  | zero =>
      exact grounded
  | succ count inductionHypothesis =>
      exact inductionHypothesis (grounded.feed loaded smooth) smooth.feed

end Steps

end TFParser

/-! ## What a step shows -/

namespace TFStep

/-- The parser of a step; a run that is stuck has none. -/
def parser? {σ V : Type} : TFStep σ V → Option (TFParser σ V)
  | .lex parser => some parser
  | .act parser _ => some parser
  | .stop _ _ parser => some parser
  | .stuck => none

/-- Whether a run has stopped, and whether it then accepted. -/
def verdict {σ V : Type} : TFStep σ V → Option Bool
  | .stop ok _ _ => some ok
  | _ => none

/-- The root that a run stored. -/
def root? {σ V : Type} : TFStep σ V → Option V
  | .stop _ root _ => root
  | _ => none

/-- The reductions a run has made. -/
def made {σ V : Type} (current : TFStep σ V) : List (TFReduction V) :=
  (current.parser?.map (fun parser => reductions parser.events)).getD []

end TFStep

/-- A reduction, and the same with extras among its children. -/
structure SameReduction
    (inserted : TFToken → Prop)
    (first second : TFReduction RawTree) : Prop where
  symbol : second.symbol = first.symbol
  productionId : second.productionId = first.productionId
  childCount : second.childCount = first.childCount
  children :
    List.Forall₂ (NodeWoven inserted)
      (first.children.filter (fun node => !node.extra))
      (second.children.filter (fun node => !node.extra))

/-- Two runs at corresponding steps. -/
structure StepsAlike
    (inserted : TFToken → Prop)
    (first second : TFStep Unit RawTree) : Prop where
  stuck : second = .stuck ↔ first = .stuck
  verdict : second.verdict = first.verdict
  roots : TFParser.RootsWoven inserted first.root? second.root?
  made : List.Forall₂ (SameReduction inserted) first.made second.made

/-- The children that are no extras correspond one to one. -/
theorem NodesWoven.structural
    {inserted : TFToken → Prop}
    {nodes nodes' : List (TFNode RawTree)}
    (woven : NodesWoven inserted nodes nodes') :
    List.Forall₂ (NodeWoven inserted)
      (nodes.filter (fun node => !node.extra))
      (nodes'.filter (fun node => !node.extra)) := by
  induction woven with
  | nil =>
      exact .nil
  | @keep node node' _ _ same rest inductionHypothesis =>
      rw [List.filter_cons, List.filter_cons, same.extra]
      split
      · exact .cons same inductionHypothesis
      · exact inductionHypothesis
  | added known rest inductionHypothesis =>
      exact inductionHypothesis

namespace TFParser

/-- Woven parsers have made the same reductions. -/
theorem ParsersWoven.sameReductions
    {inserted : TFToken → Prop}
    {first second : TFParser Unit RawTree}
    (woven : ParsersWoven inserted first second) :
    List.Forall₂ (SameReduction inserted)
      (TreeFeller.reductions first.events)
      (TreeFeller.reductions second.events) :=
  woven.reductions.imp (fun _ _ same =>
    ⟨same.symbol, same.productionId, same.childCount,
      same.children.structural⟩)

/-- Runs that follow each other show the same. -/
theorem Follows.alike
    {inserted : TFToken → Prop}
    {current current' : TFStep Unit RawTree × List Lexeme}
    (follows : Follows inserted current current') :
    StepsAlike inserted current.1 current'.1 := by
  cases follows with
  | inserting parsers known tokens =>
      exact ⟨⟨nofun, nofun⟩, rfl, Or.inl ⟨rfl, rfl⟩,
        parsers.sameReductions⟩
  | woven steps tokens =>
      cases steps with
      | lex parsers =>
          exact ⟨⟨nofun, nofun⟩, rfl, Or.inl ⟨rfl, rfl⟩,
            parsers.sameReductions⟩
      | act parsers keyword symbol =>
          exact ⟨⟨nofun, nofun⟩, rfl, Or.inl ⟨rfl, rfl⟩,
            parsers.sameReductions⟩
      | stop roots parsers =>
          exact ⟨⟨nofun, nofun⟩, rfl, roots, parsers.sameReductions⟩
      | stuck =>
          exact ⟨Iff.rfl, rfl, Or.inl ⟨rfl, rfl⟩, .nil⟩

/-- A run that follows a smooth one is smooth. -/
theorem Follows.smooth
    {inserted : TFToken → Prop}
    {lang : TFLanguage}
    {fuel : Nat}
    {current current' : TFStep Unit RawTree × List Lexeme}
    (follows : Follows inserted current current')
    (smooth : Smooth inserted lang fuel current) :
    Smooth inserted lang fuel current' where
  decided := by
    intro count
    obtain ⟨reached, later⟩ := follows.feeds smooth count
    exact later.decided (smooth.after reached)
  extras := by
    intro count parser rest at_ token known
    obtain ⟨reached, later⟩ := follows.feeds smooth count
    rw [at_] at later
    generalize step :
      TFStep.feeds (.consumer lang RawTree.sink fuel) reached current =
        stands at later
    cases later with
    | woven steps tokens =>
        cases steps with
        | lex parsers =>
            rw [parsers.state]
            exact smooth.extras reached _ _ step token known

/-! ## Where extras are -/

/--
Where the tokens consumed by a run are: leaves of the trees on the stack, or of
the root that took them all.
-/
structure Landed
    (inserted : TFToken → Prop)
    (lang : TFLanguage)
    (tokens : List Lexeme)
    (parser : TFParser Unit RawTree) : Prop where
  layered : Layered lang startState parser.cells
  places :
    ∃ consumed ahead forest,
      tokens = consumed ++ ahead ∧
        List.Forall₂ (Delivers inserted lang) consumed
          (RawTree.leavesAll forest) ∧
        (reductions parser.events).map RawTree.ofReduction =
          RawTree.rulesAll forest ∧
        (parser.rootEmitted = false →
          forest = treesOf parser.cells ∧
            ∀ tree ∈ forest, tree.ExtrasDeepest) ∧
        (parser.rootEmitted = true →
          ∃ tree, forest = [tree] ∧
            TFStep.acceptedRoot parser = some tree ∧
            tree.ExtrasDeepestOrRoot)

/-- A stack over its tokens has them in its trees. -/
theorem Stacked.landed
    {inserted : TFToken → Prop}
    {lang : TFLanguage}
    {tokens consumed ahead : List Lexeme}
    {parser : TFParser Unit RawTree}
    (parts : tokens = consumed ++ ahead)
    (stacked : Stacked inserted lang consumed parser)
    (rootless : parser.rootEmitted = false) :
    Landed inserted lang tokens parser := by
  refine ⟨stacked.layered, consumed, ahead, treesOf parser.cells, parts,
    stacked.leaves, stacked.rules, ?_, ?_⟩
  · intro _
    refine ⟨rfl, ?_⟩
    intro tree member
    exact (stacked.trimmed tree member).extrasDeepest
  · intro emitted
    rw [rootless] at emitted
    cases emitted

/-- A root has them below it. -/
theorem RootedOver.landed
    {inserted : TFToken → Prop}
    {lang : TFLanguage}
    {tokens consumed ahead : List Lexeme}
    {parser : TFParser Unit RawTree}
    {tree : RawTree}
    (parts : tokens = consumed ++ ahead)
    (layered : Layered lang startState parser.cells)
    (rooted : RootedOver inserted lang consumed parser tree)
    (emitted : parser.rootEmitted = true) :
    Landed inserted lang tokens parser := by
  refine ⟨layered, consumed, ahead, [tree], parts, ?_, ?_, ?_, ?_⟩
  · rw [RawTree.leavesAll, RawTree.leavesAll, List.append_nil]
    exact rooted.leaves
  · rw [RawTree.rulesAll, RawTree.rulesAll, List.append_nil]
    exact rooted.rules
  · intro rootless
    rw [emitted] at rootless
    cases rootless
  · intro _
    exact ⟨tree, rfl, rooted.root,
      RawTree.extrasDeepestOrRoot_of_trimmed rooted.trimmed⟩

/-- Every step of a run shows where its tokens are. -/
theorem Grounded.landed
    {inserted : TFToken → Prop}
    {lang : TFLanguage}
    {tokens : List Lexeme}
    {current : TFStep Unit RawTree × List Lexeme}
    (grounded : Grounded inserted lang tokens current)
    {parser : TFParser Unit RawTree}
    (stands : current.1.parser? = some parser) :
    Landed inserted lang tokens parser := by
  cases grounded with
  | lex parts stacked rootless =>
      cases stands
      exact stacked.landed parts rootless
  | act parts stacked rootless acting =>
      cases stands
      exact stacked.landed parts rootless
  | reduced parts layered rooted emitted entry =>
      cases stands
      exact rooted.landed parts layered emitted
  | stop parts stacked rootless =>
      cases stands
      exact stacked.landed parts rootless
  | accepted parts layered rooted emitted =>
      cases stands
      exact rooted.landed parts layered emitted
  | stuck =>
      cases stands

/-! ## From the start -/

/-- A run that has entered with memory to go on with stands empty. -/
structure Fresh (parser : TFParser Unit RawTree) : Prop where
  cells : parser.cells = []
  leading : parser.leading = 0
  rootEmitted : parser.rootEmitted = false
  events : parser.events = []
  supplied : Supplied parser

/-- Entering leaves a fresh parser. -/
theorem fresh_of_enter
    {source : List UInt8}
    {heap : Heap}
    {parser : TFParser Unit RawTree}
    (reliable : heap.Reliable)
    (entered : TFParser.enter source () heap = .lex parser) :
    Fresh parser := by
  unfold TFParser.enter at entered
  dsimp only at entered
  split at entered
  · cases entered
  · have still :
        (initial source () heap : TFParser Unit RawTree).heap.Reliable :=
      reliable
    obtain ⟨heap', capacity, after, _, _, grown⟩ :=
      grow_supplied still 64 false
    rw [grown] at entered
    cases entered
    exact ⟨rfl, rfl, rfl, rfl, after, Nat.zero_le _⟩

section Start

variable {inserted : TFToken → Prop}
variable {lang : TFLanguage}
variable {first second : TFParser Unit RawTree}
variable {tokens tokens' : List Lexeme}

/-- A fresh parser has consumed nothing. -/
theorem Fresh.grounded
    (fresh : Fresh first) :
    Grounded inserted lang tokens (.lex first, tokens) := by
  refine .lex (List.nil_append tokens).symm ⟨?_, ?_, fresh.supplied, ?_, ?_, ?_⟩
    fresh.rootEmitted
  · rw [fresh.cells]
    exact .nil
  · unfold Bottomed
    rw [fresh.cells, fresh.leading]
    rfl
  · rw [fresh.cells]
    exact .nil
  · rw [fresh.cells, fresh.events]
    rfl
  · rw [fresh.cells]
    exact nofun

/-- Fresh parsers start woven. -/
theorem Fresh.follows
    (fresh : Fresh first)
    (fresh' : Fresh second)
    (interspersed : Interspersed inserted tokens tokens') :
    Follows inserted (.lex first, tokens) (.lex second, tokens') := by
  refine .woven (.lex ⟨?_, ?_, ?_, ?_, ?_, fresh.supplied,
    fresh'.supplied⟩) interspersed
  · rw [fresh.cells, fresh'.cells]
    exact .nil
  · unfold Bottomed
    rw [fresh.cells, fresh.leading]
    rfl
  · unfold Bottomed
    rw [fresh'.cells, fresh'.leading]
    rfl
  · rw [fresh.rootEmitted, fresh'.rootEmitted]
  · rw [fresh.events, fresh'.events]
    exact .nil

end Start

/-- What putting extras in leaves of a run, and where they land. -/
structure Undisturbed
    (inserted : TFToken → Prop)
    (lang : TFLanguage)
    (fuel : Nat)
    (first second : TFParser Unit RawTree)
    (tokens tokens' : List Lexeme) : Prop where
  forward :
    ∀ count, ∃ count',
      StepsAlike inserted
        (TFStep.feeds (.consumer lang RawTree.sink fuel) count
          (.lex first, tokens)).1
        (TFStep.feeds (.consumer lang RawTree.sink fuel) count'
          (.lex second, tokens')).1
  backward :
    ∀ count', ∃ count,
      StepsAlike inserted
        (TFStep.feeds (.consumer lang RawTree.sink fuel) count
          (.lex first, tokens)).1
        (TFStep.feeds (.consumer lang RawTree.sink fuel) count'
          (.lex second, tokens')).1
  landed :
    ∀ count parser,
      (TFStep.feeds (.consumer lang RawTree.sink fuel) count
          (.lex second, tokens')).1.parser? = some parser →
        Landed inserted lang tokens' parser

/--
Extras put into the tokens of a run without conflicts change neither its
outcome nor its reductions.  Each lands in the deepest reduction that reaches
around it, or in the root, and every state above a cell is the one prescribed.
-/
theorem extras_land
    {inserted : TFToken → Prop}
    {lang : TFLanguage}
    {fuel : Nat}
    {first second : TFParser Unit RawTree}
    {tokens tokens' : List Lexeme}
    (loaded : lang.Loaded)
    (fresh : Fresh first)
    (fresh' : Fresh second)
    (interspersed : Interspersed inserted tokens tokens')
    (smooth : Smooth inserted lang fuel (.lex first, tokens)) :
    Undisturbed inserted lang fuel first second tokens tokens' := by
  have follows :
      Follows inserted (.lex first, tokens) (.lex second, tokens') :=
    fresh.follows fresh' interspersed
  refine ⟨?_, ?_, ?_⟩
  · intro count
    obtain ⟨reached, _, later⟩ := follows.reaches smooth count
    exact ⟨reached, later.alike⟩
  · intro count'
    obtain ⟨reached, later⟩ := follows.feeds smooth count'
    exact ⟨reached, later.alike⟩
  · intro count parser stands
    have grounded :
        Grounded inserted lang tokens' (.lex second, tokens') :=
      fresh'.grounded
    exact (grounded.feeds loaded (follows.smooth smooth) count).landed
      stands

/-! ## Runs that lex their tokens -/

/-- A driver that lexes takes the steps of a run over the tokens it lexed. -/
theorem exists_feeds_of_steps
    {lang : TFLanguage}
    {fuel count : Nat}
    {current reference : TFStep Unit RawTree}
    (woven : StepsWoven (fun _ => False) current reference)
    (decided :
      ∀ earlier < count,
        Decided lang
          (TFStep.steps (.consumer lang RawTree.sink fuel) earlier current))
    (lexes :
      ∀ earlier < count, ∀ parser,
        TFStep.steps (.consumer lang RawTree.sink fuel) earlier current =
            .lex parser →
          ∃ lexer token,
            TFStep.lexStep (.consumer lang RawTree.sink fuel) parser =
              .act { parser with lexer := lexer } token) :
    ∃ tokens,
      StepsWoven (fun _ => False)
        (TFStep.steps (.consumer lang RawTree.sink fuel) count current)
        (TFStep.feeds (.consumer lang RawTree.sink fuel) count
          (reference, tokens)).1 := by
  induction count generalizing current reference with
  | zero =>
      exact ⟨[], woven⟩
  | succ count inductionHypothesis =>
      have decidedLater :
          ∀ earlier < count,
            Decided lang
              (TFStep.steps (.consumer lang RawTree.sink fuel) earlier
                (TFStep.step (.consumer lang RawTree.sink fuel)
                  current)) :=
        fun earlier less => decided (earlier + 1) (Nat.succ_lt_succ less)
      have later :
          ∀ {reference'},
            StepsWoven (fun _ => False)
                (TFStep.step (.consumer lang RawTree.sink fuel) current)
                reference' →
              ∃ tokens,
                StepsWoven (fun _ => False)
                  (TFStep.steps (.consumer lang RawTree.sink fuel) count
                    (TFStep.step (.consumer lang RawTree.sink fuel)
                      current))
                  (TFStep.feeds (.consumer lang RawTree.sink fuel) count
                    (reference', tokens)).1 :=
        fun next => inductionHypothesis next decidedLater
          (fun earlier less => lexes (earlier + 1) (Nat.succ_lt_succ less))
      cases woven with
      | @lex first second parsers =>
          obtain ⟨lexer, token, lexed⟩ :=
            lexes 0 (Nat.zero_lt_succ count) first rfl
          have next :
              StepsWoven (fun _ => False)
                (TFStep.step (.consumer lang RawTree.sink fuel)
                  (.lex first))
                (TFStep.deliver second (token, lexer.tokenIsKeyword)) := by
            dsimp only [TFStep.step]
            rw [lexed]
            exact .act (parsers.flagged _ _) rfl rfl
          obtain ⟨tokens, reached⟩ := later next
          exact ⟨(token, lexer.tokenIsKeyword) :: tokens, reached⟩
      | act parsers keyword symbol =>
          exact later
            (parsers.act keyword symbol (decided 0 (Nat.zero_lt_succ count)))
      | stop roots parsers =>
          exact later (.stop roots parsers)
      | stuck =>
          exact later .stuck

/-! ## A grammar with comments -/

/-- Whether a step of a run is smooth: no conflict, and comments are extras. -/
def smoothAt
    (lang : TFLanguage)
    (symbol : TSSymbol) :
    TFStep Unit RawTree → Bool
  | .lex parser =>
      lang.actions parser.state symbol == [.shift 0 true false]
  | .act parser token =>
      (lang.actions parser.state token.symbol).length ≤ 1
  | _ => true

/-- A run is smooth if it is up to where it stops. -/
theorem smooth_of_smoothAt
    {lang : TFLanguage}
    {symbol : TSSymbol}
    {fuel count : Nat}
    {current : TFStep Unit RawTree × List Lexeme}
    (stops :
      (TFStep.feeds (.consumer lang RawTree.sink fuel) count
        current).1.verdict ≠ none)
    (early :
      ∀ earlier < count,
        smoothAt lang symbol
          (TFStep.feeds (.consumer lang RawTree.sink fuel) earlier
            current).1 = true) :
    Smooth (fun token => token.symbol = symbol) lang fuel current := by
  have late :
      ∀ further, count ≤ further →
        ∃ ok root parser,
          (TFStep.feeds (.consumer lang RawTree.sink fuel) further
            current).1 = .stop ok root parser := by
    intro further later
    obtain ⟨more, rfl⟩ := Nat.exists_eq_add_of_le later
    rw [TFStep.feeds_add]
    generalize
      TFStep.feeds (.consumer lang RawTree.sink fuel) count current =
        reached at stops
    obtain ⟨step, rest⟩ := reached
    cases step with
    | stop ok root parser =>
        rw [TFStep.feeds_stop]
        exact ⟨ok, root, parser, rfl⟩
    | lex parser =>
        exact absurd rfl stops
    | act parser token =>
        exact absurd rfl stops
    | stuck =>
        exact absurd rfl stops
  refine ⟨?_, ?_⟩
  · intro further
    by_cases before : further < count
    · have smooth := early further before
      generalize
        (TFStep.feeds (.consumer lang RawTree.sink fuel) further
          current).1 = step at smooth
      cases step with
      | act parser token =>
          have fewer :
              (lang.actions parser.state token.symbol).length ≤ 1 :=
            of_decide_eq_true smooth
          exact fewer
      | lex parser =>
          trivial
      | stop ok root parser =>
          trivial
      | stuck =>
          trivial
    · obtain ⟨ok, root, parser, stands⟩ := late further (by omega)
      rw [stands]
      trivial
  · intro further parser rest stands token known
    subst known
    by_cases before : further < count
    · have smooth := early further before
      rw [stands] at smooth
      exact ⟨0, false, eq_of_beq smooth⟩
    · obtain ⟨ok, root, parser', stops'⟩ := late further (by omega)
      rw [stands] at stops'
      cases stops'

end TFParser

/--
A statement is the letter `a`, and may be followed by `b`.  Comments, the third
token, may stand anywhere.
-/
def commentGrammar : TFLanguage :=
  TSLanguage.loaded
    (smallTables 5 4 5 []
      [[], [.shift 0 true false], [.shift 2 false false],
        [.reduce 1 4 0 0], [.shift 4 false false], [.accept]]
      [(0, 3, 1), (1, 3, 1), (2, 3, 1), (3, 3, 1), (4, 3, 1), (1, 1, 2),
        (2, 2, 3), (2, 0, 3), (3, 2, 4), (3, 0, 5), (4, 0, 5)]
      [(1, 4, 3)])

/-- A token of the grammar, one byte long. -/
def tokenAt (symbol : TSSymbol) (byte : Nat) : TFToken :=
  { TFToken.zero with
    symbol := symbol
    startByte := byte
    endByte := byte + 1 }

/-- A parser that has entered an empty buffer. -/
def enteredParser (heap : Heap) : TFParser Unit RawTree :=
  ((TFParser.initial [] () heap).grow 64 false).2

/-- Entering leaves that parser. -/
theorem enteredParser_fresh : TFParser.Fresh (enteredParser .reliable) := by
  have entered :
      TFParser.enter [] () .reliable =
        TFStep.lex (enteredParser .reliable) :=
    rfl
  exact TFParser.fresh_of_enter (fun _ => rfl) entered

/-- Tokens with some symbols, a byte each. -/
def lexemes (symbols : List TSSymbol) : List Lexeme :=
  symbols.mapIdx (fun byte symbol => (tokenAt symbol byte, false))

/-- A run of the grammar over tokens with some symbols. -/
def commentRun
    (heap : Heap)
    (count : Nat)
    (symbols : List TSSymbol) :
    TFStep Unit RawTree :=
  (TFStep.feeds (.consumer commentGrammar RawTree.sink 0) count
    (.lex (enteredParser heap), lexemes symbols)).1

/--
A statement is a phrase, the letters `a` and `b`.  Comments, the third token,
may stand anywhere.
-/
def phraseGrammar : TFLanguage :=
  TSLanguage.loaded
    (smallTables 6 4 6 []
      [[], [.shift 0 true false], [.shift 2 false false],
        [.shift 3 false false], [.reduce 2 5 0 0], [.reduce 1 4 0 0],
        [.accept]]
      [(1, 3, 1), (2, 3, 1), (3, 3, 1), (4, 3, 1), (5, 3, 1), (1, 1, 2),
        (2, 2, 3), (3, 0, 4), (4, 0, 5), (5, 0, 6)]
      [(1, 5, 4), (1, 4, 5)])

/-- The tables of phrases load. -/
theorem phraseGrammar_loaded : phraseGrammar.Loaded :=
  TSLanguage.loaded_of_isOk (by decide +kernel)

/-- A run over a phrase, with comments. -/
def phraseRun (count : Nat) (symbols : List TSSymbol) :
    TFStep Unit RawTree :=
  (TFStep.feeds (.consumer phraseGrammar RawTree.sink 0) count
    (.lex (enteredParser .reliable), lexemes symbols)).1

/-- A comment between the letters lands in the phrase, others in the root. -/
theorem extras_land_phrase :
    TFParser.Undisturbed (fun token => token.symbol = 3) phraseGrammar 0
        (enteredParser .reliable) (enteredParser .reliable)
        (lexemes [1, 2, 0]) (lexemes [3, 1, 3, 2, 3, 0]) ∧
      (phraseRun 14 [3, 1, 3, 2, 3, 0]).verdict = some true ∧
      (phraseRun 14 [3, 1, 3, 2, 3, 0]).made.map
          (fun reduction =>
            (reduction.symbol, reduction.children.map TFNode.symbol)) =
        [(5, [1, 3, 2]), (4, [3, 5, 3, 0])] := by
  refine ⟨?_, by decide +kernel, by decide +kernel⟩
  have interspersed :
      Interspersed (fun token => token.symbol = 3)
        (lexemes [1, 2, 0]) (lexemes [3, 1, 3, 2, 3, 0]) :=
    .added rfl
      (.keep rfl (.added rfl (.keep rfl (.added rfl (.keep rfl .nil)))))
  refine TFParser.extras_land phraseGrammar_loaded enteredParser_fresh
    enteredParser_fresh interspersed ?_
  exact TFParser.smooth_of_smoothAt (by decide +kernel : _ ≠ none)
    (by decide +kernel : ∀ earlier < 14, _)

/-- Whether a run has made a reduction with a comment among its children. -/
def takesComment (current : TFStep Unit RawTree) : Bool :=
  current.made.any (fun reduction =>
    reduction.children.any (fun child => child.symbol == 3))

/--
A comment may be the child of no reduction: the run is rejected, or it accepts
a root that was reduced before its end was seen.  It may also take the memory
that the rest of the run needs.
-/
theorem comment_in_no_reduction :
    (∀ state < 5,
        commentGrammar.actions state 3 = [.shift 0 true false] ∧
          ∀ symbol < 4, (commentGrammar.actions state symbol).length ≤ 1) ∧
      (commentRun .reliable 5 [0]).verdict = some false ∧
      (commentRun .reliable 5 [3, 0]).verdict = some false ∧
      takesComment (commentRun .reliable 5 [3, 0]) = false ∧
      (commentRun .reliable 9 [1, 2, 0]).verdict = some true ∧
      (commentRun .reliable 9 [1, 3, 2, 0]).verdict = some true ∧
      takesComment (commentRun .reliable 9 [1, 3, 2, 0]) = false ∧
      (commentRun ⟨fun request => request == 2, 0⟩ 9 [1, 0]).verdict =
        some true ∧
      (commentRun ⟨fun request => request == 2, 0⟩ 140
          (List.replicate 65 3 ++ [1, 0])).verdict =
        some false := by
  decide +kernel

end TreeFeller
