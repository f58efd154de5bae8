import TreeFeller.StackReplays

namespace TreeFeller

open StatefulProgram

/-!
# Runs that split on stacks of LR cells

The driver acts on a token that spans something, over a stack of LR cells, until
it has emitted the root.  What a split is left with goes on from there: a path
is replayed up to where its top node ends, and the next token is lexed there; an
accepted root is replayed and reduced, and only the end token is left.
-/

namespace TFParser

variable {σ V : Type}
variable {env : TFRunEnv σ V}

/-! ## What spans something -/

/-- What a token may be demoted to spans something, but for the end token. -/
def Spans (lang : TFLanguage) (token : TFToken) (keyword : Bool) : Prop :=
  ∀ (state : TSStateId) (demoted : TFToken),
    token.demoteKeyword lang state keyword = some demoted →
      demoted.symbol ≠ tsBuiltinSymEnd → demoted.startByte < demoted.endByte

/--
A split here that accepts a root has a child for it to reduce.  Where a
reduction of the split built the root, its count is that of the table's action.
A root that stood on the owner's stack already is an inherited tree, and one
that a private replay has collected counts no children, so that rebuilding it
would reduce none: an entry that offers to accept beside something else is what
leads there, and no single cell of the tables tells.
-/
def SpansRoots
    (env : TFRunEnv σ V)
    (parser : TFParser σ V)
    (token : TFToken) : Prop :=
  2 ≤ (env.lang.actions parser.state token.symbol).length →
    ∀ (heap : Heap) (spec : TFSpec) (root : Nat) (state : TFSpecState),
      (parser.asked env token).ownSpec =
          (some spec, parser.opened env token heap) →
        TFSpec.explore env.spec
            ((parser.opened env token heap).splitState spec token) =
          .ok (.accepted root, state) →
            (state.spec.tree root).structuralCount ≠ 0

/-- A split that goes well explores its own graph, and commits to a result. -/
theorem split_explores
    {self after : TFParser σ V}
    {token next : TFToken}
    (ran : self.split env token = some (true, next, after)) :
    ∃ (heap : Heap) (spec : TFSpec) (state : TFSpecState),
      (self.asked env token).ownSpec =
          (some spec, self.opened env token heap) ∧
        ((∃ forest top,
          TFSpec.explore env.spec
                ((self.opened env token heap).splitState spec token) =
              .ok (.path forest top, state) ∧
            ((self.opened env token heap).resume state).commitPath env
                state.spec forest top token =
              some (true, next, after)) ∨
        ∃ root,
          TFSpec.explore env.spec
                ((self.opened env token heap).splitState spec token) =
              .ok (.accepted root, state) ∧
            ((self.opened env token heap).resume state).commitRoot env
                state.spec root token =
              some (true, next, after)) := by
  unfold split at ran
  dsimp only at ran
  split at ran
  · cases ran
  · have own :
        ∀ parser : TFParser σ V,
          ∃ heap, parser.ownSpec.2 = { parser with heap := heap } := by
      intro parser
      unfold ownSpec
      split
      · exact ⟨parser.heap, rfl⟩
      · dsimp only
        split <;> exact ⟨_, rfl⟩
    obtain ⟨heap, hasGraph⟩ := own (self.asked env token)
    split at ran
    · cases ran
    · rename_i spec parser found
      have parserEq : (self.asked env token).ownSpec.2 = parser :=
        congrArg Prod.snd found
      rw [hasGraph] at parserEq
      subst parserEq
      split at ran
      · cases ran
      · cases ran
      · cases ran
      · rename_i forest top state explored
        exact ⟨heap, spec, state, found, Or.inl ⟨forest, top, explored, ran⟩⟩
      · rename_i root state explored
        exact ⟨heap, spec, state, found, Or.inr ⟨root, explored, ran⟩⟩

/-! ## Tokens of the driver -/

/-- A token that may be acted on at a byte may be at an earlier one. -/
theorem tokenAt_lower
    {lang : TFLanguage}
    {low byte : Nat}
    {token : TFToken}
    {keyword : Bool}
    (here : TokenAt lang byte token keyword)
    (lower : low ≤ byte) :
    TokenAt lang low token keyword :=
  ⟨here.terminal, fun notEnd => Nat.lt_of_le_of_lt lower (here.beyond notEnd),
    fun state demoted demotes notEnd =>
      Nat.lt_of_le_of_lt lower (here.demotes state demoted demotes notEnd)⟩

/-- The end token spans nothing, and may be acted on anywhere. -/
theorem tokenAt_end
    {lang : TFLanguage}
    (tables : SpanningTables lang)
    (byte : Nat)
    {token : TFToken}
    {keyword : Bool}
    (isEnd : token.symbol = tsBuiltinSymEnd)
    (empty : token.startByte = token.endByte)
    (spans : Spans lang token keyword) :
    TokenAt lang byte token keyword := by
  refine ⟨?_, fun notEnd => absurd isEnd notEnd, ?_⟩
  · rw [isEnd]
    exact Nat.zero_lt_of_lt tables.tokens.capture
  · intro state demoted demotes notEnd
    have some_ := spans state demoted demotes notEnd
    obtain ⟨_, _, rfl⟩ := TFToken.demoteKeyword_spec demotes
    exact absurd empty (Nat.ne_of_lt some_)

/-- The lexer stands where the token it lexed ends. -/
theorem next_ends
    {lang : TFLanguage}
    {lexer : TFLexer}
    {state : TSStateId}
    {token : TFToken}
    (found : (lexer.next lang state).1 = some token) :
    (lexer.next lang state).2.byte = token.endByte ∧
      (lexer.next lang state).2.getLookahead =
        (lexer.next lang state).2 := by
  have nexts := lexer.next_spec lang state
  generalize lexer.next lang state = result at nexts found
  cases nexts with
  | missed main => cases found
  | plain main _ =>
      cases found
      exact ⟨rfl, rfl⟩
  | word main _ keyword _ =>
      cases found
      exact ⟨rfl, rfl⟩
  | keyword main _ keyword accepted =>
      cases found
      exact ⟨rfl, rfl⟩

/-! ## Where a run stands -/

/-- A run over stacks of LR cells, up to the root. -/
inductive Owned (env : TFRunEnv σ V) : TFStep σ V → Prop where
  | lex
      {parser : TFParser σ V}
      (ready : Ready parser)
      (piled : Piled env.lang startState 0 parser.cells)
      (ahead : topByte parser.cells ≤ parser.lexer.byte)
      (fresh : parser.lexer.getLookahead = parser.lexer) :
      Owned env (.lex parser)
  | act
      {parser : TFParser σ V}
      {token : TFToken}
      (ready : Ready parser)
      (piled : Piled env.lang startState 0 parser.cells)
      (here :
        Spans env.lang token parser.lexer.tokenIsKeyword →
          TokenAt env.lang (topByte parser.cells) token
            parser.lexer.tokenIsKeyword)
      (ahead : token.endByte ≤ parser.lexer.byte)
      (fresh : parser.lexer.getLookahead = parser.lexer) :
      Owned env (.act parser token)
  /-- The root has been emitted; the accept action follows. -/
  | rooted
      {parser : TFParser σ V}
      {token : TFToken}
      (rooted : Rooted env.lang parser)
      (isEnd : token.symbol = tsBuiltinSymEnd) :
      Owned env (.act parser token)
  | stop
      {ok : Bool}
      {root : Option V}
      {parser : TFParser σ V} :
      Owned env (.stop ok root parser)
  | stuck : Owned env .stuck

/-- The top of a stack ends where it did without its values. -/
theorem topByte_forget
    (cells : List (TFCell V)) :
    topByte (cells.map TFCell.forget) = topByte cells := by
  unfold topByte
  rw [List.getLast?_map, Option.map_map]
  rfl

section Steps

variable {depth : Nat}
variable (tables : SpanningTables env.lang)
variable (isReplay : env.materialize = TFSpec.materialize env.lang depth)

/-- A split on a stack of LR cells begins as one. -/
theorem forks_of_piled
    {lang : TFLanguage}
    {parser : TFParser σ V}
    {token : TFToken}
    (piled : Piled lang startState 0 parser.cells)
    (here :
      TokenAt lang (topByte parser.cells) token
        parser.lexer.tokenIsKeyword)
    (spec : TFSpec) :
    TFSpec.Forks lang (parser.splitState spec token) := by
  refine ⟨spec, parser.owner, token, parser.lexer.tokenLexState,
    parser.lexer.tokenIsKeyword, rfl, piled.forget.lrStack, ?_⟩
  change TokenAt lang (topByte (parser.cells.map TFCell.forget)) token _
  rw [topByte_forget]
  exact here

include tables isReplay

/-- What is left of a path rises from the owner's stack to the path's top. -/
theorem rises_of_path
    {fork state : TFSpecState}
    {forest : List Nat}
    {top : Nat}
    {plan : List Replayed}
    (forks : TFSpec.Forks env.lang fork)
    (concluded : TFSpec.Concluded env.spec fork (.path forest top) state)
    (order : Postorder state.spec.tree (forest.map .visit) plan) :
    Rises (topByte fork.spec.owner.cells) plan (state.spec.node top).byte ∧
      TFSpec.Cached env.lang state.spec := by
  cases concluded with
  | @path ends roots head slice before _ explored alone going pops isSlice =>
      have sound := explored.sound tables isReplay forks
      have isHead : before.spec.head 0 = head := by
        unfold TFSpec.head
        rw [alone]
        rfl
      have strolling :=
        TFSpec.strolling_pop sound.stacked (Or.inr rfl) pops
      rw [isHead] at strolling
      have isPath :
          ((state.spec.head slice.version).node, slice.children) ∈
            state.spec.slicePaths :=
        List.mem_map.mpr ⟨slice, isSlice, rfl⟩
      have strolls := (strolling.landed _ isPath).strolls
      have plain : ¬ ends head.node := by
        have goes : (before.spec.head 0).halted = false := by
          rw [isHead]
          exact going
        have apart := sound.stacked.head sound.settled goes
        rw [isHead] at apart
        exact apart
      have row := strolls.grown plain
      have sameOwner : state.spec.owner = fork.spec.owner := by
        have kept : state.control = before.control :=
          TFSpec.keeps_pop _ _ _ _ _ _ pops
        exact (congrArg TFSpecControl.owner kept).trans
          (explored.owner tables isReplay forks)
      obtain ⟨isFrontier, atBottom⟩ := strolling.whole rfl
      have low :
          (state.spec.node (state.spec.head slice.version).node).byte ≤
            topByte fork.spec.owner.cells := by
        have unrolling := strolling.stays.stacked.unrolling
        have isNode :
            (state.spec.head slice.version).node = state.spec.frontier :=
          (atBottom _ isPath).trans isFrontier.symm
        rw [isNode, unrolling.byte, ← sameOwner]
        exact unrolling.stack.topByte_take_le _
      have high :
          topByte fork.spec.owner.cells ≤ (state.spec.node head.node).byte := by
        have member : head ∈ before.spec.heads := by
          rw [alone]
          exact List.mem_singleton_self _
        have above_ := sound.abreast head member going
        rw [explored.owner tables isReplay forks] at above_
        rw [strolling.stays.evolves.byte _ strolling.originWithin]
        exact above_
      have laid := row.laid .done
      rw [List.append_nil] at laid
      have rises := rises_of_laid laid order
      rw [sameOwner] at rises
      change Rises (max (state.spec.node _).byte _) _ _ at rises
      rw [Nat.max_eq_right low, Nat.max_eq_left high] at rises
      exact ⟨rises,
        sound.cached.kept (TFSpec.keeps_pop _ _ _ _ _ _ pops)⟩

/-- And what is left of an accepted root rises from there. -/
theorem rises_of_root
    {fork state : TFSpecState}
    {root : Nat}
    {plan : List Replayed}
    (forks : TFSpec.Forks env.lang fork)
    (concluded : TFSpec.Concluded env.spec fork (.accepted root) state)
    (counts : (state.spec.tree root).structuralCount ≠ 0)
    (order :
      Postorder state.spec.tree
        ((state.spec.tree root).children.dropLast.map .visit) plan) :
    ∃ last, Rises (topByte fork.spec.owner.cells) plan last := by
  cases concluded with
  | accepted explored finished =>
      have sound := explored.sound tables isReplay forks
      obtain ⟨first, last, low, row⟩ :=
        (sound.finished root finished).rowed counts
      have laid := row.laid .done
      rw [List.append_nil] at laid
      have rises := rises_of_laid laid order
      rw [Nat.max_eq_right low,
        explored.owner tables isReplay forks] at rises
      exact ⟨_, rises⟩

/-- A path that is committed to leaves a stack of LR cells. -/
theorem owned_commitPath
    {parser after : TFParser σ V}
    {spec : TFSpec}
    {state : TFSpecState}
    {forest : List Nat}
    {top : Nat}
    {token next : TFToken}
    (ready : Ready parser)
    (piled : Piled env.lang startState 0 parser.cells)
    (forks : TFSpec.Forks env.lang (parser.splitState spec token))
    (explored :
      TFSpec.explore env.spec (parser.splitState spec token) =
        .ok (.path forest top, state))
    (committed :
      (parser.resume state).commitPath env state.spec forest top token =
        some (true, next, after)) :
    Owned env (.act after next) := by
  have concluded := TFSpec.explore_covers tables isReplay forks explored
  cases commitPath_spec committed with
  | @lexed plan middle after capacity lexedState next keyword order performs
      lexed same =>
      obtain ⟨rises, cached⟩ :=
        rises_of_path tables isReplay forks concluded order
      have begins :
          topByte (parser.splitState spec token).spec.owner.cells =
            topByte parser.cells :=
        topByte_forget _
      rw [begins] at rises
      have readyResumed := ready.quiet (resume_quiet parser state)
      obtain ⟨stack, ends_⟩ :=
        piled_performs readyResumed piled rises performs
      obtain ⟨readyMiddle, _⟩ := readyResumed.performs performs
      have cachedNow :
          TFSpec.Cached env.lang (state.spec.withCapacity capacity) := cached
      obtain ⟨_, _, _, found⟩ :=
        TFSpec.lex_sound tables.tokens cachedNow lexed
      have here := found _ _ rfl
      subst same
      refine .act (readyMiddle.quiet (resume_quiet middle _)) stack ?_ ?_ rfl
      · intro _
        change TokenAt env.lang (topByte middle.cells) next keyword
        rw [ends_]
        exact here
      · exact Nat.le_refl _

/-- And so does an accepted root, or it has been emitted. -/
theorem owned_commitRoot
    {parser after : TFParser σ V}
    {spec : TFSpec}
    {state : TFSpecState}
    {root : Nat}
    {token next : TFToken}
    (ready : Ready parser)
    (piled : Piled env.lang startState 0 parser.cells)
    (forks : TFSpec.Forks env.lang (parser.splitState spec token))
    (explored :
      TFSpec.explore env.spec (parser.splitState spec token) =
        .ok (.accepted root, state))
    (counts : (state.spec.tree root).structuralCount ≠ 0)
    (committed :
      (parser.resume state).commitRoot env state.spec root token =
        some (true, next, after)) :
    Owned env (.act after next) := by
  have concluded := TFSpec.explore_covers tables isReplay forks explored
  cases commitRoot_spec committed with
  | @reduced plan middle reached left order performs reduced =>
      obtain ⟨last, rises⟩ :=
        rises_of_root tables isReplay forks concluded counts order
      have begins :
          topByte (parser.splitState spec token).spec.owner.cells =
            topByte parser.cells :=
        topByte_forget _
      rw [begins] at rises
      have readyResumed := ready.quiet (resume_quiet parser state)
      obtain ⟨stack, _⟩ :=
        piled_performs readyResumed piled rises performs
      obtain ⟨readyMiddle, _⟩ := readyResumed.performs performs
      obtain ⟨stackReached, _, _⟩ :=
        piled_reduce readyMiddle stack (Nat.pos_of_ne_zero counts) reduced
      rcases readyMiddle.reduce reduced with readyReached | ⟨rooted, _⟩
      · refine .act (readyReached.quiet ⟨rfl, rfl, rfl, rfl, rfl, rfl⟩)
          stackReached ?_ ?_ rfl
        · exact fun spans => tokenAt_end tables _ rfl rfl spans
        · exact Nat.le_refl _
      · exact .rooted ⟨rooted.emitted, rooted.accepts⟩ rfl

omit isReplay in
/-- Taking the one action of an entry. -/
theorem owned_action
    {parser : TFParser σ V}
    {token : TFToken}
    {action : TSParseAction}
    (ready : Ready parser)
    (piled : Piled env.lang startState 0 parser.cells)
    (here :
      TokenAt env.lang (topByte parser.cells) token
        parser.lexer.tokenIsKeyword)
    (ahead : token.endByte ≤ parser.lexer.byte)
    (fresh : parser.lexer.getLookahead = parser.lexer)
    (known : action ∈ env.lang.actions parser.state token.symbol) :
    Owned env (TFStep.actionStep env parser token action) := by
  cases action with
  | shift target extra repetition =>
      have notEnd : token.symbol ≠ tsBuiltinSymEnd := by
        intro isEnd
        rw [isEnd] at known
        exact tables.endUnshifted _ _ _ _ known
      have isState :
          (if extra then parser.state else target) =
            if extra then parser.state
            else env.lang.nextState parser.state token.symbol := by
        cases extra with
        | true => rfl
        | false =>
            exact (tables.nextState_of_shift here.terminal known).symm
      simp only [TFStep.actionStep]
      rcases shifted :
          parser.shift env.sink token extra
            (if extra then parser.state else target) with
        ⟨placed, after⟩
      cases placed with
      | true =>
          obtain ⟨stack, ends_, lexer⟩ :=
            piled_shift piled isState (here.beyond notEnd) shifted
          refine .lex (ready.shift shifted) stack ?_ ?_
          · rw [ends_, lexer]
            exact ahead
          · rw [lexer]
            exact fresh
      | false =>
          exact .stop
  | reduce childCount symbol dynamicPrecedence productionId =>
      have positive := tables.reduces _ _ _ _ _ _ here.terminal known
      simp only [TFStep.actionStep]
      split
      · exact .stuck
      · rename_i reduced well
        obtain ⟨stack, ends_, lexer⟩ :=
          piled_reduce ready piled positive well
        rcases ready.reduce well with
          readyAfter | ⟨rooted, found, same, isEnd⟩
        · refine .act readyAfter stack ?_ ?_ ?_
          · rw [ends_, lexer]
            exact fun _ => here
          · rw [lexer]
            exact ahead
          · rw [lexer]
            exact fresh
        · cases same
          exact .rooted rooted isEnd
      · exact .stop
  | accept =>
      exact .stop
  | recover =>
      exact .stop

/-- One step of the main loop. -/
theorem Owned.step
    {current : TFStep σ V}
    (owned : Owned env current)
    (spans :
      ∀ parser token, current = .act parser token →
        Spans env.lang token parser.lexer.tokenIsKeyword ∧
          SpansRoots env parser token) :
    Owned env (TFStep.step env current) := by
  cases owned with
  | @lex parser ready piled ahead fresh =>
      simp only [TFStep.step, TFStep.lexStep]
      split
      · rename_i token found
        obtain ⟨byte, freshAfter⟩ := next_ends found
        refine .act (ready.quiet ⟨rfl, rfl, rfl, rfl, rfl, rfl⟩) piled ?_
          (Nat.le_of_eq byte.symm) freshAfter
        exact fun _ =>
          tokenAt_lower
            (TFLexer.next_tokenAt tables.tokens fresh found) ahead
      · exact .stop
  | @act parser token ready piled here ahead fresh =>
      obtain ⟨spansToken, spansRoots⟩ := spans parser token rfl
      have acts := here spansToken
      simp only [TFStep.step, TFStep.actStep]
      split
      · split
        · rename_i demoted demotes
          have same := (TFToken.demoteKeyword_spec demotes).2.2
          refine .act ready piled
            (fun _ => acts.demoted tables.tokens demotes) ?_ fresh
          rw [same]
          exact ahead
        · exact .stop
      · rename_i action isEntry
        refine owned_action tables ready piled acts ahead fresh ?_
        rw [isEntry]
        exact List.mem_singleton_self _
      · rename_i entry none_ lone
        have conflict :
            2 ≤ (env.lang.actions parser.state token.symbol).length := by
          cases isEntry : env.lang.actions parser.state token.symbol with
          | nil => exact absurd isEntry none_
          | cons action rest =>
              cases rest with
              | nil => exact absurd isEntry (lone action)
              | cons other rest =>
                  exact Nat.succ_le_succ (Nat.succ_pos _)
        split
        · exact .stuck
        · rename_i next after ran
          have opens :
              ∀ heap, Ready (parser.opened env token heap) :=
            fun heap => ⟨ready.open_, ready.fits⟩
          have forks :
              ∀ heap spec,
                TFSpec.Forks env.lang
                  ((parser.opened env token heap).splitState spec token) :=
            fun heap spec =>
              forks_of_piled
                (show Piled env.lang startState 0
                  (parser.opened env token heap).cells from piled)
                acts spec
          obtain ⟨heap, spec, state, opening,
            ⟨forest, top, explored, committed⟩ | ⟨root, explored, committed⟩⟩ :=
              split_explores ran
          · exact owned_commitPath tables isReplay (opens heap) piled
              (forks heap spec) explored committed
          · refine owned_commitRoot tables isReplay (opens heap) piled
              (forks heap spec) explored
              (spansRoots ?_ heap spec root state opening explored) committed
            exact conflict
        · exact .stop
  | @rooted parser token rooted isEnd =>
      have accepts :=
        tables.loaded.actions_of_acceptsEnd rooted.accepts
      rw [← isEnd] at accepts
      simp only [TFStep.step, TFStep.actStep, accepts, TFStep.actionStep]
      exact .stop
  | stop =>
      exact .stop
  | stuck =>
      exact .stuck

/-- Any number of steps of the main loop. -/
theorem Owned.steps
    {count : Nat}
    {current : TFStep σ V}
    (owned : Owned env current)
    (spans :
      ∀ index < count, ∀ parser token,
        TFStep.steps env index current = .act parser token →
          Spans env.lang token parser.lexer.tokenIsKeyword ∧
            SpansRoots env parser token) :
    Owned env (TFStep.steps env count current) := by
  induction count generalizing current with
  | zero =>
      exact owned
  | succ count inductionHypothesis =>
      refine inductionHypothesis
        (owned.step tables isReplay (spans 0 (Nat.succ_pos _))) ?_
      exact fun index within =>
        spans (index + 1) (Nat.succ_lt_succ within)

omit tables isReplay in
/-- A run begins on an empty stack, or it does not begin. -/
theorem owned_enter
    (source : List UInt8)
    (payload : σ)
    (heap : Heap) :
    Owned env (enter source payload heap : TFStep σ V) := by
  rcases enter_spec source payload heap with
    ⟨first, entered, isFirst⟩ | ⟨failed, stopped, _⟩
  · rw [entered]
    refine .lex isFirst.ready ?_ ?_ ?_
    · obtain ⟨heap, capacity, rfl⟩ := isFirst.entered
      exact .nil
    · obtain ⟨heap, capacity, rfl⟩ := isFirst.entered
      exact Nat.zero_le _
    · obtain ⟨heap, capacity, rfl⟩ := isFirst.entered
      rfl
  · rw [stopped]
    exact .stop

end Steps

end TFParser

end TreeFeller
