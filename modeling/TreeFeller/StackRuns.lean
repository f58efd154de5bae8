import TreeFeller.StackTokens

namespace TreeFeller

open StatefulProgram

/-!
# The graphs of a split

What a split reaches, one operation after another: while a head advances, the
token it advances over is part of where the split stands.  Every graph that is
reached from a stack of LR cells is a graph of LR stacks.
-/

namespace TFSpec

open Program TFSpecState

/-- A head on its way over a token; the heads from `first` on are its own. -/
structure Acting where
  version : Nat
  first : Nat
  token : TFToken
  keyword : Bool

/-- The operations of a split, from the graph it begins with. -/
inductive Explored
    (env : TFSpecEnv)
    (fork : TFSpecState) :
    Option Acting → (Nat → Prop) → (Nat → Prop) → TFSpecState → Prop where
  | begun
      {top version : Nat}
      {reserved placed after : TFSpecState}
      (room : reserve .nodes 1 fork = .ok ((), reserved))
      (node :
        addNode (forkNode reserved.spec.owner) reserved =
          .ok (top, placed))
      (head : newHead top placed = .ok (version, after)) :
      Explored env fork none (fun _ => False) (fun _ => False) after
  | lexed
      {ends roots : Nat → Prop}
      {version : Nat}
      {token : TFToken}
      {keyword : Bool}
      {before after : TFSpecState}
      (earlier : Explored env fork none ends roots before)
      (inRange : version < before.spec.heads.length)
      (going : (before.spec.head version).halted = false)
      (ran :
        lex env (before.spec.head version).node before =
          .ok (some (token, keyword), after)) :
      Explored env fork
        (some ⟨version, before.spec.heads.length, token, keyword⟩) ends
        roots after
  | unlexed
      {ends roots : Nat → Prop}
      {node : Nat}
      {before after : TFSpecState}
      (earlier : Explored env fork none ends roots before)
      (ran : lex env node before = .ok (none, after)) :
      Explored env fork none ends roots after
  | shifted
      {ends roots : Nat → Prop}
      {acting : Acting}
      {state target : TSStateId}
      {extra repetition : Bool}
      {before after : TFSpecState}
      (earlier : Explored env fork (some acting) ends roots before)
      (here :
        state =
          (before.spec.node (before.spec.head acting.version).node).state)
      (acts :
        .shift target extra repetition ∈
          env.lang.actions state acting.token.symbol)
      (ran :
        shift acting.version acting.token (if extra then state else target)
            extra before =
          .ok ((), after)) :
      Explored env fork none ends roots after
  | reduced
      {ends roots : Nat → Prop}
      {acting : Acting}
      {childCount productionId : Nat}
      {symbol : TSSymbol}
      {dynamicPrecedence : Int}
      {state : TSStateId}
      {created : Option Nat}
      {before after : TFSpecState}
      (earlier : Explored env fork (some acting) ends roots before)
      (acts :
        .reduce childCount symbol dynamicPrecedence productionId ∈
          env.lang.actions state acting.token.symbol)
      (ran :
        reduce env acting.version childCount symbol dynamicPrecedence
            productionId before =
          .ok (created, after)) :
      Explored env fork (some acting) ends roots after
  | accepted
      {ends roots : Nat → Prop}
      {acting : Acting}
      {before after : TFSpecState}
      (earlier : Explored env fork (some acting) ends roots before)
      (ran :
        accept env acting.version acting.token before = .ok ((), after)) :
      Explored env fork none (endsAfter ends acting.version after.spec)
        (rootsAfter roots before.spec after.spec) after
  | followed
      {ends roots : Nat → Prop}
      {acting : Acting}
      {last : Nat}
      {before moved after : TFSpecState}
      (earlier : Explored env fork (some acting) ends roots before)
      (own : acting.first ≤ last)
      (inRange : last < before.spec.heads.length)
      (moves :
        update (fun s =>
            s.modifyHead acting.version (fun _ => s.head last)) before =
          .ok ((), moved))
      (ran : removeHead last moved = .ok ((), after)) :
      Explored env fork (some acting) ends roots after
  | demoted
      {ends roots : Nat → Prop}
      {acting : Acting}
      {state : TSStateId}
      {token : TFToken}
      {graph : TFSpecState}
      (earlier : Explored env fork (some acting) ends roots graph)
      (demotes :
        acting.token.demoteKeyword env.lang state acting.keyword =
          some token) :
      Explored env fork (some { acting with token := token }) ends roots
        graph
  | halted
      {control : Option Acting}
      {ends roots : Nat → Prop}
      {version : Nat}
      {errored : Bool}
      {before after : TFSpecState}
      (earlier : Explored env fork control ends roots before)
      (ran : halt version errored before = .ok ((), after)) :
      Explored env fork none ends roots after
  | reported
      {control : Option Acting}
      {ends roots : Nat → Prop}
      {byte : Nat}
      {point : TFPoint}
      {state : TSStateId}
      {symbol : TSSymbol}
      {isLex : Bool}
      {before after : TFSpecState}
      (earlier : Explored env fork control ends roots before)
      (ran :
        update (fun s => s.recordError byte point state symbol isLex)
            before =
          .ok ((), after)) :
      Explored env fork control ends roots after
  | merged
      {ends roots : Nat → Prop}
      {a b : Nat}
      {answer : Bool}
      {before after : TFSpecState}
      (earlier : Explored env fork none ends roots before)
      (ran : merge env.materialize env.fuel a b before = .ok (answer, after)) :
      Explored env fork none ends roots after
  | removed
      {ends roots : Nat → Prop}
      {version : Nat}
      {before after : TFSpecState}
      (earlier : Explored env fork none ends roots before)
      (ran : removeHead version before = .ok ((), after)) :
      Explored env fork none ends roots after
  | swapped
      {ends roots : Nat → Prop}
      {i j : Nat}
      {before after : TFSpecState}
      (earlier : Explored env fork none ends roots before)
      (inRange : i < before.spec.heads.length ∧ j < before.spec.heads.length)
      (ran :
        update (fun s =>
            { s with
              heads := (s.heads.set i (s.head j)).set j (s.head i) })
            before =
          .ok ((), after)) :
      Explored env fork none ends roots after
  | cut
      {ends roots : Nat → Prop}
      {count : Nat}
      {before after : TFSpecState}
      (earlier : Explored env fork none ends roots before)
      (ran :
        update (fun s => { s with heads := s.heads.take count }) before =
          .ok ((), after)) :
      Explored env fork none ends roots after
  /-- The flag is not the source's, and no program reads it. -/
  | flagged
      {control : Option Acting}
      {ends roots : Nat → Prop}
      {before after : TFSpecState}
      (earlier : Explored env fork control ends roots before)
      (ran : update limit before = .ok ((), after)) :
      Explored env fork control ends roots after

/-- What a split ever holds: after an operation, or after its last pop. -/
inductive Visited
    (env : TFSpecEnv)
    (fork : TFSpecState)
    (ends roots : Nat → Prop) :
    TFSpecState → Prop where
  | explored
      {control : Option Acting}
      {state : TFSpecState}
      (explored : Explored env fork control ends roots state) :
      Visited env fork ends roots state
  | popped
      {version : Nat}
      {before after : TFSpecState}
      (earlier : Explored env fork none ends roots before)
      (ran : pop env.fuel version none before = .ok ((), after)) :
      Visited env fork ends roots after

/-! ## What holds all along -/

/-- The cached token may be acted on at the byte it was lexed at. -/
def Cached (lang : TFLanguage) (graph : TFSpec) : Prop :=
  graph.hasCache = true →
    TokenAt lang graph.cachedByte graph.cached graph.cachedKeyword

/-- An advance under way: its own heads are as far along as it is. -/
structure Acts
    (lang : TFLanguage)
    (graph : TFSpec)
    (acting : Acting) : Prop where
  inRange : acting.version < acting.first
  within : acting.first ≤ graph.heads.length
  going : (graph.head acting.version).halted = false
  token :
    TokenAt lang (graph.node (graph.head acting.version).node).byte
      acting.token acting.keyword
  ahead :
    ∀ index, acting.first ≤ index → index < graph.heads.length →
      (graph.head index).halted = false ∧
        (graph.node (graph.head index).node).byte =
          (graph.node (graph.head acting.version).node).byte

/-- What holds wherever a split stands. -/
structure Sound
    (lang : TFLanguage)
    (control : Option Acting)
    (ends roots : Nat → Prop)
    (graph : TFSpec) : Prop where
  stacked : Stacked lang ends roots graph
  abreast : Abreast graph
  bounded : ∀ tree, roots tree → tree < graph.trees.length
  cached : Cached lang graph
  acts : ∀ acting, control = some acting → Acts lang graph acting
  finished : ∀ root, graph.finished = some root → Finished graph root

/-- A split begins on a stack of LR cells, at a token that may be acted on. -/
structure Forks
    (lang : TFLanguage)
    (fork : TFSpecState) : Prop where
  begins :
    ∃ (self : TFSpec) (owner : TFSpecOwner) (token : TFToken)
      (lexState : TSStateId) (keyword : Bool),
      fork.spec = self.begin owner token lexState keyword ∧
        LrStack lang owner.cells ∧
        TokenAt lang (topByte owner.cells) token keyword

section Soundness

variable {lang : TFLanguage}
variable {control : Option Acting}
variable {ends roots : Nat → Prop}
variable {before after graph : TFSpec}

/-- Only so many trees are set apart, so no root is being rebuilt. -/
theorem Sound.settled
    (sound : Sound lang control ends roots graph) :
    ¬ Rebuilding roots := by
  rintro ⟨count, high⟩
  have isRoot :=
    high (max count graph.trees.length) (Nat.le_max_left _ _)
  have within := sound.bounded _ isRoot
  have above := Nat.le_max_right count graph.trees.length
  omega

/-- The graph of a split that is not advancing a head. -/
theorem Sound.between
    (sound : Sound lang control ends roots before)
    (stays : Stays lang ends roots before after)
    (abreast : Abreast after)
    (cached : Cached lang after)
    (same : after.finished = before.finished) :
    Sound lang none ends roots after where
  stacked := stays.stacked
  abreast := abreast
  bounded := fun tree isRoot =>
    Nat.lt_of_lt_of_le (sound.bounded tree isRoot) stays.evolves.trees
  cached := cached
  acts := nofun
  finished := by
    intro root isRoot
    rw [same] at isRoot
    exact (sound.finished root isRoot).evolves stays.evolves

/-- Heads that were there before have not fallen behind since. -/
theorem Sound.abreastAfter
    (sound : Sound lang control ends roots before)
    (stays : Stays lang ends roots before after)
    (known : ∀ head ∈ after.heads, head.halted = false → head ∈ before.heads) :
    Abreast after := by
  intro head member going
  have old := known head member going
  rw [stays.evolves.owner,
    stays.evolves.byte _ (sound.stacked.linked.heads head old)]
  exact sound.abreast head old going

/-- A cache is kept with the rest of what is not the graph. -/
theorem Cached.kept
    {first second : TFSpecState}
    (cached : Cached lang first.spec)
    (same : second.control = first.control) :
    Cached lang second.spec := by
  have hasCache : second.spec.hasCache = first.spec.hasCache :=
    congrArg TFSpecControl.hasCache same
  have byte : second.spec.cachedByte = first.spec.cachedByte :=
    congrArg TFSpecControl.cachedByte same
  have token : second.spec.cached = first.spec.cached :=
    congrArg TFSpecControl.cached same
  have keyword : second.spec.cachedKeyword = first.spec.cachedKeyword :=
    congrArg TFSpecControl.cachedKeyword same
  unfold Cached
  rw [hasCache, byte, token, keyword]
  exact cached

/-- A graph of one node, which stands for the whole stack. -/
theorem Stacked.begun
    (begun : graph.Begun)
    (nodes : graph.nodes = [forkNode graph.owner])
    (heads : graph.heads = [⟨0, false, false⟩])
    (left : graph.prefixLeft = graph.owner.cells.length)
    (stack : LrStack lang graph.owner.cells) :
    Stacked lang (fun _ => False) (fun _ => False) graph := by
  have node :
      ∀ index,
        (graph.node index).links = [] ∧
          (graph.node index).linkCapacity = 0 := by
    intro index
    unfold TFSpec.node
    rw [nodes]
    cases index with
    | zero => exact ⟨rfl, rfl⟩
    | succ index => exact ⟨rfl, rfl⟩
  have isFirst : graph.node graph.frontier = forkNode graph.owner := by
    unfold TFSpec.node
    rw [begun.frontier, nodes]
    rfl
  refine ⟨⟨?_, ?_⟩, begun.isSealed, fun _ _ _ => id, ?_, ?_, ?_,
    fun _ isEnd => isEnd.elim, fun _ isEnd => isEnd.elim, ?_,
    fun _ _ _ isEnd => isEnd.elim, ?_⟩
  · intro other member link isLink
    rw [nodes, List.mem_singleton] at member
    rw [member] at isLink
    cases isLink
  · intro head member
    rw [heads, List.mem_singleton] at member
    rw [member, nodes]
    exact Nat.zero_lt_one
  · intro index _ link isLink
    rw [(node index).1] at isLink
    cases isLink
  · intro index
    rw [(node index).1, (node index).2]
    exact ⟨Nat.le_refl _, Nat.zero_le _⟩
  · intro tree reduced
    have within := reduced.within
    rw [begun.trees] at within
    exact absurd within (Nat.not_lt_zero _)
  · intro index within elsewhere
    rw [nodes] at within
    rw [begun.frontier] at elsewhere
    exact absurd (Nat.lt_one_iff.mp within) elsewhere
  · refine ⟨stack, ?_, id, Nat.le_of_eq left, ?_, ?_, ?_⟩
    · rw [begun.frontier, nodes]
      exact Nat.zero_lt_one
    · rw [isFirst, left]
      rfl
    · rw [isFirst, left, List.take_length]
      rfl
    · rw [begun.prefixTree]
      exact nofun

/-- The first graph. -/
theorem begun_sound
    {fork : TFSpecState}
    {top version : Nat}
    {reserved placed after : TFSpecState}
    (forks : Forks lang fork)
    (room : reserve .nodes 1 fork = .ok ((), reserved))
    (node :
      addNode (forkNode reserved.spec.owner) reserved =
        .ok (top, placed))
    (head : newHead top placed = .ok (version, after)) :
    Sound lang none (fun _ => False) (fun _ => False) after.spec := by
  obtain ⟨self, owner, token, lexState, keyword, isFork, stack, here⟩ :=
    forks.begins
  obtain ⟨capacity, heap, rfl⟩ := reserve_eq_ok room
  unfold addNode at node
  obtain ⟨count, _, asked, node⟩ := Program.bind_eq_ok.mp node
  cases asked
  obtain ⟨_, _, added, node⟩ := Program.bind_eq_ok.mp node
  cases added
  cases node
  obtain ⟨capacity, heap, rfl, rfl⟩ := newHead_eq_ok head
  rw [isFork]
  refine ⟨Stacked.begun ⟨rfl, ⟨_, rfl, rfl⟩, rfl, rfl, rfl, rfl⟩ rfl rfl rfl
    stack, ?_, fun _ isRoot => isRoot.elim, fun _ => here, nofun, nofun⟩
  intro head member _
  rw [List.mem_singleton.mp member]
  exact Nat.le_of_eq rfl

/-- Changing no head's node keeps what is ahead of an advance. -/
theorem Acts.beside
    {acting : Acting}
    (acts : Acts lang before acting)
    (nodes : after.nodes = before.nodes)
    (heads : after.heads = before.heads) :
    Acts lang after acting := by
  have node : ∀ index, after.node index = before.node index := by
    intro index
    unfold TFSpec.node
    rw [nodes]
  have head : ∀ version, after.head version = before.head version := by
    intro version
    unfold TFSpec.head
    rw [heads]
  refine ⟨acts.inRange, ?_, ?_, ?_, ?_⟩
  · rw [heads]
    exact acts.within
  · rw [head]
    exact acts.going
  · rw [head, node]
    exact acts.token
  · intro index own inRange
    rw [heads] at inRange
    rw [head, head, node, node]
    exact acts.ahead index own inRange

/-- A head of the graph is one of its list. -/
theorem head_mem
    {version : Nat}
    (inRange : version < graph.heads.length) :
    graph.head version ∈ graph.heads := by
  unfold TFSpec.head
  rw [List.getD_eq_getElem _ _ inRange]
  exact List.getElem_mem inRange

/-- Putting heads of the graph in other places. -/
theorem Sound.rearranged
    {fewer : List TFSpecHead}
    (sound : Sound lang none ends roots graph)
    (known : ∀ head ∈ fewer, head ∈ graph.heads) :
    Sound lang none ends roots { graph with heads := fewer } := by
  have stays :
      Stays lang ends roots graph { graph with heads := fewer } := by
    refine sound.stacked.aside ?_ ?_
    · exact ⟨rfl, rfl, rfl, rfl, rfl, rfl, rfl, rfl, rfl⟩
    · intro head member
      exact sound.stacked.ownHeads head (known head member)
  exact sound.between stays
    (sound.abreastAfter stays (fun head member _ => known head member))
    sound.cached rfl

/-- Halting a head. -/
theorem Sound.halted
    (sound : Sound lang control ends roots graph)
    (version : Nat)
    (errored : Bool) :
    Sound lang none ends roots
      (graph.modifyHead version (fun head =>
        { head with
          halted := true
          errored := errored || head.errored })) := by
  let halts : TFSpecHead → TFSpecHead :=
    fun head =>
      { head with
        halted := true
        errored := errored || head.errored }
  have stays :
      Stays lang ends roots graph (graph.modifyHead version halts) := by
    refine sound.stacked.aside ?_ ?_
    · exact ⟨rfl, rfl, rfl, rfl, rfl, rfl, rfl, rfl, rfl⟩
    · intro head member
      obtain ⟨place, inRange, rfl⟩ := List.mem_iff_getElem.mp member
      simp only [modifyHead, List.length_modify] at inRange
      have known :=
        sound.stacked.ownHeads _ (List.getElem_mem inRange)
      simp only [modifyHead, List.getElem_modify]
      split
      · exact ⟨known.1, fun goes => by cases goes⟩
      · exact known
  refine sound.between stays (sound.abreastAfter stays ?_) sound.cached rfl
  intro head member going
  obtain ⟨place, inRange, rfl⟩ := List.mem_iff_getElem.mp member
  simp only [modifyHead, List.length_modify] at inRange
  simp only [modifyHead, List.getElem_modify] at going ⊢
  split at going
  · cases going
  · rename_i elsewhere
    rw [if_neg elsewhere]
    exact List.getElem_mem inRange

/-- A failure that is recorded leaves the graph. -/
theorem recordError_leaves
    (self : TFSpec)
    (lang : TFLanguage)
    (byte : Nat)
    (point : TFPoint)
    (state : TSStateId)
    (symbol : TSSymbol)
    (isLex : Bool) :
    SameGraph self (self.recordError byte point state symbol isLex) ∧
      (self.recordError byte point state symbol isLex).heads = self.heads ∧
        (Cached lang self →
          Cached lang (self.recordError byte point state symbol isLex)) := by
  unfold recordError
  split
  · exact ⟨⟨rfl, rfl, rfl, rfl, rfl, rfl, rfl, rfl, rfl⟩, rfl, id⟩
  · exact ⟨⟨rfl, rfl, rfl, rfl, rfl, rfl, rfl, rfl, rfl⟩, rfl, id⟩

/-- A failure that is recorded leaves the root kept so far. -/
theorem finished_recordError
    (self : TFSpec)
    (byte : Nat)
    (point : TFPoint)
    (state : TSStateId)
    (symbol : TSSymbol)
    (isLex : Bool) :
    (self.recordError byte point state symbol isLex).finished =
      self.finished := by
  unfold recordError
  split <;> rfl

/-- So does lexing. -/
theorem finished_lex
    (env : TFSpecEnv)
    (node : Nat) :
    Keeps finishedOf (lex env node) := by
  unfold lex
  refine Keeps.bind keeps_asks (fun at_ => ?_)
  refine Keeps.bind keeps_asks (fun reuses => ?_)
  refine Keeps.ite keeps_asks ?_
  refine Keeps.bind (Keeps.modifyGet (fun _ => rfl)) (fun found => ?_)
  cases found with
  | none =>
      exact Keeps.bind
        (Keeps.modify (fun _ => finished_recordError _ _ _ _ _ _))
        (fun _ => Keeps.pure)
  | some token =>
      exact Keeps.modifyGet (fun _ => rfl)

/-- Lexing leaves the graph, and its token may be acted on where it stands. -/
theorem lex_sound
    {env : TFSpecEnv}
    {node : Nat}
    {found : Option (TFToken × Bool)}
    {before after : TFSpecState}
    (tokens : SpanningTokens env.lang)
    (cached : Cached env.lang before.spec)
    (ran : lex env node before = .ok (found, after)) :
    SameGraph before.spec after.spec ∧
      after.spec.heads = before.spec.heads ∧
        Cached env.lang after.spec ∧
          ∀ token keyword, found = some (token, keyword) →
            TokenAt env.lang (before.spec.node node).byte token keyword := by
  unfold lex at ran
  obtain ⟨at_, _, asked, ran⟩ := Program.bind_eq_ok.mp ran
  simp only [asks, Program.gets_apply, Except.ok.injEq,
    Prod.mk.injEq] at asked
  obtain ⟨rfl, rfl⟩ := asked
  obtain ⟨reuses, _, asked, ran⟩ := Program.bind_eq_ok.mp ran
  simp only [asks, Program.gets_apply, Except.ok.injEq,
    Prod.mk.injEq] at asked
  obtain ⟨isReuse, rfl⟩ := asked
  cases reuses with
  | true =>
      rw [if_pos rfl] at ran
      cases ran
      refine ⟨⟨rfl, rfl, rfl, rfl, rfl, rfl, rfl, rfl, rfl⟩, rfl, cached,
        ?_⟩
      intro token keyword same
      cases same
      unfold canReuse at isReuse
      simp only [Bool.and_eq_true, beq_iff_eq] at isReuse
      obtain ⟨⟨hasCache, byte⟩, _⟩ := isReuse
      rw [← byte]
      exact cached hasCache
  | false =>
      rw [if_neg Bool.false_ne_true] at ran
      obtain ⟨result, lexed, lexes, ran⟩ := Program.bind_eq_ok.mp ran
      let lexer :=
        before.lexer.seek (before.spec.node node).byte
          (before.spec.node node).point
      let state := (before.spec.node node).state
      have isResult :
          result = (lexer.next env.lang state).1 ∧
            lexed =
              { before with lexer := (lexer.next env.lang state).2 } := by
        cases lexes
        exact ⟨rfl, rfl⟩
      obtain ⟨isToken, rfl⟩ := isResult
      cases result with
      | none =>
          obtain ⟨_, reported, reports, ran⟩ := Program.bind_eq_ok.mp ran
          cases reports
          cases ran
          obtain ⟨same, heads, kept⟩ :=
            before.spec.recordError_leaves env.lang _ _ _ _ _
          exact ⟨same, heads, kept cached, fun _ _ found => by cases found⟩
      | some token =>
          have here :=
            TFLexer.next_tokenAt tokens
              (TFLexer.getLookahead_seek before.lexer _ _) isToken.symm
          cases ran
          refine ⟨⟨rfl, rfl, rfl, rfl, rfl, rfl, rfl, rfl, rfl⟩, rfl,
            fun _ => here, ?_⟩
          intro found keyword same
          cases same
          exact here

/-- Moving a head to where another of its advance stands. -/
theorem Acts.follow
    {acting : Acting}
    (acts : Acts lang before acting)
    {last : Nat}
    (own : acting.first ≤ last)
    (inRange : last < before.heads.length)
    (nodes : after.nodes = before.nodes)
    (heads :
      after.heads =
        (before.heads.modify acting.version
          (fun _ => before.head last)).eraseIdx last) :
    Acts lang after acting := by
  have apart : acting.version < last := Nat.lt_of_lt_of_le acts.inRange own
  have length : after.heads.length = before.heads.length - 1 := by
    rw [heads, List.length_eraseIdx, List.length_modify, if_pos inRange]
  obtain ⟨lastGoing, lastByte⟩ := acts.ahead last own inRange
  have node : ∀ index, after.node index = before.node index := by
    intro index
    unfold TFSpec.node
    rw [nodes]
  have here : after.head acting.version = before.head last := by
    unfold TFSpec.head
    rw [List.getD_eq_getElem _ _ (by omega)]
    simp only [heads, List.getElem_eraseIdx, apart, List.getElem_modify]
    rfl
  have other :
      ∀ index, acting.first ≤ index → index < after.heads.length →
        ∃ old, acting.first ≤ old ∧ old < before.heads.length ∧
          after.head index = before.head old := by
    intro index ownIndex within
    have elsewhere := acts.inRange
    refine ⟨if index < last then index else index + 1, ?_, ?_, ?_⟩
    · split <;> omega
    · split <;> omega
    · unfold TFSpec.head
      rw [List.getD_eq_getElem _ _ within]
      simp only [heads, List.getElem_eraseIdx, List.getElem_modify]
      split
      · rw [if_neg (by omega), List.getD_eq_getElem _ _ (by omega)]
      · rw [if_neg (by omega), List.getD_eq_getElem _ _ (by omega)]
  refine ⟨acts.inRange, by omega, ?_, ?_, ?_⟩
  · rw [here]
    exact lastGoing
  · rw [here, node, lastByte]
    exact acts.token
  · intro index ownIndex within
    obtain ⟨old, ownOld, oldWithin, same⟩ := other index ownIndex within
    obtain ⟨going, byte⟩ := acts.ahead old ownOld oldWithin
    rw [same, here, node, node, lastByte]
    exact ⟨going, byte⟩

end Soundness

/-! ## Every graph of a split -/

section Explorations

variable {env : TFSpecEnv}
variable {fork : TFSpecState}
variable {depth : Nat}

/-- A split's private replay keeps to a graph of LR stacks. -/
theorem replay_stays
    (isReplay : env.materialize = materialize env.lang depth)
    {ends roots : Nat → Prop}
    {before after : TFSpecState}
    (stacked : Stacked env.lang ends roots before.spec)
    (ran : env.materialize before = .ok ((), after)) :
    Stays env.lang ends roots before.spec after.spec := by
  rw [isReplay] at ran
  exact materialize_stays stacked ran

/-- And it leaves the heads. -/
theorem replay_heads
    (isReplay : env.materialize = materialize env.lang depth) :
    Keeps headsOf env.materialize := by
  rw [isReplay]
  exact headsOf_materialize env.lang depth

/-- A reduction keeps the advance it is part of. -/
theorem Acts.reduce
    {ends : Nat → Prop}
    {before after : TFSpec}
    {acting : Acting}
    {finished : List TFSpecHead}
    (acts : Acts env.lang before acting)
    (linked : before.Linked)
    (evolves : Evolves before after)
    (heads : after.heads = before.heads ++ finished)
    (advanced :
      ∀ head ∈ finished,
        Advanced ends after
          (before.node (before.head acting.version).node).byte head) :
    Acts env.lang after acting := by
  have old :
      ∀ index < before.heads.length,
        after.head index = before.head index := by
    intro index within
    unfold TFSpec.head
    rw [heads, List.getD_append _ _ _ _ within]
  have versionWithin : acting.version < before.heads.length :=
    Nat.lt_of_lt_of_le acts.inRange acts.within
  have same := old acting.version versionWithin
  have nodeWithin : ∀ index < before.heads.length,
      (before.head index).node < before.nodes.length :=
    fun index within => linked.heads _ (head_mem within)
  have byte := evolves.byte _ (nodeWithin acting.version versionWithin)
  refine ⟨acts.inRange, ?_, ?_, ?_, ?_⟩
  · rw [heads, List.length_append]
    exact Nat.le_trans acts.within (Nat.le_add_right _ _)
  · rw [same]
    exact acts.going
  · rw [same, byte]
    exact acts.token
  · intro index own within
    rw [same, byte]
    by_cases known : index < before.heads.length
    · obtain ⟨going, sameByte⟩ := acts.ahead index own known
      rw [old index known, evolves.byte _ (nodeWithin index known)]
      exact ⟨going, sameByte⟩
    · have isNew : after.head index ∈ finished := by
        rw [heads, List.length_append] at within
        unfold TFSpec.head
        rw [heads, List.getD_append_right _ _ _ _ (Nat.le_of_not_lt known),
          List.getD_eq_getElem _ _ (by omega)]
        exact List.getElem_mem _
      have ahead := advanced _ isNew
      exact ⟨ahead.going, ahead.byte⟩

/-- Every graph of a split is one of LR stacks. -/
theorem Explored.sound
    (tables : SpanningTables env.lang)
    (isReplay : env.materialize = materialize env.lang depth)
    (forks : Forks env.lang fork)
    {control : Option Acting}
    {ends roots : Nat → Prop}
    {state : TFSpecState}
    (explored : Explored env fork control ends roots state) :
    Sound env.lang control ends roots state.spec := by
  have leavesControl : Keeps TFSpecState.control env.materialize := by
    rw [isReplay]
    exact keeps_materialize env.lang depth
  have leavesFinished : Keeps finishedOf env.materialize := by
    rw [isReplay]
    exact keeps_materialize env.lang depth
  induction explored with
  | begun room node head =>
      exact begun_sound forks room node head
  | @lexed ends roots version token keyword before after earlier inRange
      going ran inductionHypothesis =>
      obtain ⟨same, heads, cached, found⟩ :=
        lex_sound tables.tokens inductionHypothesis.cached ran
      have stays := inductionHypothesis.stacked.beside same heads
      have abreast :=
        inductionHypothesis.abreastAfter stays (by
          rw [heads]
          exact fun _ member _ => member)
      have between :=
        inductionHypothesis.between stays abreast cached
          (finished_lex _ _ _ _ _ ran)
      refine ⟨between.stacked, abreast, between.bounded, cached, ?_,
        between.finished⟩
      rintro acting ⟨⟩
      have start :
          Acts env.lang before.spec
            ⟨version, before.spec.heads.length, token, keyword⟩ :=
        ⟨inRange, Nat.le_refl _, going, found _ _ rfl,
          fun index own within => absurd within (Nat.not_lt.mpr own)⟩
      exact start.beside same.nodes heads
  | unlexed earlier ran inductionHypothesis =>
      obtain ⟨same, heads, cached, _⟩ :=
        lex_sound tables.tokens inductionHypothesis.cached ran
      have stays := inductionHypothesis.stacked.beside same heads
      refine inductionHypothesis.between stays
        (inductionHypothesis.abreastAfter stays ?_) cached
        (finished_lex _ _ _ _ _ ran)
      rw [heads]
      exact fun _ member _ => member
  | @shifted ends roots acting state target extra repetition before after
      earlier here known ran inductionHypothesis =>
      have acts := inductionHypothesis.acts acting rfl
      have notEnd : acting.token.symbol ≠ tsBuiltinSymEnd := by
        intro isEnd
        rw [isEnd] at known
        exact tables.endUnshifted _ _ _ _ known
      have isState :
          (if extra then state else target) =
            if extra then
              (before.spec.node
                (before.spec.head acting.version).node).state
            else
              env.lang.nextState
                (before.spec.node
                  (before.spec.head acting.version).node).state
                acting.token.symbol := by
        cases extra with
        | true =>
            rw [if_pos rfl, if_pos rfl]
            exact here
        | false =>
            rw [if_neg Bool.false_ne_true, if_neg Bool.false_ne_true,
              ← here]
            exact (tables.nextState_of_shift acts.token.terminal known).symm
      have sameFinished : finishedOf after = finishedOf before :=
        keeps_shift _ _ _ _ _ _ _ ran
      obtain ⟨stays, abreast⟩ :=
        shift_stays inductionHypothesis.settled inductionHypothesis.stacked
          inductionHypothesis.abreast
          (Nat.lt_of_lt_of_le acts.inRange acts.within) acts.going isState
          (acts.token.beyond notEnd) ran
      exact inductionHypothesis.between stays abreast
        (inductionHypothesis.cached.kept
          (keeps_shift _ _ _ _ _ _ _ ran))
        sameFinished
  | @reduced ends roots acting childCount productionId symbol
      dynamicPrecedence state created before after earlier known ran
      inductionHypothesis =>
      have acts := inductionHypothesis.acts acting rfl
      have positive :=
        tables.reduces _ _ _ _ _ _ acts.token.terminal known
      obtain ⟨stays, finished, heads, advanced, _⟩ :=
        reduce_stays (replay_stays isReplay)
          inductionHypothesis.settled (replay_heads isReplay)
          inductionHypothesis.stacked acts.going positive ran
      have cached :=
        inductionHypothesis.cached.kept
          (keeps_reduce leavesControl _ _ _ _ _ _ _ _ ran)
      have beyond :=
        inductionHypothesis.abreast.head
          (Nat.lt_of_lt_of_le acts.inRange acts.within) acts.going
      have abreast : Abreast after.spec := by
        intro head member going
        rw [heads] at member
        rw [stays.evolves.owner]
        rcases List.mem_append.mp member with old | new
        · rw [stays.evolves.byte _
            (inductionHypothesis.stacked.linked.heads head old)]
          exact inductionHypothesis.abreast head old going
        · rw [(advanced head new).byte]
          exact beyond
      have sameFinished : finishedOf after = finishedOf before :=
        keeps_reduce leavesFinished _ _ _ _ _ _ _ _ ran
      have between :=
        inductionHypothesis.between stays abreast cached sameFinished
      refine ⟨between.stacked, abreast, between.bounded, cached, ?_,
        between.finished⟩
      rintro acting ⟨⟩
      exact acts.reduce inductionHypothesis.stacked.linked stays.evolves
        heads advanced
  | @accepted ends roots acting before after earlier ran
      inductionHypothesis =>
      have acts := inductionHypothesis.acts acting rfl
      obtain ⟨stays, abreast, _, finished⟩ :=
        accept_stays (replay_stays isReplay) (replay_heads isReplay)
          leavesFinished inductionHypothesis.settled
          inductionHypothesis.stacked inductionHypothesis.abreast
          (Nat.lt_of_lt_of_le acts.inRange acts.within) acts.going
          inductionHypothesis.finished ran
      refine ⟨stays.stacked, abreast, ?_,
        inductionHypothesis.cached.kept
          (keeps_accept leavesControl _ _ _ _ _ ran),
        nofun, finished⟩
      rintro tree (isRoot | ⟨_, within⟩)
      · exact Nat.lt_of_lt_of_le (inductionHypothesis.bounded tree isRoot)
          stays.evolves.trees
      · exact within
  | @followed ends roots acting last before moved after earlier own inRange
      moves ran inductionHypothesis =>
      have acts := inductionHypothesis.acts acting rfl
      cases moves
      cases ran
      have rearranged :
          Sound env.lang none ends roots
            { before.spec with
              heads :=
                (before.spec.heads.modify acting.version
                  (fun _ => before.spec.head last)).eraseIdx last } := by
        refine Sound.rearranged
          ⟨inductionHypothesis.stacked, inductionHypothesis.abreast,
            inductionHypothesis.bounded, inductionHypothesis.cached,
            nofun, inductionHypothesis.finished⟩ ?_
        intro head member
        have inside := List.mem_of_mem_eraseIdx member
        obtain ⟨place, placeWithin, rfl⟩ := List.mem_iff_getElem.mp inside
        rw [List.length_modify] at placeWithin
        rw [List.getElem_modify]
        split
        · exact head_mem inRange
        · exact List.getElem_mem placeWithin
      refine ⟨rearranged.stacked, rearranged.abreast, rearranged.bounded,
        rearranged.cached, ?_, rearranged.finished⟩
      rintro acting ⟨⟩
      exact acts.follow own inRange rfl rfl
  | @demoted ends roots acting state token graph earlier demotes
      inductionHypothesis =>
      have acts := inductionHypothesis.acts acting rfl
      refine ⟨inductionHypothesis.stacked, inductionHypothesis.abreast,
        inductionHypothesis.bounded, inductionHypothesis.cached, ?_,
        inductionHypothesis.finished⟩
      rintro other ⟨⟩
      exact ⟨acts.inRange, acts.within, acts.going,
        acts.token.demoted tables.tokens demotes, acts.ahead⟩
  | halted earlier ran inductionHypothesis =>
      cases ran
      exact inductionHypothesis.halted _ _
  | @reported control ends roots byte point state symbol isLex before after
      earlier ran inductionHypothesis =>
      cases ran
      obtain ⟨same, heads, kept⟩ :=
        before.spec.recordError_leaves env.lang byte point state
          symbol isLex
      have stays := inductionHypothesis.stacked.beside same heads
      have abreast :=
        inductionHypothesis.abreastAfter stays (by
          rw [heads]
          exact fun _ member _ => member)
      have between :=
        inductionHypothesis.between stays abreast
          (kept inductionHypothesis.cached)
          (finished_recordError _ _ _ _ _ _)
      refine ⟨between.stacked, abreast, between.bounded, between.cached, ?_,
        between.finished⟩
      intro acting isActing
      exact (inductionHypothesis.acts acting isActing).beside same.nodes
        heads
  | @merged ends roots a b answer before after earlier ran
      inductionHypothesis =>
      have stays :=
        merge_stays (replay_stays isReplay) inductionHypothesis.settled
          inductionHypothesis.stacked ran
      have sameFinished : finishedOf after = finishedOf before :=
        keeps_merge leavesFinished _ _ _ _ _ _ ran
      refine inductionHypothesis.between stays
        (inductionHypothesis.abreastAfter stays ?_)
        (inductionHypothesis.cached.kept
          (keeps_merge leavesControl _ _ _ _ _ _ ran))
        sameFinished
      intro head member _
      rw [heads_merge (replay_heads isReplay) ran] at member
      split at member
      · exact List.mem_of_mem_eraseIdx member
      · exact member
  | removed earlier ran inductionHypothesis =>
      cases ran
      exact inductionHypothesis.rearranged
        (fun head member => List.mem_of_mem_eraseIdx member)
  | @swapped ends roots i j before after earlier inRange ran
      inductionHypothesis =>
      cases ran
      refine inductionHypothesis.rearranged ?_
      intro head member
      rcases List.mem_or_eq_of_mem_set member with within | rfl
      · rcases List.mem_or_eq_of_mem_set within with old | rfl
        · exact old
        · exact head_mem inRange.2
      · exact head_mem inRange.1
  | cut earlier ran inductionHypothesis =>
      cases ran
      exact inductionHypothesis.rearranged
        (fun head member => List.mem_of_mem_take member)
  | @flagged control ends roots before after earlier ran
      inductionHypothesis =>
      cases ran
      have stays :
          Stays env.lang ends roots before.spec before.spec.limit :=
        inductionHypothesis.stacked.beside
          ⟨rfl, rfl, rfl, rfl, rfl, rfl, rfl, rfl, rfl⟩ rfl
      have abreast :=
        inductionHypothesis.abreastAfter stays (fun _ member _ => member)
      have between :=
        inductionHypothesis.between stays abreast
          inductionHypothesis.cached rfl
      refine ⟨between.stacked, abreast, between.bounded, between.cached, ?_,
        between.finished⟩
      intro acting isActing
      exact (inductionHypothesis.acts acting isActing).beside rfl rfl

/-- A split never changes what the driver's stack was. -/
theorem Explored.owner
    (tables : SpanningTables env.lang)
    (isReplay : env.materialize = materialize env.lang depth)
    (forks : Forks env.lang fork)
    {control : Option Acting}
    {ends roots : Nat → Prop}
    {state : TFSpecState}
    (explored : Explored env fork control ends roots state) :
    state.spec.owner = fork.spec.owner := by
  have leavesControl : Keeps TFSpecState.control env.materialize := by
    rw [isReplay]
    exact keeps_materialize env.lang depth
  have kept :
      ∀ {first second : TFSpecState},
        second.control = first.control →
          first.spec.owner = fork.spec.owner →
            second.spec.owner = fork.spec.owner := by
    intro first second same earlier
    exact (congrArg TFSpecControl.owner same).trans earlier
  have lexes :
      ∀ {ends roots : Nat → Prop} {node : Nat}
        {found : Option (TFToken × Bool)} {before after : TFSpecState},
        Explored env fork none ends roots before →
          lex env node before = .ok (found, after) →
            after.spec.owner = before.spec.owner := by
    intro ends roots node found before after earlier ran
    have sound := earlier.sound tables isReplay forks
    exact (lex_sound tables.tokens sound.cached ran).1.owner
  induction explored with
  | begun room node head =>
      obtain ⟨capacity, heap, rfl⟩ := reserve_eq_ok room
      exact kept (keeps_newHead _ _ _ _ head)
        (kept (keeps_addNode _ _ _ _ node) rfl)
  | lexed earlier inRange going ran inductionHypothesis =>
      exact (lexes earlier ran).trans inductionHypothesis
  | unlexed earlier ran inductionHypothesis =>
      exact (lexes earlier ran).trans inductionHypothesis
  | shifted earlier here acts ran inductionHypothesis =>
      exact kept (keeps_shift _ _ _ _ _ _ _ ran) inductionHypothesis
  | reduced earlier acts ran inductionHypothesis =>
      exact kept (keeps_reduce leavesControl _ _ _ _ _ _ _ _ ran)
        inductionHypothesis
  | accepted earlier ran inductionHypothesis =>
      exact kept (keeps_accept leavesControl _ _ _ _ _ ran)
        inductionHypothesis
  | followed earlier own inRange moves ran inductionHypothesis =>
      cases moves
      cases ran
      exact inductionHypothesis
  | demoted earlier demotes inductionHypothesis =>
      exact inductionHypothesis
  | halted earlier ran inductionHypothesis =>
      cases ran
      exact inductionHypothesis
  | @reported _ _ _ byte point state symbol isLex before after earlier ran
      inductionHypothesis =>
      cases ran
      exact (before.spec.recordError_leaves env.lang byte point state symbol
        isLex).1.owner.trans inductionHypothesis
  | merged earlier ran inductionHypothesis =>
      exact kept (keeps_merge leavesControl _ _ _ _ _ _ ran)
        inductionHypothesis
  | removed earlier ran inductionHypothesis =>
      cases ran
      exact inductionHypothesis
  | swapped earlier inRange ran inductionHypothesis =>
      cases ran
      exact inductionHypothesis
  | cut earlier ran inductionHypothesis =>
      cases ran
      exact inductionHypothesis
  | flagged earlier ran inductionHypothesis =>
      cases ran
      exact inductionHypothesis

/-- And so is every graph that a split holds. -/
theorem Visited.stacked
    (tables : SpanningTables env.lang)
    (isReplay : env.materialize = materialize env.lang depth)
    (forks : Forks env.lang fork)
    {ends roots : Nat → Prop}
    {state : TFSpecState}
    (visited : Visited env fork ends roots state) :
    Stacked env.lang ends roots state.spec := by
  cases visited with
  | explored explored =>
      exact (explored.sound tables isReplay forks).stacked
  | popped earlier ran =>
      have stacked := (earlier.sound tables isReplay forks).stacked
      exact (strolling_pop stacked (Or.inr rfl) ran).stays.stacked

end Explorations

end TFSpec

end TreeFeller
