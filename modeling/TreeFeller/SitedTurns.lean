import TreeFeller.SitedGraphs
import Mathlib.Data.List.InsertIdx

/-!
# Positions through a split

Lexing gives tokens on the path, and what a head is advanced by is such a
token.  Every stack that is popped to accept ends in the end token, so a
finished root ends where that does: at the end of the input, if only the end
token is accepted on and it is only lexed there.
-/

namespace TreeFeller

open StatefulProgram
open TFLexer

/--
What is asked of a language and a source: of the terminals, which are all that
is lexed, only the end token is accepted on; and it is lexed at the end of the
input only.
-/
structure EndsInput (lang : TFLanguage) (source : List UInt8) : Prop where
  accepts :
    ∀ state symbol, symbol < lang.ts.tokenCount →
      TSParseAction.accept ∈ lang.actions state symbol →
        symbol = tsBuiltinSymEnd
  lexes :
    ∀ (lexer : TFLexer) (state : TSStateId) (token : TFToken),
      lexer.Placed source →
        (lexer.next lang state).1 = some token →
          token.symbol < lang.ts.tokenCount ∧
            (token.symbol = tsBuiltinSymEnd →
              token.endByte = source.length)
  capture : lang.ts.keywordCaptureToken < lang.ts.tokenCount

namespace TFLexer

/-- A lexer on the path, which has only words of the language demoted. -/
structure Sited
    (lang : TFLanguage)
    (source : List UInt8)
    (lexer : TFLexer) : Prop where
  placed : lexer.Placed source
  keyword :
    lexer.tokenIsKeyword = true →
      lang.ts.keywordCaptureToken ≠ tsBuiltinSymEnd

section Lexing

variable {lang : TFLanguage}
variable {source : List UInt8}
variable {self : TFLexer}

/-- A lexer starts sited. -/
theorem sited_init (lang : TFLanguage) (source : List UInt8) :
    (init source source.length).Sited lang source where
  placed := placed_init source
  keyword := by
    intro keyword
    exact absurd keyword Bool.false_ne_true

/-- Going to a position on the path. -/
theorem Sited.seek
    (sited : self.Sited lang source)
    {byte : Nat}
    {point : TFPoint}
    (onPath : OnPath source (byte, point)) :
    (self.seek byte point).Sited lang source :=
  ⟨sited.placed.seek onPath, sited.keyword⟩

/-- The token that is lexed next lies on the path. -/
theorem Placed.next_token
    (placed : self.Placed source)
    {state : TSStateId}
    {token : TFToken}
    (lexed : (self.next lang state).1 = some token) :
    token.Placed source := by
  have nexts := self.next_spec lang state
  generalize self.next lang state = result at nexts lexed
  cases nexts with
  | missed main =>
      cases lexed
  | plain main _ =>
      obtain ⟨ended, onPath⟩ := placed.mainLex main
      cases lexed
      exact ⟨ended.start, onPath⟩
  | word main _ keyword _ =>
      obtain ⟨ended, onPath⟩ := placed.mainLex main
      cases lexed
      exact ⟨ended.start, onPath⟩
  | keyword main _ keyword _ =>
      obtain ⟨ended, onPath⟩ := placed.mainLex main
      cases lexed
      exact ⟨ended.start, onPath⟩

/-- A word is never the end token. -/
theorem keywordCaptureToken_ne_of_isWord
    (word : self.isWord lang = true) :
    lang.ts.keywordCaptureToken ≠ tsBuiltinSymEnd := by
  intro isEnd
  unfold TFLexer.isWord at word
  rw [isEnd] at word
  simp [tsBuiltinSymEnd] at word

/-- What lexing leaves says a token is a keyword only of words. -/
theorem next_keyword
    (state : TSStateId)
    (isKeyword : (self.next lang state).2.tokenIsKeyword = true) :
    lang.ts.keywordCaptureToken ≠ tsBuiltinSymEnd := by
  have nexts := self.next_spec lang state
  generalize self.next lang state = result at nexts isKeyword
  have plain :
      ∀ {found lexed},
        self.mainLex lang state = (found, lexed) →
          lexed.tokenIsKeyword = false := by
    intro found lexed main
    have same := lexWith_tokenIsKeyword (self.entered state)
      (lang.ts.lexFn (lang.lexMode state).lexState)
    have ran : (self.mainLex lang state).2 = lexed := congrArg Prod.snd main
    rw [← ran]
    exact same
  cases nexts with
  | missed main =>
      exact absurd isKeyword (by rw [plain main]; exact Bool.false_ne_true)
  | plain main _ =>
      have no : _ = false := plain main
      exact absurd (no.symm.trans isKeyword) Bool.false_ne_true
  | word main isWord _ _ =>
      exact keywordCaptureToken_ne_of_isWord isWord
  | keyword main isWord _ _ =>
      exact keywordCaptureToken_ne_of_isWord isWord

/-- Lexing leaves a sited lexer, and a sound token if any. -/
theorem Placed.next_sited
    (ends : EndsInput lang source)
    (placed : self.Placed source)
    (state : TSStateId) :
    (self.next lang state).2.Sited lang source ∧
      ∀ token, (self.next lang state).1 = some token →
        token.Sound lang source := by
  refine ⟨⟨placed.next_placed lang state, next_keyword state⟩, ?_⟩
  intro token lexed
  obtain ⟨terminal, atEnd⟩ := ends.lexes self state token placed lexed
  exact ⟨placed.next_token lexed, terminal, atEnd⟩

end Lexing

end TFLexer

/-- Demoting a keyword leaves it where it stands. -/
theorem TFToken.Sound.demoteKeyword
    {lang : TFLanguage}
    {source : List UInt8}
    {token demoted : TFToken}
    {state : TSStateId}
    {wasKeyword : Bool}
    (ends : EndsInput lang source)
    (sound : token.Sound lang source)
    (keyword :
      wasKeyword = true → lang.ts.keywordCaptureToken ≠ tsBuiltinSymEnd)
    (demotes : token.demoteKeyword lang state wasKeyword = some demoted) :
    demoted.Sound lang source := by
  unfold TFToken.demoteKeyword at demotes
  dsimp only at demotes
  split at demotes
  · cases demotes
  rename_i goes
  split at demotes
  · cases demotes
  split at demotes
  · cases demotes
  cases demotes
  have isKeyword : wasKeyword = true := by
    cases wasKeyword with
    | true => rfl
    | false => exact absurd rfl goes
  exact
    ⟨⟨sound.placed.start, sound.placed.ending⟩, ends.capture,
      fun isEnd => absurd isEnd (keyword isKeyword)⟩

namespace TFSpec

open Program

section Lexing

variable {source : List UInt8}
variable {marks : List (Nat × TFToken × Bool)}
variable {floor : Nat}
variable {env : TFSpecEnv}

/-- Recording a failure drops no head. -/
theorem heads_recordError
    (self : TFSpec)
    (byte : Nat)
    (point : TFPoint)
    (state : TSStateId)
    (symbol : TSSymbol)
    (isLex : Bool) :
    (self.recordError byte point state symbol isLex).heads = self.heads := by
  unfold recordError
  split <;> rfl

variable (ends : EndsInput env.lang source)

include ends

/-- Lexing at a node: the token is sound, and a keyword only if words are. -/
theorem sites_lex
    (node : Nat) :
    Ensures
      (Sites env.lang source marks
        (Above (TFLexer.Sited env.lang source) floor))
      (lex env node)
      (fun found state =>
        Sites env.lang source marks
            (Above (TFLexer.Sited env.lang source) floor) state ∧
          ∀ token keyword, found = some (token, keyword) →
            token.Sound env.lang source ∧
              (keyword = true →
                env.lang.ts.keywordCaptureToken ≠ tsBuiltinSymEnd)) := by
  intro before found after sites ran
  unfold lex at ran
  obtain ⟨at_, _, asked, ran⟩ := Program.bind_eq_ok.mp ran
  cases asked
  obtain ⟨reuse, _, asked, ran⟩ := Program.bind_eq_ok.mp ran
  cases asked
  split at ran
  · cases ran
    refine ⟨sites, ?_⟩
    intro token keyword same
    cases same
    exact ⟨sites.graph.cached, sites.graph.keyword⟩
  · obtain ⟨lexed, middle, looked, ran⟩ := Program.bind_eq_ok.mp ran
    have onPath := sites.graph.node node
    have sought := sites.rest.1.placed.seek onPath
    have nexts := TFLexer.Placed.next_sited ends sought
      (before.spec.node node).state
    cases looked
    generalize (before.lexer.seek (before.spec.node node).byte
      (before.spec.node node).point).next env.lang
        (before.spec.node node).state = result at nexts ran
    obtain ⟨answer, lexer⟩ := result
    obtain ⟨sound, tokens⟩ := nexts
    cases answer with
    | none =>
        obtain ⟨_, _, recorded, ran⟩ := Program.bind_eq_ok.mp ran
        cases recorded
        cases ran
        have recorded :=
          sites.graph.recordError sound.placed.onPath
            (before.spec.node node).state 0 true
        refine ⟨⟨recorded, ⟨sound, ?_⟩, sound.placed.settled.reading⟩, ?_⟩
        · rw [heads_recordError]
          exact sites.rest.2
        intro token keyword same
        cases same
    | some token =>
        cases ran
        refine
          ⟨⟨?_, ⟨sound, sites.rest.2⟩, sound.placed.settled.reading⟩, ?_⟩
        · exact
            { sights := sites.graph.sights
              marked := sites.graph.marked
              places := sites.graph.places
              cells := sites.graph.cells
              cached := tokens token rfl
              keyword := sound.keyword
              error := sites.graph.error
              finished := sites.graph.finished }
        · intro again keyword same
          cases same
          exact ⟨tokens token rfl, sound.keyword⟩

end Lexing

/-! ## Popping a whole stack to accept -/

/-- An iterator that has not left a node yet, or went over a tree first. -/
def Closing (origin leaf : Nat) (iterator : TFSpecIterator) : Prop :=
  iterator.path = [] ∧ iterator.node = origin ∨
    iterator.path.getLast? = some leaf

/-- A graph where one tree leads down from a node, and closes every slice. -/
structure Capped (origin leaf : Nat) (graph : TFSpec) : Prop where
  links : (graph.node origin).links ≠ []
  leads : ∀ link ∈ (graph.node origin).links, link.tree = leaf
  slices : ∀ slice ∈ graph.slices, slice.children.getLast? = some leaf

section Whole

variable {origin leaf : Nat}

/-- Following a link leads on. -/
theorem Closing.step
    {graph : TFSpec}
    (capped : Capped origin leaf graph)
    {iterator : TFSpecIterator}
    (descends : Closing origin leaf iterator)
    {link : TFSpecLink}
    (isLink : link ∈ (graph.node iterator.node).links) :
    Closing origin leaf (graph.stepIterator iterator link) := by
  right
  unfold stepIterator
  rcases descends with ⟨nothing, here⟩ | closed
  · rw [here] at isLink
    rw [nothing, capped.leads link isLink]
    rfl
  · rw [List.getLast?_cons, closed]
    rfl

/-- A path that ends has gone over the tree. -/
theorem Closing.ended
    {graph : TFSpec}
    (capped : Capped origin leaf graph)
    {iterator : TFSpecIterator}
    (descends : Closing origin leaf iterator)
    (over_ : graph.popEnds none iterator.node iterator.count = true) :
    iterator.path.getLast? = some leaf := by
  rcases descends with ⟨_, here⟩ | closed
  · rw [here] at over_
    exact absurd (List.isEmpty_iff.mp over_) capped.links
  · exact closed

/-- What neither changes nodes nor slices leaves them capped. -/
theorem Capped.aside
    {before after : TFSpec}
    (capped : Capped origin leaf before)
    (nodes : after.nodes = before.nodes)
    (slices : after.slices = before.slices) :
    Capped origin leaf after := by
  have same : after.node origin = before.node origin := by
    unfold TFSpec.node
    rw [nodes]
  refine ⟨?_, ?_, ?_⟩
  · rw [same]
    exact capped.links
  · rw [same]
    exact capped.leads
  · rw [slices]
    exact capped.slices

/-- Taking room for a slice. -/
theorem capped_reserveSlice
    (length slices : Nat) :
    Maintains (fun state : TFSpecState => Capped origin leaf state.spec)
      (reserveSlice length slices) := by
  intro before value after capped ran
  obtain ⟨capacity, heap, rfl⟩ := reserveSlice_eq_ok ran
  exact capped.aside rfl rfl

/-- A new head. -/
theorem capped_newHead
    (node : Nat) :
    Maintains (fun state : TFSpecState => Capped origin leaf state.spec)
      (newHead node) := by
  intro before value after capped ran
  obtain ⟨capacity, heap, rfl, rfl⟩ := newHead_eq_ok ran
  exact capped.aside rfl rfl

/-- Recording a path that is closed. -/
theorem capped_addSlice
    {current : TFSpecIterator}
    (closed : current.path.getLast? = some leaf) :
    Maintains (fun state : TFSpecState => Capped origin leaf state.spec)
      (addSlice current) := by
  have recorded :
      ∀ {before : TFSpec} {slices : List TFSpecSlice},
        Capped origin leaf before →
          (∀ slice ∈ slices,
            slice.children = current.path ∨ slice ∈ before.slices) →
            Capped origin leaf { before with slices := slices } := by
    intro before slices capped known
    refine ⟨capped.links, capped.leads, ?_⟩
    intro slice member
    rcases known slice member with same | old
    · rw [same]
      exact closed
    · exact capped.slices slice old
  unfold addSlice
  refine Maintains.bind ?_ (fun count => ?_)
  · intro before value after capped ran
    cases ran
    exact capped
  refine Maintains.bind (capped_reserveSlice _ _) (fun _ => ?_)
  refine Maintains.bind ?_ (fun found => ?_)
  · intro before value after capped ran
    cases ran
    exact capped
  cases found with
  | none =>
      refine Maintains.bind (capped_newHead _) (fun version => ?_)
      intro before value after capped ran
      cases ran
      apply recorded capped
      intro slice member
      rcases List.mem_append.mp member with old | isNew
      · exact .inr old
      · rw [List.mem_singleton.mp isNew]
        exact .inl rfl
  | some place =>
      intro before value after capped ran
      cases ran
      apply recorded capped
      intro slice member
      rcases List.eq_or_mem_of_mem_insertIdx member with isNew | old
      · rw [isNew]
        exact .inl rfl
      · exact .inr old

/-- Following a link. -/
theorem capped_followLink
    {current moved : TFSpecIterator}
    {link : TFSpecLink}
    {before after : TFSpecState}
    (capped : Capped origin leaf before.spec)
    (descends : Closing origin leaf current)
    (isLink : link ∈ (before.spec.node current.node).links)
    (ran : followLink current link before = .ok (moved, after)) :
    Capped origin leaf after.spec ∧ Closing origin leaf moved ∧
      after.spec.nodes = before.spec.nodes := by
  obtain ⟨rfl, same⟩ := followLink_eq_ok ran
  exact ⟨capped.aside same.nodes same.slices,
    descends.step capped isLink, same.nodes⟩

/-- Forking an iterator. -/
theorem capped_forkIterators
    {current : TFSpecIterator}
    {others : Nat}
    {links : List TFSpecLink}
    {appended appended' : List TFSpecIterator}
    {before after : TFSpecState}
    (capped : Capped origin leaf before.spec)
    (descends : Closing origin leaf current)
    (areLinks : ∀ link ∈ links, link ∈ (before.spec.node current.node).links)
    (descend : ∀ iterator ∈ appended, Closing origin leaf iterator)
    (ran :
      forkIterators current others links appended before =
        .ok (appended', after)) :
    Capped origin leaf after.spec ∧
      (∀ iterator ∈ appended', Closing origin leaf iterator) ∧
      after.spec.nodes = before.spec.nodes := by
  induction links generalizing appended before with
  | nil =>
      cases ran
      exact ⟨capped, descend, rfl⟩
  | cons link rest inductionHypothesis =>
      have later :
          ∀ link ∈ rest, link ∈ (before.spec.node current.node).links :=
        fun link member => areLinks link (List.mem_cons_of_mem _ member)
      unfold forkIterators at ran
      split at ran
      · obtain ⟨_, _, flagged, ran⟩ := Program.bind_eq_ok.mp ran
        cases flagged
        have limited :
            Capped origin leaf
              (⟨before.spec.limit, before.lexer,
                before.heap⟩ : TFSpecState).spec :=
          capped.aside rfl rfl
        have forked := inductionHypothesis limited later descend ran
        exact forked
      · obtain ⟨forked, middle, followed, ran⟩ := Program.bind_eq_ok.mp ran
        obtain ⟨cappedForked, forkedDescends, nodes⟩ :=
          capped_followLink capped descends
            (areLinks link List.mem_cons_self) followed
        have sameLinks :
            (middle.spec.node current.node).links =
              (before.spec.node current.node).links := by
          unfold TFSpec.node
          rw [nodes]
        rw [← sameLinks] at later
        obtain ⟨cappedAfter, allDescend, nodesAfter⟩ :=
          inductionHypothesis cappedForked later
            (by
              intro iterator member
              rcases List.mem_append.mp member with old | isNew
              · exact descend iterator old
              · rw [List.mem_singleton.mp isNew]
                exact forkedDescends) ran
        exact ⟨cappedAfter, allDescend, nodesAfter.trans nodes⟩

/-- One round of popping whole stacks. -/
theorem capped_popRound
    {todo done appended next : List TFSpecIterator}
    {before after : TFSpecState}
    (capped : Capped origin leaf before.spec)
    (descend :
      ∀ iterator ∈ todo ++ done ++ appended,
        Closing origin leaf iterator)
    (ran : popRound none todo done appended before = .ok (next, after)) :
    Capped origin leaf after.spec ∧
      ∀ iterator ∈ next, Closing origin leaf iterator := by
  induction todo generalizing done appended before with
  | nil =>
      cases ran
      exact ⟨capped, descend⟩
  | cons current rest inductionHypothesis =>
      have descends := descend current (by simp)
      rw [popRound_cons] at ran
      obtain ⟨_, _, settled, ran⟩ := Program.bind_eq_ok.mp ran
      cases settled
      unfold walkFrom at ran
      obtain ⟨links, _, asked, ran⟩ := Program.bind_eq_ok.mp ran
      simp only [asks, Program.gets_apply, Except.ok.injEq,
        Prod.mk.injEq] at asked
      obtain ⟨isLinks, rfl⟩ := asked
      obtain ⟨over_, _, asked, ran⟩ := Program.bind_eq_ok.mp ran
      cases asked
      have others :
          ∀ iterator ∈ rest ++ done ++ appended,
            Closing origin leaf iterator := by
        intro iterator member
        apply descend
        simp only [List.cons_append, List.mem_cons]
        exact .inr member
      split at ran
      · rename_i ended
        obtain ⟨_, middle, added, ran⟩ := Program.bind_eq_ok.mp ran
        have closed := descends.ended capped ended
        exact inductionHypothesis
          (capped_addSlice closed _ _ _ capped added) others ran
      · cases links with
        | nil =>
          exact inductionHypothesis capped others ran
        | cons first further =>
          obtain ⟨forked, middle, forks, ran⟩ := Program.bind_eq_ok.mp ran
          have areLinks :
              ∀ link ∈ first :: further,
                link ∈ (before.spec.node current.node).links := by
            intro link member
            rw [isLinks]
            exact member
          obtain ⟨cappedForked, forkedDescend, nodes⟩ :=
            capped_forkIterators capped descends
              (fun link member =>
                areLinks link (List.mem_cons_of_mem _ member))
              (fun iterator member => descend iterator (by simp [member]))
              forks
          obtain ⟨moved, later, followed, ran⟩ :=
            Program.bind_eq_ok.mp ran
          have isFirst : first ∈ (middle.spec.node current.node).links := by
            unfold TFSpec.node
            rw [nodes]
            exact areLinks first List.mem_cons_self
          obtain ⟨cappedMoved, movedDescends, _⟩ :=
            capped_followLink cappedForked descends isFirst followed
          refine inductionHypothesis cappedMoved ?_ ran
          intro iterator member
          rcases List.mem_append.mp member with before_ | isForked
          · rcases List.mem_append.mp before_ with isTodo | isDone
            · exact descend iterator (by simp [isTodo])
            · rcases List.mem_append.mp isDone with old | isMoved
              · exact descend iterator (by simp [old])
              · rw [List.mem_singleton.mp isMoved]
                exact movedDescends
          · exact forkedDescend iterator isForked

/-- Walking the one chain of a whole stack. -/
theorem capped_chainTurns
    (version : Nat)
    {fuel : Nat}
    {current : TFSpecIterator}
    {answer : Bool}
    {before after : TFSpecState}
    (capped : Capped origin leaf before.spec)
    (descends : Closing origin leaf current)
    (ran :
      Program.iterate .stuck (chainTurn none) fuel current before =
        .ok (answer, after)) :
    Capped origin leaf after.spec ∧
      (answer = false →
        after.spec.head version = before.spec.head version) := by
  induction fuel generalizing current before with
  | zero =>
      cases ran
  | succ fuel inductionHypothesis =>
      obtain ⟨outcome, middle, turned, ran⟩ := Program.bind_eq_ok.mp ran
      cases over_ : before.spec.popEnds none current.node current.count with
      | true =>
          have closed := descends.ended capped over_
          obtain ⟨rfl, capacity, heap, rfl⟩ := chainTurn_ends over_ turned
          cases ran
          refine ⟨⟨capped.links, capped.leads, ?_⟩, ?_⟩
          · intro slice member
            rw [List.mem_singleton.mp member]
            exact closed
          · intro isFalse
            cases isFalse
      | false =>
          rw [chainTurn_goes over_] at turned
          obtain ⟨_, _, settled, turned⟩ := Program.bind_eq_ok.mp turned
          cases settled
          cases outcome with
          | inl next =>
              obtain ⟨rfl, link, isLinks, rfl⟩ := chainOn_goes turned
              refine inductionHypothesis capped
                (descends.step capped ?_) ran
              rw [isLinks]
              exact List.mem_singleton_self link
          | inr given =>
              obtain ⟨rfl, rfl, _⟩ := chainOn_stops turned
              cases ran
              exact ⟨capped, fun _ => rfl⟩

/-- Walking whole stacks breadth first. -/
theorem capped_popTurns
    {fuel : Nat}
    {iterators : List TFSpecIterator}
    {before after : TFSpecState}
    (capped : Capped origin leaf before.spec)
    (descend : ∀ iterator ∈ iterators, Closing origin leaf iterator)
    (ran :
      Program.iterate .stuck (popTurn none) fuel iterators before =
        .ok ((), after)) :
    Capped origin leaf after.spec := by
  induction fuel generalizing iterators before with
  | zero =>
      cases ran
  | succ fuel inductionHypothesis =>
      obtain ⟨outcome, _, turned, ran⟩ := Program.bind_eq_ok.mp ran
      cases iterators with
      | nil =>
          cases turned
          cases ran
          exact capped
      | cons first rest =>
          obtain ⟨next, _, rounded, ended⟩ := Program.bind_eq_ok.mp turned
          cases ended
          obtain ⟨cappedNext, nextDescend⟩ :=
            capped_popRound capped (by simpa using descend) rounded
          exact inductionHypothesis cappedNext nextDescend ran

/-- Popping whole stacks closes every slice with the tree on top. -/
theorem capped_pop
    {fuel version : Nat}
    {before after : TFSpecState}
    (links : (before.spec.node origin).links ≠ [])
    (leads : ∀ link ∈ (before.spec.node origin).links, link.tree = leaf)
    (here : (before.spec.head version).node = origin)
    (ran : pop fuel version none before = .ok ((), after)) :
    ∀ slice ∈ after.spec.slices, slice.children.getLast? = some leaf := by
  unfold pop at ran
  obtain ⟨_, begun, cleared, ran⟩ := Program.bind_eq_ok.mp ran
  obtain ⟨straight, middle, chain, ran⟩ := Program.bind_eq_ok.mp ran
  have start : Capped origin leaf begun.spec := by
    cases cleared
    refine ⟨links, leads, ?_⟩
    intro slice member
    cases member
  have still : begun.spec.head version = before.spec.head version := by
    cases cleared
    rfl
  rw [popChain_eq] at chain
  obtain ⟨head, _, asked, chain⟩ := Program.bind_eq_ok.mp chain
  cases asked
  have atOrigin : Closing origin leaf
      ⟨(begun.spec.head version).node, 0, []⟩ :=
    .inl ⟨rfl, still ▸ here⟩
  obtain ⟨capped, same⟩ := capped_chainTurns version start atOrigin chain
  split at ran
  · cases ran
    exact capped.slices
  · rename_i forked
    rw [popPaths_eq] at ran
    obtain ⟨head, _, asked, ran⟩ := Program.bind_eq_ok.mp ran
    cases asked
    refine (capped_popTurns capped ?_ ran).slices
    intro iterator member
    rw [List.mem_singleton.mp member]
    change Closing origin leaf ⟨(middle.spec.head version).node, 0, []⟩
    rw [same (Bool.eq_false_iff.mpr forked)]
    exact atOrigin

end Whole

end TFSpec

end TreeFeller
