import TreeFeller.Frames
import TreeFeller.Library.Journal

namespace TreeFeller

open StatefulProgram

/-!
# The failures of a split

A split folds the failures of its alternatives, lexical and syntactic, into
one record that only moves forward.  Here the exploration is run once more with
a journal of every failure it records, which erases to the exploration itself,
and the record is read against the journal.
-/

/-- A failure of an alternative: in the lexer, or on a token without a use. -/
inductive TFSpecFailure where
  | lexical (byte : Nat) (point : TFPoint) (state : TSStateId)
  | syntactic (state : TSStateId) (token : TFToken)
  deriving Repr, DecidableEq

namespace TFSpecFailure

/-- The byte a failure is at. -/
def byte : TFSpecFailure → Nat
  | .lexical byte _ _ => byte
  | .syntactic _ token => token.startByte

/-- The point a failure is at. -/
def point : TFSpecFailure → TFPoint
  | .lexical _ point _ => point
  | .syntactic _ token => token.startPoint

/-- The state a failure was met in. -/
def state : TFSpecFailure → TSStateId
  | .lexical _ _ state => state
  | .syntactic state _ => state

/-- The symbol a failure names. -/
def symbol : TFSpecFailure → TSSymbol
  | .lexical _ _ _ => 0
  | .syntactic _ token => token.symbol

/-- Whether the lexer failed. -/
def isLex : TFSpecFailure → Bool
  | .lexical _ _ _ => true
  | .syntactic _ _ => false

end TFSpecFailure

namespace TFSpec

/-- Programs that write the failures they record into a journal. -/
abbrev LoggedM (α : Type) : Type :=
  Journaled TFSpecStop TFSpecState TFSpecFailure α

open Journaled

section Logged

variable (env : TFSpecEnv)

/-- The failure of a lex that found no token. -/
def lexFailures
    (node : Nat)
    (found : Option (TFToken × Bool))
    (after : TFSpecState) :
    List TFSpecFailure :=
  match found with
  | some _ => []
  | none =>
      [.lexical after.lexer.byte after.lexer.point
        (after.spec.node node).state]

/-- `lex`, with a journal. -/
def lexLogged (node : Nat) : LoggedM (Option (TFToken × Bool)) :=
  noting (lexFailures node) (lex env node)

/-- One pass of `advance` over the actions on a token, with a journal. -/
def advanceTokenLogged
    (version : Nat)
    (keyword : Bool)
    (token : TFToken) :
    LoggedM (TFToken ⊕ Unit) := do
  let state ← lift (asks (fun s => (s.node (s.head version).node).state))
  match ← lift (advanceActions env version state token
      (env.lang.actions state token.symbol) none false) with
  | .over => pure (.inr ())
  | .reduced (some last) _ =>
      lift (update (fun s => s.modifyHead version (fun _ => s.head last)))
      lift (removeHead last)
      pure (.inl token)
  | .reduced none true =>
      lift (halt version false)
      pure (.inr ())
  | .reduced none false =>
      match token.demoteKeyword env.lang state keyword with
      | some demoted => pure (.inl demoted)
      | none =>
          noting (fun _ _ => [.syntactic state token])
            (update (fun s =>
              s.recordError token.startByte token.startPoint state
                token.symbol false))
          lift (halt version true)
          pure (.inr ())

/-- `advance`, with a journal. -/
def advanceLogged (version : Nat) : LoggedM Unit := do
  match ← lexLogged env (← lift (asks (fun s => s.head version))).node with
  | none => lift (halt version true)
  | some (token, keyword) =>
      Program.iterate .stuck (advanceTokenLogged env version keyword)
        env.fuel token

/-- `advanceHead`, with a journal. -/
def advanceHeadLogged (version lastPosition : Nat) : LoggedM Nat :=
  Program.iterate .stuck
    (fun lastPosition => do
      if (← lift (asks (fun s => s.head version))).halted then
        pure (.inr lastPosition)
      else
        advanceLogged env version
        let position ←
          lift (asks (fun s => (s.node (s.head version).node).byte))
        if lastPosition < position ||
            (0 < version && position = lastPosition) then
          pure (.inr position)
        else
          pure (.inl lastPosition))
    env.fuel lastPosition

/-- `advanceHeads`, with a journal. -/
def advanceHeadsLogged (lastPosition : Nat) : LoggedM Nat :=
  Program.iterate .stuck
    (fun current => do
      if (← lift (asks (fun s => s.heads.length))) ≤ current.1 then
        pure (.inr current.2)
      else
        pure (.inl
          (current.1 + 1, ← advanceHeadLogged env current.1 current.2)))
    env.fuel (0, lastPosition)

/-- `rounds`, with a journal. -/
def roundsLogged : LoggedM Selection :=
  Program.iterate .stuck
    (fun lastPosition => do
      let lastPosition ← advanceHeadsLogged env lastPosition
      lift (condense env)
      match ← lift (asks (fun s => (s.finished, s.heads))) with
      | (some root, []) => pure (.inr (.accepted root))
      | (none, []) => pure (.inr .dead)
      | (none, [head]) =>
          if ← lift (unique env.fuel head.node) then
            lift (pop env.fuel 0 none)
            match ← lift (asks TFSpec.slices) with
            | slice :: _ => pure (.inr (.path slice.children head.node))
            | [] => Program.stop .stuck
          else
            pure (.inl lastPosition)
      | _ => pure (.inl lastPosition))
    env.fuel 0

/-- `explore`, with a journal. -/
def exploreLogged : LoggedM Selection := do
  lift (reserve .nodes 1)
  let top ← lift (addNode (forkNode (← lift (asks TFSpec.owner))))
  let _ ← lift (newHead top)
  roundsLogged env

end Logged

/-! ## The journal has no part in the exploration -/

section Erasure

variable {env : TFSpecEnv}

/-- Advancing. -/
theorem erases_advance
    (version : Nat) :
    Erases (advanceLogged env version) (advance env version) := by
  unfold advanceLogged advance
  refine Erases.bind (Erases.lift _) (fun head => ?_)
  refine Erases.bind (Erases.noting _ _) (fun found => ?_)
  rcases found with _ | ⟨token, keyword⟩
  · exact Erases.lift _
  · refine Erases.iterate (fun token => ?_) _ _
    refine Erases.bind (Erases.lift _) (fun state => ?_)
    refine Erases.bind (Erases.lift _) (fun pass => ?_)
    rcases pass with _ | ⟨last, any⟩
    · exact Erases.pure _
    · rcases last with _ | last
      · cases any with
        | true =>
            exact Erases.bind (Erases.lift _) (fun _ => Erases.pure _)
        | false =>
            dsimp only
            cases token.demoteKeyword env.lang state keyword with
            | none =>
                refine Erases.bind (Erases.noting _ _) (fun _ => ?_)
                exact Erases.bind (Erases.lift _) (fun _ => Erases.pure _)
            | some demoted =>
                exact Erases.pure _
      · refine Erases.bind (Erases.lift _) (fun _ => ?_)
        exact Erases.bind (Erases.lift _) (fun _ => Erases.pure _)

/-- Advancing one head. -/
theorem erases_advanceHead
    (version lastPosition : Nat) :
    Erases (advanceHeadLogged env version lastPosition)
      (advanceHead env version lastPosition) := by
  refine Erases.iterate (fun lastPosition => ?_) _ _
  refine Erases.bind (Erases.lift _) (fun head => ?_)
  apply Erases.ite (Erases.pure _)
  refine Erases.bind (erases_advance _) (fun _ => ?_)
  refine Erases.bind (Erases.lift _) (fun position => ?_)
  exact Erases.ite (Erases.pure _) (Erases.pure _)

/-- Advancing every head. -/
theorem erases_advanceHeads
    (lastPosition : Nat) :
    Erases (advanceHeadsLogged env lastPosition)
      (advanceHeads env lastPosition) := by
  refine Erases.iterate (fun current => ?_) _ _
  refine Erases.bind (Erases.lift _) (fun count => ?_)
  apply Erases.ite (Erases.pure _)
  exact Erases.bind (erases_advanceHead _ _) (fun position => Erases.pure _)

/-- The rounds. -/
theorem erases_rounds : Erases (roundsLogged env) (rounds env) := by
  refine Erases.iterate (fun lastPosition => ?_) _ _
  refine Erases.bind (erases_advanceHeads _) (fun lastPosition => ?_)
  refine Erases.bind (Erases.lift _) (fun _ => ?_)
  refine Erases.bind (Erases.lift _) (fun outcome => ?_)
  rcases outcome with ⟨finished, heads⟩
  rcases finished with _ | root
  · rcases heads with _ | ⟨head, others⟩
    · exact Erases.pure _
    · rcases others with _ | ⟨other, others⟩
      · refine Erases.bind (Erases.lift _) (fun single => ?_)
        refine Erases.ite ?_ (Erases.pure _)
        refine Erases.bind (Erases.lift _) (fun _ => ?_)
        refine Erases.bind (Erases.lift _) (fun slices => ?_)
        cases slices with
        | nil =>
            exact Erases.stop _
        | cons slice rest =>
            exact Erases.pure _
      · exact Erases.pure _
  · rcases heads with _ | ⟨head, others⟩
    · exact Erases.pure _
    · exact Erases.pure _

/-- The exploration with a journal is the exploration. -/
theorem erases_explore : Erases (exploreLogged env) (explore env) := by
  unfold exploreLogged explore
  refine Erases.bind (Erases.lift _) (fun _ => ?_)
  refine Erases.bind (Erases.lift _) (fun owner => ?_)
  refine Erases.bind (Erases.lift _) (fun top => ?_)
  exact Erases.bind (Erases.lift _) (fun _ => erases_rounds)

end Erasure

/-! ## The record is the furthest failure of the journal -/

/-- What is fixed during a split: the tables, the buffer and its own token. -/
structure SplitScene where
  lang : TFLanguage
  source : List UInt8
  size : Nat
  token : TFToken

namespace SplitScene

/-- A lexer that reads the split's buffer. -/
def Reading (scene : SplitScene) (lexer : TFLexer) : Prop :=
  lexer.source = scene.source ∧ lexer.size = scene.size

/-- A token of the split: its own, or one that the lexer found. -/
def Lexed (scene : SplitScene) (token : TFToken) : Prop :=
  token = scene.token ∨
    ∃ lexer state,
      scene.Reading lexer ∧ (lexer.next scene.lang state).1 = some token

/-- A token as an alternative meets it: lexed, perhaps demoted since. -/
def Met (scene : SplitScene) (token : TFToken) : Prop :=
  ∃ lexed,
    scene.Lexed lexed ∧
      (token = lexed ∨
        token =
          { lexed with symbol := scene.lang.ts.keywordCaptureToken })

/--
A failure that happened: the lexer, reading the split's buffer, found no token
and stopped at the failure's position; or a state had no action for a token
that it met.  `RECOVER` is no action, for neither loop takes it.
-/
def Happened (scene : SplitScene) : TFSpecFailure → Prop
  | .lexical byte point state =>
      ∃ lexer,
        scene.Reading lexer ∧
          (lexer.next scene.lang state).1 = none ∧
          (lexer.next scene.lang state).2.byte = byte ∧
          (lexer.next scene.lang state).2.point = point
  | .syntactic state token =>
      scene.Met token ∧
        ∀ action ∈ scene.lang.actions state token.symbol,
          action = .recover

end SplitScene

/-- A record that holds a failure. -/
structure RecordedAs
    (control : TFSpecControl)
    (failure : TFSpecFailure) :
    Prop where
  byte : control.errorByte = failure.byte
  point : control.errorPoint = failure.point
  state : control.errorState = failure.state
  symbol : control.errorSymbol = failure.symbol
  isLex : control.errorIsLex = failure.isLex

/-- What holds of a split's control and of the failures it has recorded. -/
structure Chronicle
    (scene : SplitScene)
    (control : TFSpecControl)
    (journal : List TFSpecFailure) :
    Prop where
  reading : scene.Reading control.lexer
  cached : scene.Lexed control.cached
  happened : ∀ failure ∈ journal, scene.Happened failure
  unrecorded : control.hasError = false → journal = []
  furthest :
    control.hasError = true →
      ∃ failure ∈ journal,
        RecordedAs control failure ∧
          ∀ other ∈ journal, other.byte ≤ failure.byte

/-! ## Lexers read one buffer -/

end TFSpec

namespace TFLexer

/-- What a lexer reads. -/
def buffer (self : TFLexer) : List UInt8 × Nat :=
  (self.source, self.size)

/-- Advancing reads on in the buffer. -/
theorem buffer_advance
    (self : TFLexer)
    (skip : Bool) :
    (self.advance skip).buffer = self.buffer := by
  unfold advance doAdvance
  dsimp only
  split
  · rfl
  · split <;> split <;> rfl

/-- A generated function reads one buffer. -/
theorem buffer_run
    (program : LexProgram)
    (lexer : TFLexer) :
    (program.run lexer).2.buffer = lexer.buffer := by
  induction program generalizing lexer with
  | finish found =>
      rfl
  | lookahead next inductionHypothesis =>
      exact inductionHypothesis _ lexer
  | advance skip next inductionHypothesis =>
      exact (inductionHypothesis _).trans (buffer_advance lexer skip)
  | markEnd next inductionHypothesis =>
      exact inductionHypothesis lexer.markEnd
  | resultSymbol symbol next inductionHypothesis =>
      exact inductionHypothesis { lexer with resultSymbol := symbol }
  | eof next inductionHypothesis =>
      exact inductionHypothesis _ lexer
  | getColumn next inductionHypothesis =>
      exact inductionHypothesis _ lexer
  | isAtIncludedRangeStart next inductionHypothesis =>
      exact inductionHypothesis _ lexer

/-- A token is lexed from one buffer. -/
theorem buffer_lexWith
    (self : TFLexer)
    (program : LexProgram) :
    (self.lexWith program).2.buffer = self.buffer := by
  have started : self.start.buffer = self.buffer := by
    unfold start
    dsimp only
    split
    · exact buffer_advance _ _
    · rfl
  have ran := (buffer_run program self.start).trans started
  unfold lexWith finish
  dsimp only
  split
  · exact ran
  · exact ran

/-- Lexing the next token reads one buffer. -/
theorem buffer_next
    (self : TFLexer)
    (lang : TFLanguage)
    (state : TSStateId) :
    (self.next lang state).2.buffer = self.buffer := by
  have main :=
    buffer_lexWith
      { self with tokenIsKeyword := false, tokenLexState := state }
      (lang.ts.lexFn (lang.lexMode state).lexState)
  unfold next
  dsimp only
  split
  · exact main
  · split
    · split
      · exact (buffer_lexWith _ _).trans main
      · exact (buffer_lexWith _ _).trans main
    · exact main

end TFLexer

namespace TFSpec

open Journaled Program

namespace SplitScene

variable {scene : SplitScene}

/-- A lexer that was moved still reads the buffer. -/
theorem Reading.seek
    {lexer : TFLexer}
    (reading : scene.Reading lexer)
    (byte : Nat)
    (point : TFPoint) :
    scene.Reading (lexer.seek byte point) :=
  reading

/-- A lexer that went on still reads the buffer. -/
theorem Reading.next
    {lexer : TFLexer}
    (reading : scene.Reading lexer)
    (state : TSStateId) :
    scene.Reading (lexer.next scene.lang state).2 := by
  have same := TFLexer.buffer_next lexer scene.lang state
  exact ⟨(congrArg Prod.fst same).trans reading.1,
    (congrArg Prod.snd same).trans reading.2⟩

/-- A lexed token is met as it is. -/
theorem Lexed.met
    {token : TFToken}
    (lexed : scene.Lexed token) :
    scene.Met token :=
  ⟨token, lexed, Or.inl rfl⟩

/-- A token that was met is met demoted. -/
theorem Met.demoted
    {token demoted : TFToken}
    {state : TSStateId}
    {keyword : Bool}
    (met : scene.Met token)
    (demotes :
      token.demoteKeyword scene.lang state keyword = some demoted) :
    scene.Met demoted := by
  obtain ⟨lexed, isLexed, same⟩ := met
  refine ⟨lexed, isLexed, Or.inr ?_⟩
  unfold TFToken.demoteKeyword at demotes
  dsimp only at demotes
  split at demotes
  · cases demotes
  · split at demotes
    · cases demotes
    · split at demotes
      · cases demotes
      · cases demotes
        rcases same with rfl | rfl <;> rfl

end SplitScene

/-- The recorded failure of a control. -/
def recordOf (control : TFSpecControl) :
    Bool × Nat × TFPoint × TSStateId × TSSymbol × Bool :=
  (control.hasError, control.errorByte, control.errorPoint,
    control.errorState, control.errorSymbol, control.errorIsLex)

/-- A lexer that went on, or another cached token, leave the record. -/
theorem Chronicle.relex
    {scene : SplitScene}
    {control control' : TFSpecControl}
    {journal : List TFSpecFailure}
    (chronicle : Chronicle scene control journal)
    (reading : scene.Reading control'.lexer)
    (cached : scene.Lexed control'.cached)
    (same : recordOf control' = recordOf control) :
    Chronicle scene control' journal := by
  simp only [recordOf, Prod.mk.injEq] at same
  obtain ⟨known, byte, point, state, symbol, isLex⟩ := same
  refine ⟨reading, cached, chronicle.happened, ?_, ?_⟩
  · rw [known]
    exact chronicle.unrecorded
  · rw [known]
    intro isKnown
    obtain ⟨failure, member, records, atMost⟩ := chronicle.furthest isKnown
    exact ⟨failure, member,
      ⟨byte.trans records.byte, point.trans records.point,
        state.trans records.state, symbol.trans records.symbol,
        isLex.trans records.isLex⟩, atMost⟩

/-- A failure that is recorded extends the journal. -/
theorem Chronicle.record
    {scene : SplitScene}
    {spec : TFSpec}
    {lexer : TFLexer}
    {journal : List TFSpecFailure}
    (chronicle : Chronicle scene (spec.controlWith lexer) journal)
    {failure : TFSpecFailure}
    (happened : scene.Happened failure) :
    Chronicle scene
      ((spec.recordError failure.byte failure.point failure.state
        failure.symbol failure.isLex).controlWith lexer)
      (journal ++ [failure]) := by
  have all :
      ∀ other ∈ journal ++ [failure], scene.Happened other := by
    intro other member
    rcases List.mem_append.mp member with earlier | last
    · exact chronicle.happened other earlier
    · rw [List.mem_singleton.mp last]
      exact happened
  by_cases known : spec.hasError = true ∧ failure.byte ≤ spec.errorByte
  · have same :
        spec.recordError failure.byte failure.point failure.state
          failure.symbol failure.isLex = spec := by
      unfold recordError
      rw [if_pos (by simpa using known)]
    rw [same]
    refine ⟨chronicle.reading, chronicle.cached, all, ?_, ?_⟩
    · intro isNot
      have impossible : spec.hasError = false := isNot
      rw [known.1] at impossible
      cases impossible
    · intro isKnown
      obtain ⟨kept, member, records, atMost⟩ := chronicle.furthest isKnown
      refine ⟨kept, List.mem_append_left _ member, records, ?_⟩
      intro other inBoth
      rcases List.mem_append.mp inBoth with earlier | last
      · exact atMost other earlier
      · rw [List.mem_singleton.mp last, ← records.byte]
        exact known.2
  · have moved :
        spec.recordError failure.byte failure.point failure.state
            failure.symbol failure.isLex =
          { spec with
            hasError := true
            errorByte := failure.byte
            errorPoint := failure.point
            errorState := failure.state
            errorSymbol := failure.symbol
            errorIsLex := failure.isLex } := by
      unfold recordError
      rw [if_neg (by simpa using known)]
    rw [moved]
    refine ⟨chronicle.reading, chronicle.cached, all, nofun, ?_⟩
    intro _
    refine ⟨failure, by simp, ⟨rfl, rfl, rfl, rfl, rfl⟩, ?_⟩
    intro other inBoth
    rcases List.mem_append.mp inBoth with earlier | last
    · cases isKnown : spec.hasError with
      | false =>
          rw [chronicle.unrecorded isKnown] at earlier
          cases earlier
      | true =>
          obtain ⟨kept, _, records, atMost⟩ := chronicle.furthest isKnown
          have below := atMost other earlier
          have records : spec.errorByte = kept.byte := records.byte
          have beyond : ¬ failure.byte ≤ spec.errorByte :=
            fun within => known ⟨isKnown, within⟩
          omega
    · have same : other = failure := List.mem_singleton.mp last
      exact Nat.le_of_eq (congrArg _ same)

/-- Recording a failure leaves the nodes. -/
theorem node_recordError
    (self : TFSpec)
    (byte : Nat)
    (point : TFPoint)
    (state : TSStateId)
    (symbol : TSSymbol)
    (isLex : Bool)
    (node : Nat) :
    (self.recordError byte point state symbol isLex).node node =
      self.node node := by
  unfold recordError
  split <;> rfl

/-- What a split's state and journal keep to. -/
def Chronicles
    (scene : SplitScene)
    (state : TFSpecState × List TFSpecFailure) :
    Prop :=
  Chronicle scene state.1.control state.2

/-- A program that builds the graph keeps the chronicle. -/
theorem chronicles_lift
    {scene : SplitScene}
    {α : Type}
    {program : SpecM α}
    (keeps : Keeps TFSpecState.control program) :
    Ensures (Chronicles scene) (lift program : LoggedM α)
      (fun _ => Chronicles scene) :=
  ensures_lift
    (fun journal =>
      keeps.ensures (fun control => Chronicle scene control journal))

/-- Lexing keeps the chronicle, and what it finds is a token. -/
theorem chronicles_lex
    {env : TFSpecEnv}
    {scene : SplitScene}
    (tables : env.lang = scene.lang)
    (node : Nat) :
    Ensures (Chronicles scene) (lexLogged env node)
      (fun found state =>
        Chronicles scene state ∧
          ∀ token keyword,
            found = some (token, keyword) → scene.Lexed token) := by
  rintro ⟨before, journal⟩ found ⟨after, journal'⟩ chronicle ran
  obtain ⟨ran, noted⟩ := noting_eq_ok.mp ran
  dsimp only at ran noted
  unfold lex at ran
  obtain ⟨node', middle, asked, ran⟩ := bind_eq_ok.mp ran
  cases asked
  obtain ⟨reuses, middle, asked, ran⟩ := bind_eq_ok.mp ran
  cases asked
  split at ran
  · cases ran
    rw [noted]
    simp only [lexFailures, List.append_nil]
    refine ⟨chronicle, ?_⟩
    intro token keyword same
    cases same
    exact chronicle.cached
  · obtain ⟨answer, middle, lexed, ran⟩ := bind_eq_ok.mp ran
    have reading :
        scene.Reading
          (before.lexer.seek (before.spec.node node).byte
            (before.spec.node node).point) :=
      chronicle.reading.seek _ _
    generalize sought :
      before.lexer.seek (before.spec.node node).byte
        (before.spec.node node).point = lexer at lexed reading
    simp only [modifyGet_apply, Except.ok.injEq, Prod.mk.injEq, tables,
      sought] at lexed
    obtain ⟨answerEq, middleEq⟩ := lexed
    have onward :
        scene.Reading
          (lexer.next scene.lang (before.spec.node node).state).2 :=
      SplitScene.Reading.next reading _
    have moved :
        Chronicle scene
          (before.spec.controlWith
            (lexer.next scene.lang (before.spec.node node).state).2)
          journal :=
      Chronicle.relex chronicle onward chronicle.cached rfl
    cases answer with
    | none =>
        obtain ⟨_, recorded, updated, ran⟩ := bind_eq_ok.mp ran
        cases ran
        cases updated
        subst middleEq
        refine ⟨?_, nofun⟩
        have happened :
            scene.Happened
              (.lexical
                (lexer.next scene.lang (before.spec.node node).state).2.byte
                (lexer.next scene.lang (before.spec.node node).state).2.point
                (before.spec.node node).state) :=
          ⟨lexer, reading, answerEq, rfl, rfl⟩
        have recorded := moved.record happened
        rw [noted]
        simp only [lexFailures, node_recordError]
        exact recorded
    | some token =>
        simp only [modifyGet_apply, Except.ok.injEq, Prod.mk.injEq] at ran
        obtain ⟨foundEq, afterEq⟩ := ran
        subst middleEq foundEq afterEq
        have isLexed : scene.Lexed token :=
          Or.inr ⟨lexer, _, reading, answerEq⟩
        rw [noted]
        simp only [lexFailures, List.append_nil]
        refine ⟨moved.relex onward isLexed rfl, ?_⟩
        intro other keyword same
        cases same
        exact isLexed

/-- Actions of which none was taken are all for recovery. -/
theorem recover_of_untaken
    {env : TFSpecEnv}
    {version : Nat}
    {state : TSStateId}
    {token : TFToken}
    {actions : List TSParseAction}
    {last last' : Option Nat}
    {any : Bool}
    {before after : TFSpecState}
    (ran :
      advanceActions env version state token actions last any before =
        .ok (.reduced last' false, after)) :
    any = false ∧ ∀ action ∈ actions, action = .recover := by
  induction actions generalizing last any before with
  | nil =>
      cases ran
      exact ⟨rfl, nofun⟩
  | cons action rest inductionHypothesis =>
      cases action with
      | shift target extra repetition =>
          obtain ⟨_, middle, shifted, ran⟩ := bind_eq_ok.mp ran
          cases ran
      | reduce childCount symbol precedence productionId =>
          obtain ⟨created, middle, reduced, ran⟩ := bind_eq_ok.mp ran
          cases (inductionHypothesis ran).1
      | accept =>
          obtain ⟨_, middle, accepted, ran⟩ := bind_eq_ok.mp ran
          cases ran
      | recover =>
          obtain ⟨untaken, recovers⟩ := inductionHypothesis ran
          refine ⟨untaken, ?_⟩
          intro other member
          rcases List.mem_cons.mp member with rfl | later
          · rfl
          · exact recovers other later

section Chronicles

variable {env : TFSpecEnv}
variable {scene : SplitScene}
variable (tables : env.lang = scene.lang)
variable (materializes : Keeps TFSpecState.control env.materialize)

include tables materializes

/-- One pass over the actions on a token keeps the chronicle. -/
theorem chronicles_advanceToken
    (version : Nat)
    (keyword : Bool)
    (token : TFToken) :
    Ensures
      (fun current => Chronicles scene current ∧ scene.Met token)
      (advanceTokenLogged env version keyword token)
      (fun outcome current =>
        Chronicles scene current ∧
          ∀ next, outcome = .inl next → scene.Met next) := by
  rintro before outcome after ⟨chronicle, met⟩ ran
  obtain ⟨state, read, asked, ran⟩ := bind_eq_ok.mp ran
  have chronicle := chronicles_lift keeps_asks _ _ _ chronicle asked
  obtain ⟨pass, acted, took, ran⟩ := bind_eq_ok.mp ran
  have chronicle :=
    chronicles_lift
      (keeps_advanceActions materializes version state token _ none false)
      _ _ _ chronicle took
  rcases pass with _ | ⟨last, any⟩
  · cases ran
    exact ⟨chronicle, nofun⟩
  · cases last with
    | some last =>
        obtain ⟨_, moved, updated, ran⟩ := bind_eq_ok.mp ran
        have moves :
            Keeps TFSpecState.control
              (update (fun s =>
                s.modifyHead version (fun _ => s.head last))) :=
          keeps_update (fun _ _ => ⟨rfl, rfl⟩)
        have chronicle := chronicles_lift moves _ _ _ chronicle updated
        obtain ⟨_, removed, removing, ran⟩ := bind_eq_ok.mp ran
        have chronicle :=
          chronicles_lift (keeps_removeHead last) _ _ _ chronicle removing
        cases ran
        exact ⟨chronicle, by rintro next ⟨⟩; exact met⟩
    | none =>
        cases any with
        | true =>
            obtain ⟨_, halted, halting, ran⟩ := bind_eq_ok.mp ran
            have chronicle :=
              chronicles_lift (keeps_halt version false)
                _ _ _ chronicle halting
            cases ran
            exact ⟨chronicle, nofun⟩
        | false =>
            have untaken :=
              (recover_of_untaken (lift_eq_ok.mp took).1).2
            dsimp only at ran
            cases demotes :
                token.demoteKeyword env.lang state keyword with
            | some demoted =>
                rw [demotes] at ran
                cases ran
                rw [tables] at demotes
                exact ⟨chronicle,
                  by rintro next ⟨⟩; exact met.demoted demotes⟩
            | none =>
                rw [demotes] at ran
                obtain ⟨_, recorded, recording, ran⟩ :=
                  bind_eq_ok.mp ran
                obtain ⟨updated, noted⟩ := noting_eq_ok.mp recording
                have happened :
                    scene.Happened (.syntactic state token) := by
                  rw [tables] at untaken
                  exact ⟨met, untaken⟩
                have extended := Chronicle.record chronicle happened
                have chronicle : Chronicles scene recorded := by
                  obtain ⟨recordedState, journal⟩ := recorded
                  cases updated
                  cases noted
                  exact extended
                obtain ⟨_, halted, halting, ran⟩ := bind_eq_ok.mp ran
                have chronicle :=
                  chronicles_lift (keeps_halt version true)
                    _ _ _ chronicle halting
                cases ran
                exact ⟨chronicle, nofun⟩

/-- Advancing keeps the chronicle. -/
theorem chronicles_advance
    (version : Nat) :
    Ensures (Chronicles scene) (advanceLogged env version)
      (fun _ => Chronicles scene) := by
  unfold advanceLogged
  refine Ensures.bind (chronicles_lift keeps_asks) (fun head => ?_)
  refine Ensures.bind (chronicles_lex tables head.node) (fun found => ?_)
  rcases found with _ | ⟨token, keyword⟩
  · exact (chronicles_lift (keeps_halt version true)).strengthen
      (fun _ holds => holds.1)
  · have walks :
        ∀ fuel token,
          Ensures
            (fun current => Chronicles scene current ∧ scene.Met token)
            (Program.iterate .stuck
              (advanceTokenLogged env version keyword) fuel token)
            (fun _ => Chronicles scene) := by
      intro fuel
      induction fuel with
      | zero =>
          intro token
          exact Ensures.stop
      | succ fuel inductionHypothesis =>
          intro token
          refine Ensures.bind
            (chronicles_advanceToken tables materializes version keyword
              token)
            (fun outcome => ?_)
          cases outcome with
          | inl next =>
              exact (inductionHypothesis next).strengthen
                (fun _ holds => ⟨holds.1, holds.2 next rfl⟩)
          | inr _ =>
              exact Maintains.pure.strengthen (fun _ holds => holds.1)
    exact (walks env.fuel token).strengthen
      (fun _ holds => ⟨holds.1, (holds.2 token keyword rfl).met⟩)

/-- Advancing one head keeps the chronicle. -/
theorem chronicles_advanceHead
    (version lastPosition : Nat) :
    Maintains (Chronicles scene)
      (advanceHeadLogged env version lastPosition) := by
  refine Maintains.iterate (fun lastPosition => ?_) _ _
  refine Maintains.bind (chronicles_lift keeps_asks) (fun head => ?_)
  apply Maintains.ite Maintains.pure
  refine Maintains.bind (chronicles_advance tables materializes version)
    (fun _ => ?_)
  refine Maintains.bind (chronicles_lift keeps_asks) (fun position => ?_)
  exact Maintains.ite Maintains.pure Maintains.pure

/-- Advancing every head keeps the chronicle. -/
theorem chronicles_advanceHeads
    (lastPosition : Nat) :
    Maintains (Chronicles scene) (advanceHeadsLogged env lastPosition) := by
  refine Maintains.iterate (fun current => ?_) _ _
  refine Maintains.bind (chronicles_lift keeps_asks) (fun count => ?_)
  apply Maintains.ite Maintains.pure
  exact Maintains.bind
    (chronicles_advanceHead tables materializes current.1 current.2)
    (fun position => Maintains.pure)

/-- The rounds keep the chronicle. -/
theorem chronicles_rounds :
    Maintains (Chronicles scene) (roundsLogged env) := by
  refine Maintains.iterate (fun lastPosition => ?_) _ _
  refine Maintains.bind
    (chronicles_advanceHeads tables materializes lastPosition)
    (fun lastPosition => ?_)
  refine Maintains.bind (chronicles_lift (keeps_condense materializes))
    (fun _ => ?_)
  refine Maintains.bind (chronicles_lift keeps_asks) (fun outcome => ?_)
  rcases outcome with ⟨finished, heads⟩
  rcases finished with _ | root
  · rcases heads with _ | ⟨head, others⟩
    · exact Maintains.pure
    · rcases others with _ | ⟨other, others⟩
      · refine Maintains.bind (chronicles_lift (keeps_unique _ _))
          (fun single => ?_)
        refine Maintains.ite ?_ Maintains.pure
        refine Maintains.bind (chronicles_lift (keeps_pop _ _ _))
          (fun _ => ?_)
        refine Maintains.bind (chronicles_lift keeps_asks) (fun slices => ?_)
        cases slices with
        | nil =>
            exact Ensures.stop
        | cons slice rest =>
            exact Maintains.pure
      · exact Maintains.pure
  · rcases heads with _ | ⟨head, others⟩
    · exact Maintains.pure
    · exact Maintains.pure

/-- The exploration keeps the chronicle. -/
theorem chronicles_explore :
    Maintains (Chronicles scene) (exploreLogged env) := by
  unfold exploreLogged
  refine Maintains.bind (chronicles_lift (keeps_reserve _ _)) (fun _ => ?_)
  refine Maintains.bind (chronicles_lift keeps_asks) (fun owner => ?_)
  refine Maintains.bind (chronicles_lift (keeps_addNode _)) (fun top => ?_)
  exact Maintains.bind (chronicles_lift (keeps_newHead _))
    (fun _ => chronicles_rounds tables materializes)

end Chronicles

end TFSpec

end TreeFeller
