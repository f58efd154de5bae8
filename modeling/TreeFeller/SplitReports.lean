import TreeFeller.Failures
import TreeFeller.SmallTables

namespace TreeFeller

open StatefulProgram TFSpec

/-!
# What a failed split reports

A split fails for a syntax reason at two exits: no alternative is left, or the
token after the one that is left cannot be lexed.  Both report the furthest
failure of the split; the second one takes it for the lexer's.
-/

/-- The exits of a split that fails for a syntax reason. -/
inductive TFSplitExit where
  /-- No alternative is left. -/
  | dead
  /-- The token after the alternative that is left cannot be lexed. -/
  | unlexed
  deriving Repr, DecidableEq

namespace TFParser

variable {σ V : Type}

/-- The graph and the parser a split explores with, unless it stops before. -/
def splitEntry
    (env : TFRunEnv σ V)
    (self : TFParser σ V)
    (token : TFToken) :
    Option (TFSpec × TFParser σ V) :=
  let hooked :=
    env.hook self.cells (self.splitCount + 1) token self.payload self.heap
  let asked :=
    { self with
      splitCount := self.splitCount + 1
      payload := hooked.2.1
      heap := hooked.2.2 }
  if hooked.1 then
    none
  else
    match asked.ownSpec with
    | (none, _) => none
    | (some spec, parser) => some (spec, parser)

/--
The syntax exit that a split takes, with every failure it has recorded up to
there.
-/
def syntaxExit
    (env : TFRunEnv σ V)
    (self : TFParser σ V)
    (token : TFToken) :
    Option (TFSplitExit × List TFSpecFailure) :=
  match self.splitEntry env token with
  | none => none
  | some (spec, parser) =>
      match exploreLogged env.spec (parser.splitState spec token, []) with
      | .ok (.dead, (_, journal)) => some (.dead, journal)
      | .ok (.path forest top, (state, journal)) =>
          match (parser.resume state).replay env state.spec forest with
          | some (true, spec, parser) =>
              match lexLogged env.spec top
                  (⟨spec, parser.lexer, parser.heap⟩, journal) with
              | .ok (none, (_, journal)) => some (.unlexed, journal)
              | _ => none
          | _ => none
      | _ => none

end TFParser

/--
What a report of failures should be: the position of one of them that is
furthest, as the lexer's only where the lexer failed, and else the state and
the token of a failure there.
-/
structure TFError.Reports
    (error : TFError)
    (lang : TFLanguage)
    (journal : List TFSpecFailure) :
    Prop where
  furthest :
    ∃ failure ∈ journal,
      error.byte = failure.byte ∧ error.point = failure.point ∧
        ∀ other ∈ journal, other.byte ≤ failure.byte
  lexical :
    error.message = .unexpectedCharacter →
      ∃ failure ∈ journal,
        failure.isLex = true ∧ failure.byte = error.byte
  syntactic :
    error.message ≠ .unexpectedCharacter →
      ∃ state token,
        .syntactic state token ∈ journal ∧
          error = TFError.unexpected lang state token

/--
When a syntax exit reports what it should: without an alternative, if one
recorded a failure; with one, if none died on a token beyond every place where
the lexer failed.
-/
def TFSplitExit.ReportsWell
    (journal : List TFSpecFailure) :
    TFSplitExit → Prop
  | .dead => journal ≠ []
  | .unlexed =>
      ∀ failure ∈ journal, failure.isLex = false →
        ∃ lexical ∈ journal,
          lexical.isLex = true ∧ failure.byte ≤ lexical.byte

/-- The report of a split without an alternative. -/
theorem dead_reports_iff
    {scene : SplitScene}
    {spec : TFSpec}
    {lexer : TFLexer}
    {journal : List TFSpecFailure}
    (chronicle : Chronicle scene (spec.controlWith lexer) journal)
    {σ V : Type}
    (self : TFParser σ V) :
    ∃ error,
      (self.failDead scene.lang spec).error = some error ∧
        (error.Reports scene.lang journal ↔
          TFSplitExit.dead.ReportsWell journal) := by
  cases known : spec.hasError with
  | false =>
      have empty := chronicle.unrecorded known
      have failed :
          ∃ error, (self.failDead scene.lang spec).error = some error := by
        unfold TFParser.failDead
        split
        · exact ⟨_, rfl⟩
        · exact ⟨_, rfl⟩
      obtain ⟨error, isError⟩ := failed
      refine ⟨error, isError, ?_⟩
      constructor
      · intro reports
        obtain ⟨failure, member, _⟩ := reports.furthest
        exact List.ne_nil_of_mem member
      · intro some_
        exact absurd empty some_
  | true =>
      obtain ⟨failure, member, records, atMost⟩ := chronicle.furthest known
      have byte : spec.errorByte = failure.byte := records.byte
      have point : spec.errorPoint = failure.point := records.point
      have state : spec.errorState = failure.state := records.state
      have symbol : spec.errorSymbol = failure.symbol := records.symbol
      have isLex : spec.errorIsLex = failure.isLex := records.isLex
      have reportsWell : TFSplitExit.dead.ReportsWell journal :=
        List.ne_nil_of_mem member
      cases failure with
      | lexical failedByte failedPoint failedState =>
          have failed :
              (self.failDead scene.lang spec).error =
                some ⟨failedByte, failedPoint, .unexpectedCharacter⟩ := by
            have lexes : spec.errorIsLex = true := isLex
            unfold TFParser.failDead
            rw [if_pos lexes, byte, point]
            rfl
          refine ⟨_, failed, iff_of_true ?_ reportsWell⟩
          exact ⟨⟨_, member, rfl, rfl, atMost⟩,
            fun _ => ⟨_, member, rfl, rfl⟩,
            fun impossible => absurd rfl impossible⟩
      | syntactic failedState token =>
          have failed :
              (self.failDead scene.lang spec).error =
                some (TFError.unexpected scene.lang failedState token) := by
            have lexes : ¬ spec.errorIsLex = true := by
              rw [isLex]
              exact Bool.false_ne_true
            unfold TFParser.failDead
            rw [if_neg lexes, byte, point, state, symbol]
            rfl
          refine ⟨_, failed, iff_of_true ?_ reportsWell⟩
          exact ⟨⟨_, member, rfl, rfl, atMost⟩, nofun,
            fun _ => ⟨_, _, member, rfl⟩⟩

/-- The report of a split whose remaining alternative cannot go on. -/
theorem unlexed_reports_iff
    {scene : SplitScene}
    {spec : TFSpec}
    {lexer : TFLexer}
    {journal : List TFSpecFailure}
    (chronicle : Chronicle scene (spec.controlWith lexer) journal)
    (failed : journal ≠ []) :
    (TFError.mk spec.errorByte spec.errorPoint
        .unexpectedCharacter).Reports scene.lang journal ↔
      TFSplitExit.unlexed.ReportsWell journal := by
  have known : spec.hasError = true := by
    cases known : spec.hasError with
    | false =>
        exact absurd (chronicle.unrecorded known) failed
    | true =>
        rfl
  obtain ⟨furthest, member, records, atMost⟩ := chronicle.furthest known
  have byte : spec.errorByte = furthest.byte := records.byte
  have point : spec.errorPoint = furthest.point := records.point
  constructor
  · intro reports failure inJournal _
    obtain ⟨lexical, inside, isLex, place⟩ := reports.lexical rfl
    refine ⟨lexical, inside, isLex, ?_⟩
    rw [place]
    exact Nat.le_trans (atMost failure inJournal) (Nat.le_of_eq byte.symm)
  · intro reportsWell
    have lexical :
        ∃ failure ∈ journal,
          failure.isLex = true ∧ failure.byte = spec.errorByte := by
      cases isLex : furthest.isLex with
      | true =>
          exact ⟨furthest, member, isLex, byte.symm⟩
      | false =>
          obtain ⟨lexical, inside, lexes, beyond⟩ :=
            reportsWell furthest member isLex
          have within := atMost lexical inside
          exact ⟨lexical, inside, lexes, by omega⟩
    exact ⟨⟨furthest, member, byte, point, atMost⟩, fun _ => lexical,
      fun impossible => absurd rfl impossible⟩

namespace TFParser

variable {σ V : Type}
variable {env : TFRunEnv σ V}

/-- Every sink leaves nothing of the payload as it was. -/
theorem leavesNothing (sink : TFSink σ V) :
    sink.Leaves (fun _ => True) :=
  ⟨fun _ _ _ _ _ _ => id, fun _ _ _ _ _ => id, fun _ _ _ _ => id⟩

/-- A split that explores nothing was captured or ran out of memory. -/
theorem split_of_splitEntry
    {self after : TFParser σ V}
    {token next : TFToken}
    {well : Bool}
    (ran : self.split env token = some (well, next, after))
    (uncaptured :
      (env.hook self.cells (self.splitCount + 1) token self.payload
        self.heap).1 = false)
    (remembered :
      after.error ≠ some ⟨token.startByte, token.startPoint, .outOfMemory⟩) :
    ∃ spec parser,
      self.splitEntry env token = some (spec, parser) ∧
        parser.lexer = self.lexer ∧
        (match explore env.spec (parser.splitState spec token) with
        | .error .stuck => none
        | .error .outOfMemory =>
            some (false, token, parser.outOfMemory token)
        | .ok (.dead, state) =>
            some (false, token,
              (parser.resume state).failDead env.lang state.spec)
        | .ok (.path forest top, state) =>
            (parser.resume state).commitPath env state.spec forest top token
        | .ok (.accepted root, state) =>
            (parser.resume state).commitRoot env state.spec root token) =
          some (well, next, after) := by
  let hooked :=
    env.hook self.cells (self.splitCount + 1) token self.payload self.heap
  let asked : TFParser σ V :=
    { self with
      splitCount := self.splitCount + 1
      payload := hooked.2.1
      heap := hooked.2.2 }
  have open_ : ¬ hooked.1 = true := by
    rw [uncaptured]
    exact Bool.false_ne_true
  unfold split at ran
  dsimp only at ran
  rw [if_neg open_] at ran
  unfold splitEntry
  dsimp only
  rw [if_neg open_]
  obtain ⟨owned, found⟩ : ∃ owned, asked.ownSpec = owned := ⟨_, rfl⟩
  rw [show TFParser.ownSpec _ = owned from found] at ran ⊢
  obtain ⟨_ | spec, parser⟩ := owned
  · cases ran
    exact absurd rfl remembered
  · refine ⟨spec, parser, rfl, ?_, ran⟩
    unfold ownSpec at found
    split at found
    · cases found
      rfl
    · dsimp only at found
      split at found
      · cases found
        rfl
      · cases found

/-- Committing to a root fails for want of memory only. -/
theorem error_of_commitRoot
    {self after : TFParser σ V}
    {spec : TFSpec}
    {root : Nat}
    {token next : TFToken}
    (committed :
      self.commitRoot env spec root token = some (false, next, after)) :
    after.error =
      some ⟨token.startByte, token.startPoint, .outOfMemory⟩ := by
  unfold commitRoot at committed
  dsimp only at committed
  split at committed
  · cases committed
  · cases committed
    rfl
  · split at committed
    · cases committed
    · cases committed
      rfl
    · cases committed

/--
A split that fails for a syntax reason, neither captured nor out of memory,
takes one of the two exits, and what it reports is the furthest failure of its
alternatives, by its position and its kind, exactly when that exit's condition
holds.
-/
theorem failed_split_reports_iff
    {depth : Nat}
    (replays : env.materialize = TFSpec.materialize env.lang depth)
    {self after : TFParser σ V}
    {token next : TFToken}
    (ran : self.split env token = some (false, next, after))
    (uncaptured :
      (env.hook self.cells (self.splitCount + 1) token self.payload
        self.heap).1 = false)
    (remembered :
      after.error ≠ some ⟨token.startByte, token.startPoint, .outOfMemory⟩) :
    ∃ exit journal error,
      self.syntaxExit env token = some (exit, journal) ∧
        after.error = some error ∧
        (∀ failure ∈ journal,
          SplitScene.Happened
            ⟨env.lang, self.lexer.source, self.lexer.size, token⟩
            failure) ∧
        (error.Reports env.lang journal ↔ exit.ReportsWell journal) := by
  obtain ⟨spec, parser, entered, sameLexer, ran⟩ :=
    split_of_splitEntry ran uncaptured remembered
  let scene : SplitScene :=
    ⟨env.lang, self.lexer.source, self.lexer.size, token⟩
  have materializes : Program.Keeps TFSpecState.control env.spec.materialize := by
    show Program.Keeps TFSpecState.control env.materialize
    rw [replays]
    exact keeps_materialize _ _
  have begun : Chronicles scene (parser.splitState spec token, []) := by
    refine ⟨?_, Or.inl rfl, nofun, fun _ => rfl, nofun⟩
    show scene.Reading parser.lexer
    rw [sameLexer]
    exact ⟨rfl, rfl⟩
  unfold syntaxExit
  rw [entered]
  cases explored : explore env.spec (parser.splitState spec token) with
  | error stopped =>
      rw [explored] at ran
      cases stopped with
      | stuck =>
          cases ran
      | outOfMemory =>
          cases ran
          exact absurd rfl remembered
  | ok found =>
      obtain ⟨selection, state⟩ := found
      obtain ⟨journal, logged⟩ := erases_explore.journal explored
      have chronicle : Chronicles scene (state, journal) :=
        chronicles_explore rfl materializes _ _ _ begun logged
      rw [explored] at ran
      cases selection with
      | dead =>
          cases ran
          obtain ⟨error, failed, reports⟩ :=
            dead_reports_iff chronicle (parser.resume state)
          refine ⟨.dead, journal, error, ?_, failed, chronicle.happened,
            reports⟩
          dsimp only
          rw [logged]
      | accepted root =>
          exact absurd (error_of_commitRoot ran) remembered
      | path forest top =>
          dsimp only at ran
          unfold commitPath at ran
          split at ran
          · cases ran
          · cases ran
            exact absurd rfl remembered
          · rename_i spec' parser' replayed
            obtain ⟨⟨capacity, rfl⟩, beside⟩ :=
              beside_replay (leavesNothing env.sink) replayed
            have lexer : parser'.lexer = state.lexer := beside.lexer
            have chronicle :
                Chronicles scene
                  (⟨state.spec.withCapacity capacity, parser'.lexer,
                    parser'.heap⟩, journal) := by
              rw [lexer]
              exact chronicle
            split at ran
            · cases ran
            · cases ran
              exact absurd rfl remembered
            · rename_i final lexed
              cases ran
              have noted :
                  lexLogged env.spec top
                      (⟨state.spec.withCapacity capacity, parser'.lexer,
                        parser'.heap⟩, journal) =
                    .ok (none,
                      (final, journal ++ lexFailures top none final)) :=
                Journaled.noting_eq_ok.mpr ⟨lexed, rfl⟩
              have ended :=
                (chronicles_lex rfl top _ _ _ chronicle noted).1
              refine ⟨.unlexed, journal ++ lexFailures top none final, _, ?_,
                rfl, ended.happened,
                unlexed_reports_iff ended (by simp [lexFailures])⟩
              dsimp only
              rw [logged]
              dsimp only
              rw [replayed]
              dsimp only
              rw [noted]
            · cases ran

end TFParser

/-! ## A failure that is reported as the lexer's -/

/-- A lexer of letters that skips another one, up to a number of times. -/
def lexSkipping
    (letters : List (Int × TSSymbol))
    (skipped : Int) :
    Nat → LexProgram
  | 0 => lexLetters letters
  | count + 1 =>
      .lookahead (fun next =>
        if next = skipped then
          .advance true (lexSkipping letters skipped count)
        else
          lexLetters letters)

/--
Two rules over `x`.  After it, one skips `y` and ends; the other one ends with
a `y`, and reads no letter behind it.
-/
def skippingTables : TSLanguage :=
  let tables :=
    smallTables 7 4 8 []
      [[], [.reduce 0 4 0 0, .reduce 0 5 0 0], [.shift 4 false false],
        [.shift 5 false false], [.shift 6 false false], [.reduce 2 6 0 0],
        [.reduce 3 6 0 0], [.accept]]
      [(1, 1, 1), (2, 1, 2), (3, 1, 3), (5, 2, 4), (4, 0, 5), (6, 0, 6),
        (7, 0, 7)]
      [(1, 4, 2), (1, 5, 3), (1, 6, 7)]
  { tables with
    parseActions := fun index =>
      if index = 0 then ⟨.recover, 0, false⟩ else tables.parseActions index
    lexModes := fun state => ⟨state, 0, 0⟩
    lexFn := fun mode =>
      if mode = 4 then
        lexSkipping [(122, 3)] 121 2
      else if mode = 5 then
        lexLetters [(121, 2)]
      else if mode = 6 then
        lexLetters []
      else
        lexLetters [(120, 1)] }

/-- The two rules, loaded. -/
def skippingGrammar : TFLanguage :=
  skippingTables.loaded

/-- A run over the two rules that hands nothing over. -/
def skippingRun : TFRunEnv Unit Unit :=
  .consumer skippingGrammar ⟨none, none, none⟩ 20

/-- The parser at the `x` of `xyyz`. -/
def skippingParser : TFParser Unit Unit :=
  let entered :=
    ((TFParser.initial [120, 121, 121, 122] () .reliable).grow 64 false).2
  { entered with
    lexer := (entered.lexer.next skippingGrammar entered.state).2 }

/-- The token `x`, which two reductions are in conflict over. -/
def skippingToken : TFToken :=
  ⟨1, 0, 1, ⟨0, 0⟩, ⟨0, 1⟩⟩

/-- The run on `xyyz` meets the conflict there. -/
theorem skippingParser_reached :
    TFStep.steps skippingRun 1
        (TFParser.enter [120, 121, 121, 122] () .reliable) =
      .act skippingParser skippingToken := by
  let entered : TFParser Unit Unit :=
    ((TFParser.initial [120, 121, 121, 122] () .reliable).grow 64 false).2
  have found :
      (entered.lexer.next skippingGrammar entered.state).1 =
        some skippingToken := by
    decide +kernel
  have enters :
      (TFParser.enter [120, 121, 121, 122] () .reliable :
        TFStep Unit Unit) = .lex entered :=
    rfl
  rw [enters]
  simp only [TFStep.steps, TFStep.step, TFStep.lexStep]
  have tables : skippingRun.lang = skippingGrammar := rfl
  rw [tables, found]
  rfl

/-- What can be compared of a split's outcome. -/
def splitReport
    (outcome : Option (Bool × TFToken × TFParser Unit Unit)) :
    Option (Bool × Option TFError) :=
  outcome.map (fun answer => (answer.1, answer.2.2.error))

/-- The split on `xyyz`: its report, and the failures it recorded. -/
theorem skippingSplit_computed :
    splitReport (skippingParser.split skippingRun skippingToken) =
        some (false, some ⟨3, ⟨0, 3⟩, .unexpectedCharacter⟩) ∧
      skippingParser.syntaxExit skippingRun skippingToken =
        some (.unlexed,
          [.syntactic 4 ⟨3, 3, 4, ⟨0, 3⟩, ⟨0, 4⟩⟩,
            .lexical 2 ⟨0, 2⟩ 6]) := by
  decide +kernel

/--
On `xyyz`, one alternative reads the `z` and has no use for it; the other one
stops before, at the second `y`.  The split reports that the lexer failed at
the `z`.
-/
theorem failed_split_misreports :
    TFStep.steps skippingRun 1
          (TFParser.enter [120, 121, 121, 122] () .reliable) =
        .act skippingParser skippingToken ∧
      ∃ next after error journal,
        skippingParser.split skippingRun skippingToken =
            some (false, next, after) ∧
          skippingParser.syntaxExit skippingRun skippingToken =
            some (.unlexed, journal) ∧
          after.error = some error ∧
          ¬ error.Reports skippingRun.lang journal := by
  refine ⟨skippingParser_reached, ?_⟩
  obtain ⟨report, exit⟩ := skippingSplit_computed
  obtain ⟨⟨well, next, after⟩, ran, told⟩ := Option.map_eq_some_iff.mp report
  have fails : well = false := congrArg Prod.fst told
  have error : after.error = some ⟨3, ⟨0, 3⟩, .unexpectedCharacter⟩ :=
    congrArg Prod.snd told
  subst fails
  refine ⟨next, after, _, _, ran, exit, error, ?_⟩
  intro reports
  obtain ⟨failure, member, isLex, place⟩ := reports.lexical rfl
  simp only [List.mem_cons, List.not_mem_nil, or_false] at member
  rcases member with rfl | rfl
  · cases isLex
  · cases place

/-- The report on `xyyz` is judged by its exit's condition. -/
theorem failed_split_reports_iff_skipping :
    ∃ next after,
      skippingParser.split skippingRun skippingToken =
          some (false, next, after) ∧
        ∃ exit journal error,
          skippingParser.syntaxExit skippingRun skippingToken =
              some (exit, journal) ∧
            after.error = some error ∧
            (∀ failure ∈ journal,
              SplitScene.Happened
                ⟨skippingRun.lang, skippingParser.lexer.source,
                  skippingParser.lexer.size, skippingToken⟩
                failure) ∧
            (error.Reports skippingRun.lang journal ↔
              exit.ReportsWell journal) := by
  obtain ⟨report, _⟩ := skippingSplit_computed
  obtain ⟨⟨well, next, after⟩, ran, told⟩ := Option.map_eq_some_iff.mp report
  have fails : well = false := congrArg Prod.fst told
  have error : after.error = some ⟨3, ⟨0, 3⟩, .unexpectedCharacter⟩ :=
    congrArg Prod.snd told
  subst fails
  have replays :
      skippingRun.materialize =
        TFSpec.materialize skippingRun.lang 20 :=
    rfl
  exact ⟨next, after, ran,
    TFParser.failed_split_reports_iff replays ran rfl
      (by rw [error]; decide)⟩

end TreeFeller
