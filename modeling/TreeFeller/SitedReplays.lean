import TreeFeller.SitedRuns

/-!
# Every position of a parse is a true one

A byte's row is the number of newlines before it, and its column the number of
bytes since the last of them.  A private replay collects shapes over positions
on the path, so the splits of a run keep to the path, and so does the run: what
it hands over and the failure it reports stand at true rows and columns.
-/

namespace TreeFeller

open StatefulProgram
open TFLexer

/-! ## Rows and columns -/

/-- The row and the column of a byte of a buffer. -/
def pointAt (source : List UInt8) (byte : Nat) : TFPoint where
  row := (source.take byte).count 10
  column := ((source.take byte).reverse.takeWhile (· != 10)).length

/-- A position of a buffer: a byte within it or its end, at its point. -/
def IsPosition (source : List UInt8) (position : Nat × TFPoint) : Prop :=
  position.1 ≤ source.length ∧ position.2 = pointAt source position.1

/-- Past a newline, a row starts. -/
theorem pointAt_newline
    {source rest : List UInt8}
    {byte : Nat}
    (left : source.drop byte = 10 :: rest) :
    pointAt source (byte + 1) = ⟨(pointAt source byte).row + 1, 0⟩ := by
  unfold pointAt
  rw [List.take_add, left]
  simp

/-- Without a newline, the row goes on. -/
theorem pointAt_line
    {source : List UInt8}
    {byte length : Nat}
    (within : byte + length ≤ source.length)
    (noNewline : 10 ∉ (source.drop byte).take length) :
    pointAt source (byte + length) =
      ⟨(pointAt source byte).row, (pointAt source byte).column + length⟩ := by
  have size : ((source.drop byte).take length).length = length := by
    rw [List.length_take, List.length_drop]
    omega
  unfold pointAt
  rw [List.take_add, List.count_append, List.count_eq_zero.mpr noNewline,
    List.reverse_append, List.takeWhile_append_of_pos]
  · simp [size, Nat.add_comm]
  · intro unit member
    have isUnit : unit ∈ (source.drop byte).take length :=
      List.mem_reverse.mp member
    have other : unit ≠ 10 := fun same => noNewline (same ▸ isUnit)
    simpa using other

/-- What is on the path is a position of the buffer. -/
theorem TFLexer.OnPath.isPosition
    {source : List UInt8}
    {position : Nat × TFPoint}
    (onPath : OnPath source position) :
    IsPosition source position := by
  refine ⟨onPath.byte_le, ?_⟩
  obtain ⟨count, rfl⟩ := onPath
  induction count with
  | zero =>
      simp [TFLexer.position, init, getLookahead, pointAt, TFPoint.origin]
  | succ count inductionHypothesis =>
      have settled := (settled_init source).march count
      rw [march_succ]
      generalize (init source source.length).march count = lexer at *
      unfold TFLexer.position at *
      by_cases inside : lexer.byte < source.length
      · have within := settled.lookahead_within inside
        rw [settled.advance_of_lt inside]
        dsimp only
        rw [settled.doAdvance_byte, settled.doAdvance_point]
        dsimp only at inductionHypothesis
        unfold advancedPoint
        split
        · rename_i newline
          have reads := settled.reads
          rw [newline] at reads
          obtain ⟨one, rest, left⟩ := reads.newline
          rw [one, pointAt_newline left, inductionHypothesis]
        · rename_i other
          rw [pointAt_line within (settled.reads.no_newline other),
            inductionHypothesis]
      · rw [settled.advance_of_eof (Nat.le_of_not_lt inside)]
        exact inductionHypothesis

/-! ## Collecting shapes -/

namespace TFSpec

/-- A graph on the path, with slices and a number of heads of some kind. -/
def Gathers
    (lang : TFLanguage)
    (source : List UInt8)
    (marks : List (Nat × TFToken × Bool))
    (kept : List TFSpecSlice × Nat)
    (graph : TFSpec) : Prop :=
  graph.Sited lang source marks ∧
    (graph.slices, graph.heads.length) = kept

section Collecting

variable {lang : TFLanguage}
variable {source : List UInt8}
variable {marks : List (Nat × TFToken × Bool)}
variable {kept : List TFSpecSlice × Nat}
variable {self : TFSpec}

/-- Positions, slices and heads are all that is asked for. -/
theorem Gathers.aside
    {after : TFSpec}
    (gathers : self.Gathers lang source marks kept)
    (same : after.outline = self.outline) :
    after.Gathers lang source marks kept := by
  obtain ⟨positions, rest⟩ := Prod.mk.inj same
  exact ⟨gathers.1.aside positions, rest.trans gathers.2⟩

/-- Collecting a tree on the path. -/
theorem gathers_newTree
    {tree : TFSpecTree}
    (placed : tree.token.Placed source) :
    Program.Maintains
      (fun state : TFSpecState => state.spec.Gathers lang source marks kept)
      (newTree tree) := by
  intro before value after gathers ran
  obtain ⟨capacity, heap, rfl, rfl⟩ := newTree_ran ran
  exact ⟨(gathers.1.addTree placed).aside rfl, gathers.2⟩

/-- A program that the collector runs, or fails to run. -/
theorem Gathers.collect
    (gathers : self.Gathers lang source marks kept)
    {program : SpecM Nat}
    (maintains :
      Program.Maintains
        (fun state : TFSpecState =>
          state.spec.Gathers lang source marks kept)
        program)
    (heap : Heap) :
    (collect program self heap).2.1.Gathers lang source marks kept := by
  unfold TFSpec.collect
  split
  · exact gathers
  · split
    · rename_i id state ran
      exact maintains _ _ _ gathers ran
    · exact gathers.aside rfl

/-- The collector's callbacks keep to the path. -/
theorem captureSink_places :
    captureSink.Places source
      (fun self => self.Gathers lang source marks kept) where
  shift := by
    intro onShift known token extra payload heap placed gathers
    cases known
    exact gathers.collect (gathers_newTree placed) heap
  reduce := by
    intro onReduce known reduction payload heap placed gathers
    cases known
    refine gathers.collect ?_ heap
    unfold captureReduce
    intro before value after gathers ran
    obtain ⟨used, _, asked, ran⟩ := Program.bind_eq_ok.mp ran
    cases asked
    obtain ⟨_, _, room, ran⟩ := Program.bind_eq_ok.mp ran
    obtain ⟨capacity, heap, rfl⟩ := reserve_eq_ok room
    obtain ⟨_, counted, counts, ran⟩ := Program.bind_eq_ok.mp ran
    have ready : counted.spec.Gathers lang source marks kept := by
      cases counts
      exact gathers.aside rfl
    refine gathers_newTree ?_ _ _ _ ready ran
    exact ⟨placed.start, placed.ending⟩
  discard := nofun

/-- Recording the trees below the fork moves none. -/
theorem outline_captureCells
    (self : TFSpec)
    (cells : List (TFCell Nat)) :
    (self.captureCells cells).outline = self.outline := by
  have resolves :
      ∀ (places : List Nat) (graph : TFSpec),
        (places.foldl resolve graph).outline = graph.outline := by
    intro places
    induction places with
    | nil =>
        exact fun _ => rfl
    | cons place rest inductionHypothesis =>
        intro graph
        exact (inductionHypothesis _).trans (outline_resolve graph place)
  exact resolves _ _

/-- Reaching the fork keeps to the path. -/
theorem Gathers.captureHook
    (gathers : self.Gathers lang source marks kept)
    (cells : List (TFCell Nat))
    (splits : Nat)
    (token : TFToken)
    (heap : Heap) :
    (captureHook cells splits token self heap).2.1.Gathers lang source marks
      kept := by
  unfold TFSpec.captureHook
  split
  · exact gathers
  · split
    · split
      · rename_i answer state reserved
        obtain ⟨capacity, heap, rfl⟩ := reserve_eq_ok reserved
        exact gathers.aside (outline_captureCells _ cells)
      · exact gathers.aside rfl
    · exact gathers

/-- Recovering shapes by a replay that keeps to the path. -/
theorem sites_materializeWith
    {fine : TFLexer → List TFSpecSlice → Nat → Prop}
    {replay : List UInt8 → TFSpec → Heap → Option (TFResult TFSpec Nat)}
    (gathers :
      ∀ spec heap result,
        replay source spec heap = some result →
          spec.Sited lang source marks →
            result.parser.payload.Gathers lang source marks
              (spec.slices, spec.heads.length)) :
    Program.Maintains (Sites lang source marks fine)
      (materializeWith replay) := by
  unfold materializeWith
  refine Program.Maintains.bind sites_asks (fun known => ?_)
  refine Program.Maintains.ite Program.Maintains.pure ?_
  refine Program.Maintains.bind (sites_update (fun _ => rfl)) (fun _ => ?_)
  intro before value after sites ran
  obtain ⟨state, read, asked, ran⟩ := Program.bind_eq_ok.mp ran
  cases asked
  cases replayed : replay before.lexer.source before.spec before.heap with
  | none =>
      rw [replayed] at ran
      cases ran
  | some result =>
      rw [replayed] at ran
      rw [sites.reads] at replayed
      obtain ⟨graph, same⟩ := gathers _ _ _ replayed sites.graph
      obtain ⟨slices, heads⟩ := Prod.mk.inj same
      obtain ⟨_, stored, updated, ran⟩ := Program.bind_eq_ok.mp ran
      cases updated
      have recovered :
          Sites lang source marks fine
            { before with
              spec := result.parser.payload
              heap := result.parser.heap } := by
        refine ⟨graph, ?_, sites.reads⟩
        dsimp only
        rw [slices, heads]
        exact sites.rest
      split at ran
      · cases ran
      · cases ran
        exact recovered

/-- Recovering the inherited shapes keeps to the path. -/
theorem sites_materialize
    {fine : TFLexer → List TFSpecSlice → Nat → Prop}
    (ends : EndsInput lang source)
    (fuel : Nat) :
    Program.Maintains (Sites lang source marks fine)
      (materialize lang fuel) := by
  induction fuel generalizing marks fine with
  | zero =>
      exact Program.Ensures.stop
  | succ fuel inductionHypothesis =>
      refine sites_materializeWith ?_
      intro spec heap result replayed sited
      let env : TFRunEnv TFSpec Nat :=
        { lang := lang
          sink := captureSink
          hook := captureHook
          materialize := materialize lang fuel
          fuel := fuel }
      have endsHere : EndsInput env.lang source := ends
      have hooks :
          ∀ cells splits token payload heap,
            payload.Gathers lang source marks
                (spec.slices, spec.heads.length) →
              (env.hook cells splits token payload heap).2.1.Gathers lang
                source marks (spec.slices, spec.heads.length) :=
        fun cells splits token payload heap kept =>
          kept.captureHook cells splits token heap
      exact (TFParser.sited_run (captureSink_places : env.sink.Places _ _)
        endsHere inductionHypothesis hooks replayed ⟨sited, rfl⟩).payload

end Collecting

end TFSpec

end TreeFeller
