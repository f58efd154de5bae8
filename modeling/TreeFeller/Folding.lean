import TreeFeller.Projection

namespace TreeFeller

/-!
# Folding hidden runs

A consumer may fold the run of a hidden rule into one entry.  The parent then
sees one child where it would have seen several, and the filter owns fewer
entries; the nodes it reports, and what is below them once folds are undone,
stay the same.

The consumer here folds by any policy over what it has been handed so far.  It
numbers the nodes and the folds, so that an entry names the call it came from.
-/

/-- What a folding consumer answers: a node's number, or a fold's. -/
inductive FoldValue where
  | node (index : Nat)
  | fold (index : Nat)
  deriving Repr, DecidableEq

/-- Everything a folding consumer has been handed, in order. -/
abbrev FoldHistory : Type :=
  List (VisibleEvent FoldValue)

namespace FoldHistory

/-- The runs that were folded. -/
def folds (history : FoldHistory) :
    List (List (TFVisibleChild FoldValue)) :=
  history.filterMap (fun event =>
    match event with
    | .hidden node (some _) => some node.children
    | _ => none)

end FoldHistory

/-- A choice to fold: by the offered run and everything handed over before. -/
abbrev FoldPolicy : Type :=
  FoldHistory → TFVisibleNode FoldValue → Bool

/-- A consumer that numbers the nodes and folds nothing. -/
def plainSink (namedOnly : Bool) : TFVisibleSink FoldHistory FoldValue where
  onNode :=
    some (fun node history =>
      let value := FoldValue.node (reportedNodes history).length
      (some value, history ++ [.node node (some value)]))
  onHidden := none
  onDiscard := none
  namedOnly := namedOnly

/-- Fold an offered run, numbering the fold, if the policy says so. -/
def foldBy
    (policy : FoldPolicy)
    (node : TFVisibleNode FoldValue)
    (history : FoldHistory) :
    Option FoldValue × FoldHistory :=
  let value :=
    if policy history node then
      some (FoldValue.fold history.folds.length)
    else
      none
  (value, history ++ [.hidden node value])

/-- A consumer that numbers the nodes and folds by a policy. -/
def foldingSink
    (policy : FoldPolicy)
    (namedOnly : Bool) :
    TFVisibleSink FoldHistory FoldValue :=
  { plainSink namedOnly with onHidden := some (foldBy policy) }

/-- One entry, with a fold replaced by the run it was folded from. -/
def expandEntry
    (expanded : List (List (TFVisibleChild FoldValue)))
    (entry : TFVisibleChild FoldValue) :
    List (TFVisibleChild FoldValue) :=
  match entry.value with
  | some (.fold index) => expanded.getD index []
  | _ => [entry]

/-- A run, with every fold replaced by the run it was folded from. -/
def expandRun
    (expanded : List (List (TFVisibleChild FoldValue)))
    (run : List (TFVisibleChild FoldValue)) :
    List (TFVisibleChild FoldValue) :=
  run.flatMap (expandEntry expanded)

/-- The folded runs, each with the folds before it undone in turn. -/
def expandFolds
    (folds : List (List (TFVisibleChild FoldValue))) :
    List (List (TFVisibleChild FoldValue)) :=
  folds.foldl (fun expanded run => expanded ++ [expandRun expanded run]) []

/-- What is compared of an entry: its symbol, its extra flag and its node. -/
def entryView (entry : TFVisibleChild FoldValue) :
    TSSymbol × Bool × Option FoldValue :=
  (entry.symbol, entry.extra, entry.value)

/-- A reported node and its children, with the folds undone. -/
def unfoldedNode
    (expanded : List (List (TFVisibleChild FoldValue)))
    (node : TFVisibleNode FoldValue) :
    TFVisibleNode Unit × List (TSSymbol × Bool × Option FoldValue) :=
  (node.head, (expandRun expanded node.children).map entryView)

/-- Every node a consumer was handed, with the folds undone. -/
def unfoldedCalls
    (consumer : TFConsumer FoldHistory FoldValue) :
    List
      (TFVisibleNode Unit × List (TSSymbol × Bool × Option FoldValue)) :=
  consumer.calls.map
    (unfoldedNode (expandFolds (FoldHistory.folds consumer.events)))

/-- A reported node and its children, as they are. -/
def nodeView
    (node : TFVisibleNode FoldValue) :
    TFVisibleNode Unit × List (TSSymbol × Bool × Option FoldValue) :=
  (node.head, node.children.map entryView)

namespace Folding

open TFFilter

/-! ## Undoing folds -/

/-- An entry that is a fold names one that was made. -/
def Valid
    (expanded : List (List (TFVisibleChild FoldValue)))
    (entry : TFVisibleChild FoldValue) : Prop :=
  ∀ index, entry.value = some (.fold index) → index < expanded.length

/-- Later folds do not change what an entry expands to. -/
theorem expandEntry_append
    {expanded : List (List (TFVisibleChild FoldValue))}
    {entry : TFVisibleChild FoldValue}
    (valid : Valid expanded entry)
    (more : List (List (TFVisibleChild FoldValue))) :
    expandEntry (expanded ++ more) entry = expandEntry expanded entry := by
  unfold expandEntry
  split
  · rename_i index value
    have bound := valid index value
    simp [List.getD_eq_getElem?_getD, List.getElem?_append_left bound]
  · rfl

/-- Later folds do not change what a run expands to. -/
theorem expandRun_append
    {expanded : List (List (TFVisibleChild FoldValue))}
    {run : List (TFVisibleChild FoldValue)}
    (valid : ∀ entry ∈ run, Valid expanded entry)
    (more : List (List (TFVisibleChild FoldValue))) :
    expandRun (expanded ++ more) run = expandRun expanded run := by
  induction run with
  | nil =>
      rfl
  | cons entry rest inductionHypothesis =>
      have later :=
        inductionHypothesis
          (fun other member => valid other (by simp [member]))
      simp only [expandRun, List.flatMap_cons] at later ⊢
      rw [later, expandEntry_append (valid entry (by simp)) more]

/-- A field that is passed on changes nothing that is compared. -/
theorem view_expandRun_inheritRun
    (expanded : List (List (TFVisibleChild FoldValue)))
    (field : TSFieldId)
    (run : List (TFVisibleChild FoldValue)) :
    (expandRun expanded (inheritRun field run)).map entryView =
      (expandRun expanded run).map entryView := by
  have one :
      ∀ entry : TFVisibleChild FoldValue,
        (expandEntry expanded (inheritField field entry)).map entryView =
          (expandEntry expanded entry).map entryView := by
    rintro ⟨symbol, fieldId, extra, value⟩
    unfold inheritField
    split
    · rcases value with _ | (_ | _)
      · rfl
      · rfl
      · rfl
    · rfl
  unfold inheritRun
  split
  · induction run with
    | nil =>
        rfl
    | cons entry rest inductionHypothesis =>
        simp only [expandRun, List.map_cons, List.flatMap_cons,
          List.map_append] at inductionHypothesis ⊢
        rw [one, inductionHypothesis]
  · rfl

/-- A field that is passed on changes nothing in plain entries either. -/
theorem view_inheritRun
    (field : TSFieldId)
    (run : List (TFVisibleChild FoldValue)) :
    (inheritRun field run).map entryView = run.map entryView := by
  unfold inheritRun
  split
  · rw [List.map_map]
    refine List.map_congr_left ?_
    intro entry _
    simp only [Function.comp_apply, inheritField]
    split <;> rfl
  · rfl

/-- Passing a field on keeps folds valid. -/
theorem valid_inheritRun
    {expanded : List (List (TFVisibleChild FoldValue))}
    {run : List (TFVisibleChild FoldValue)}
    (valid : ∀ entry ∈ run, Valid expanded entry)
    (field : TSFieldId) :
    ∀ entry ∈ inheritRun field run, Valid expanded entry := by
  unfold inheritRun
  split
  · intro entry member
    obtain ⟨before, beforeMember, rfl⟩ := List.mem_map.mp member
    have beforeValid := valid before beforeMember
    unfold inheritField
    split
    · exact beforeValid
    · exact beforeValid
  · exact valid

/-- Entries expand to something, where folds do. -/
theorem expandRun_eq_nil_iff
    {expanded : List (List (TFVisibleChild FoldValue))}
    (filled : ∀ run ∈ expanded, run ≠ [])
    {run : List (TFVisibleChild FoldValue)}
    (valid : ∀ entry ∈ run, Valid expanded entry) :
    expandRun expanded run = [] ↔ run = [] := by
  constructor
  · intro nothing
    cases run with
    | nil =>
        rfl
    | cons entry rest =>
        simp only [expandRun, List.flatMap_cons, List.append_eq_nil_iff]
          at nothing
        have first := nothing.1
        unfold expandEntry at first
        split at first
        · rename_i index value
          have bound := valid entry (by simp) index value
          simp only [List.getD_eq_getElem?_getD,
            List.getElem?_eq_getElem bound, Option.getD_some] at first
          exact absurd first (filled _ (List.getElem_mem bound))
        · cases first
  · rintro rfl
    rfl

/-- The last fold expands on top of those before it. -/
theorem expandFolds_append
    (folds : List (List (TFVisibleChild FoldValue)))
    (run : List (TFVisibleChild FoldValue)) :
    expandFolds (folds ++ [run]) =
      expandFolds folds ++ [expandRun (expandFolds folds) run] := by
  simp [expandFolds]

/-- There are as many expansions as folds. -/
theorem length_expandFolds
    (folds : List (List (TFVisibleChild FoldValue))) :
    (expandFolds folds).length = folds.length := by
  have kept :
      ∀ expanded : List (List (TFVisibleChild FoldValue)),
        (folds.foldl
          (fun expanded run => expanded ++ [expandRun expanded run])
          expanded).length = expanded.length + folds.length := by
    induction folds with
    | nil =>
        simp
    | cons run rest inductionHypothesis =>
        intro expanded
        rw [List.foldl_cons, inductionHypothesis]
        simp only [List.length_append, List.length_cons, List.length_nil]
        omega
  simpa [expandFolds] using kept []

/-! ## The two runs -/

/-- A cell of the folding run (left) and of the plain one (right). -/
abbrev Runs : Type :=
  PairedRuns FoldValue FoldValue

/-- A run of the folding filter expands to a run of the plain one. -/
def StandsFor
    (expanded : List (List (TFVisibleChild FoldValue)))
    (left right : List (TFVisibleChild FoldValue)) : Prop :=
  (∀ entry ∈ left, Valid expanded entry) ∧
    (expandRun expanded left).map entryView = right.map entryView

namespace StandsFor

variable {expanded : List (List (TFVisibleChild FoldValue))}
variable {left right left' right' : List (TFVisibleChild FoldValue)}

/-- An empty run stands for an empty one. -/
theorem empty : StandsFor expanded [] [] :=
  ⟨by simp, rfl⟩

/-- Later folds do not change what a run stands for. -/
theorem append
    (stands : StandsFor expanded left right)
    (more : List (List (TFVisibleChild FoldValue))) :
    StandsFor (expanded ++ more) left right := by
  constructor
  · intro entry member index value
    have bound := stands.1 entry member index value
    rw [List.length_append]
    omega
  · rw [expandRun_append stands.1]
    exact stands.2

/-- Runs side by side stand for runs side by side. -/
theorem join
    (stands : StandsFor expanded left right)
    (stands' : StandsFor expanded left' right') :
    StandsFor expanded (left ++ left') (right ++ right') := by
  constructor
  · intro entry member
    rcases List.mem_append.mp member with first | second
    · exact stands.1 entry first
    · exact stands'.1 entry second
  · have first := stands.2
    have second := stands'.2
    simp only [expandRun] at first second ⊢
    rw [List.flatMap_append, List.map_append, List.map_append, first,
      second]

/-- A field passed on to both runs keeps them alike. -/
theorem inherit
    (stands : StandsFor expanded left right)
    (field : TSFieldId) :
    StandsFor expanded (inheritRun field left)
      (inheritRun field right) := by
  refine ⟨valid_inheritRun stands.1 field, ?_⟩
  rw [view_expandRun_inheritRun, view_inheritRun]
  exact stands.2

/-- Only an empty run stands for an empty one. -/
theorem eq_nil_iff
    (stands : StandsFor expanded left right)
    (filled : ∀ run ∈ expanded, run ≠ []) :
    left = [] ↔ right = [] := by
  rw [← expandRun_eq_nil_iff filled stands.1,
    ← List.map_eq_nil_iff ,
    stands.2, List.map_eq_nil_iff]

end StandsFor

/-- The folds of a consumer, undone. -/
def undone (consumer : TFConsumer FoldHistory FoldValue) :
    List (List (TFVisibleChild FoldValue)) :=
  expandFolds (FoldHistory.folds consumer.events)

/-- The two consumers have been handed the same nodes. -/
structure Agree
    (folding plain : TFConsumer FoldHistory FoldValue) : Prop where
  foldingHistory : folding.payload = folding.events
  plainHistory : plain.payload = plain.events
  valid :
    ∀ node ∈ folding.calls, ∀ entry ∈ node.children,
      Valid (undone folding) entry
  filled : ∀ run ∈ undone folding, run ≠ []
  calls : unfoldedCalls folding = plain.calls.map nodeView

namespace Agree

/-- The two consumers number the next node alike. -/
theorem sameCount
    {folding plain : TFConsumer FoldHistory FoldValue}
    (agree : Agree folding plain) :
    reportedNodes folding.payload = folding.calls ∧
      reportedNodes plain.payload = plain.calls ∧
      folding.calls.length = plain.calls.length := by
  have lengths := congrArg List.length agree.calls
  simp only [unfoldedCalls, List.length_map] at lengths
  rw [agree.foldingHistory, agree.plainHistory]
  exact ⟨rfl, rfl, lengths⟩

/-- Both are handed a node over runs that agree. -/
theorem callNode
    {folding plain : TFConsumer FoldHistory FoldValue}
    (agree : Agree folding plain)
    (policy : FoldPolicy)
    (namedOnly : Bool)
    {node node' : TFVisibleNode FoldValue}
    (heads : node.head = node'.head)
    (children :
      StandsFor (undone folding) node.children node'.children) :
    let called := folding.callNode (foldingSink policy namedOnly) node
    let called' := plain.callNode (plainSink namedOnly) node'
    called.1 = called'.1 ∧
      called.1 = some (.node folding.calls.length) ∧
      undone called.2 = undone folding ∧
      Agree called.2 called'.2 := by
  obtain ⟨foldingNodes, plainNodes, lengths⟩ := agree.sameCount
  have sameFolds :
      undone (folding.callNode (foldingSink policy namedOnly) node).2 =
        undone folding := by
    simp [undone, TFConsumer.callNode, foldingSink, plainSink,
      FoldHistory.folds]
  refine ⟨?_, ?_, sameFolds, ?_⟩
  · simp only [TFConsumer.callNode, foldingSink, plainSink, foldingNodes,
      plainNodes, lengths]
  · simp only [TFConsumer.callNode, foldingSink, plainSink, foldingNodes]
  · constructor
    · simp [TFConsumer.callNode, foldingSink, plainSink,
        agree.foldingHistory]
    · simp [TFConsumer.callNode, plainSink, agree.plainHistory]
    · rw [sameFolds]
      intro other member entry inOther
      simp only [TFConsumer.callNode, foldingSink, plainSink,
        TFConsumer.calls, reportedNodes, List.filterMap_append,
        List.mem_append] at member
      rcases member with before | new
      · exact agree.valid other before entry inOther
      · simp only [List.filterMap_cons, List.filterMap_nil,
          List.mem_singleton] at new
        rw [new] at inOther
        exact children.1 entry inOther
    · rw [sameFolds]
      exact agree.filled
    · have before := agree.calls
      simp only [unfoldedCalls] at before ⊢
      rw [← undone, sameFolds]
      rw [← undone] at before
      simp only [TFConsumer.callNode, foldingSink, plainSink,
        TFConsumer.calls, reportedNodes, List.filterMap_append,
        List.map_append]
      simp only [TFConsumer.calls, reportedNodes] at before
      rw [before]
      simp [unfoldedNode, nodeView, heads, children.2]

/-- Being offered a run leaves the nodes handed over as they were. -/
theorem calls_callHidden
    (policy : FoldPolicy)
    (consumer : TFConsumer FoldHistory FoldValue)
    (node : TFVisibleNode FoldValue) :
    (consumer.callHidden (foldBy policy) node).2.calls =
      consumer.calls := by
  simp [TFConsumer.callHidden, TFConsumer.calls, reportedNodes]

/-- A fold is remembered, and the entry made of it stands for its run. -/
theorem callFold
    {folding plain : TFConsumer FoldHistory FoldValue}
    (agree : Agree folding plain)
    (policy : FoldPolicy)
    {node : TFVisibleNode FoldValue}
    {run : List (TFVisibleChild FoldValue)}
    (stands : StandsFor (undone folding) node.children run)
    (several : node.children ≠ [])
    {value : FoldValue}
    (accepted :
      (folding.callHidden (foldBy policy) node).1 = some value)
    (symbol : TSSymbol) :
    let called := (folding.callHidden (foldBy policy) node).2
    (∃ more, undone called = undone folding ++ more) ∧
      StandsFor (undone called) [⟨symbol, 0, false, some value⟩] run ∧
      Agree called plain := by
  intro called
  have valueEq :
      value = .fold (FoldHistory.folds folding.events).length := by
    simp only [TFConsumer.callHidden, foldBy, agree.foldingHistory]
      at accepted
    split at accepted
    · exact (Option.some.inj accepted).symm
    · cases accepted
  have foldsAfter :
      undone called =
        undone folding ++ [expandRun (undone folding) node.children] := by
    have answer := accepted
    simp only [TFConsumer.callHidden] at answer
    simp only [called, undone, TFConsumer.callHidden, FoldHistory.folds,
      List.filterMap_append, answer]
    exact expandFolds_append _ _
  have sameCalls : called.calls = folding.calls :=
    calls_callHidden policy folding node
  have bound :
      (undone folding).length =
        (FoldHistory.folds folding.events).length :=
    length_expandFolds _
  refine ⟨⟨_, foldsAfter⟩, ?_, ?_⟩
  · rw [foldsAfter]
    constructor
    · intro entry member index names
      rw [List.mem_singleton.mp member] at names
      simp only [valueEq, Option.some.injEq, FoldValue.fold.injEq] at names
      rw [List.length_append, List.length_singleton, ← names]
      omega
    · simp only [expandRun, List.flatMap_cons, List.flatMap_nil,
        List.append_nil, expandEntry, valueEq]
      rw [List.getD_eq_getElem?_getD,
        List.getElem?_append_right (Nat.le_of_eq bound)]
      simpa [bound, expandRun] using stands.2
  · constructor
    · simp [called, TFConsumer.callHidden, foldBy, agree.foldingHistory]
    · exact agree.plainHistory
    · rw [foldsAfter, sameCalls]
      intro other member entry inOther index names
      have earlier := agree.valid other member entry inOther index names
      rw [List.length_append]
      omega
    · rw [foldsAfter]
      intro other member
      rcases List.mem_append.mp member with before | new
      · exact agree.filled other before
      · rw [List.mem_singleton.mp new]
        intro nothing
        exact several
          ((expandRun_eq_nil_iff agree.filled stands.1).mp nothing)
    · rw [← agree.calls]
      simp only [unfoldedCalls, sameCalls]
      rw [← undone, ← undone, foldsAfter]
      refine List.map_congr_left ?_
      intro other member
      simp only [unfoldedNode, expandRun_append (agree.valid other member)]

/-- A refusal changes nothing that is compared. -/
theorem callDeclined
    {folding plain : TFConsumer FoldHistory FoldValue}
    (agree : Agree folding plain)
    (policy : FoldPolicy)
    {node : TFVisibleNode FoldValue}
    (refused : (folding.callHidden (foldBy policy) node).1 = none) :
    let called := (folding.callHidden (foldBy policy) node).2
    undone called = undone folding ∧ Agree called plain := by
  intro called
  have sameFolds : undone called = undone folding := by
    have answer := refused
    simp only [TFConsumer.callHidden] at answer
    simp [called, undone, TFConsumer.callHidden, FoldHistory.folds, answer]
  have sameCalls : called.calls = folding.calls :=
    calls_callHidden policy folding node
  refine ⟨sameFolds, ?_⟩
  constructor
  · simp [called, TFConsumer.callHidden, foldBy, agree.foldingHistory]
  · exact agree.plainHistory
  · rw [sameFolds, sameCalls]
    exact agree.valid
  · rw [sameFolds]
    exact agree.filled
  · rw [← agree.calls]
    simp only [unfoldedCalls, sameCalls]
    rw [← undone, ← undone, sameFolds]

end Agree

/-! ## One reduction in both runs -/

/-- Whether a child is dropped is the same in both runs. -/
theorem dropsChild_both
    (policy : FoldPolicy)
    (namedOnly : Bool)
    (lang : TFLanguage)
    (productionId structural : Nat)
    {cell : Runs}
    {expanded : List (List (TFVisibleChild FoldValue))}
    (stands : StandsFor expanded cell.left cell.right)
    (filled : ∀ run ∈ expanded, run ≠ []) :
    dropsChild (foldingSink policy namedOnly) lang productionId structural
        cell.leftRun.node =
      dropsChild (plainSink namedOnly) lang productionId structural
        cell.rightRun.node := by
  have empty := stands.eq_nil_iff filled
  have owned :
      (cell.left.length == 0) = (cell.right.length == 0) := by
    rw [Bool.eq_iff_iff, beq_iff_eq, beq_iff_eq, List.length_eq_zero_iff,
      List.length_eq_zero_iff]
    exact empty
  have ownedNode :
      (owns cell.leftRun.node == 0) = (owns cell.rightRun.node == 0) :=
    owned
  unfold dropsChild
  rw [ownedNode]
  rfl

/-- A visible child that both runs report becomes the same entry. -/
theorem report_both
    (policy : FoldPolicy)
    (namedOnly : Bool)
    (lang : TFLanguage)
    (productionId structural : Nat)
    {folding plain : TFConsumer FoldHistory FoldValue}
    (agree : Agree folding plain)
    {cell : Runs}
    (stands : StandsFor (undone folding) cell.left cell.right) :
    let reported :=
      report (foldingSink policy namedOnly) lang productionId structural
        cell.leftRun.node cell.left folding
    let reported' :=
      report (plainSink namedOnly) lang productionId structural
        cell.rightRun.node cell.right plain
    undone reported.2 = undone folding ∧
      Agree reported.2 reported'.2 ∧
      StandsFor (undone folding) [reported.1] [reported'.1] := by
  intro reported reported'
  have heads :
      (childNode lang productionId structural cell.leftRun.node
          cell.left).head =
        (childNode lang productionId structural cell.rightRun.node
          cell.right).head :=
    rfl
  obtain ⟨sameValue, value, sameFolds, after⟩ :=
    agree.callNode policy namedOnly heads stands
  have plainValue := value
  rw [sameValue] at plainValue
  refine ⟨sameFolds, after, ?_, ?_⟩
  · intro entry member index names
    rw [List.mem_singleton.mp member] at names
    exact absurd (value.symm.trans names) (by simp)
  · have plainEntry :
        expandEntry (undone folding) reported.1 = [reported.1] := by
      simp only [expandEntry, reported, report]
      rw [value]
    simp only [expandRun, List.flatMap_cons, List.flatMap_nil,
      List.append_nil, plainEntry, List.map_cons, List.map_nil]
    simp only [entryView, reported, reported', report]
    rw [value, plainValue]
    rfl

/-- One pass over a list of children, in both runs at once. -/
theorem collect_both
    (policy : FoldPolicy)
    (namedOnly : Bool)
    (lang : TFLanguage)
    (productionId : Nat)
    (cells : List Runs)
    (structural : Nat)
    {folding plain : TFConsumer FoldHistory FoldValue}
    (agree : Agree folding plain)
    (stands :
      ∀ cell ∈ cells, StandsFor (undone folding) cell.left cell.right) :
    let collected :=
      collectOwned (foldingSink policy namedOnly) lang productionId
        (cells.map PairedRuns.leftRun) structural folding
    let collected' :=
      collectOwned (plainSink namedOnly) lang productionId
        (cells.map PairedRuns.rightRun) structural plain
    undone collected.2 = undone folding ∧
      Agree collected.2 collected'.2 ∧
      StandsFor (undone folding) collected.1 collected'.1 := by
  induction cells generalizing structural folding plain with
  | nil =>
      exact ⟨rfl, agree, .empty⟩
  | cons cell rest inductionHypothesis =>
      have own := stands cell (by simp)
      have later :
          ∀ other ∈ rest,
            StandsFor (undone folding) other.left other.right :=
        fun other member => stands other (by simp [member])
      have drops :=
        dropsChild_both policy namedOnly lang productionId structural own
          agree.filled
      simp only [List.map_cons, collectOwned]
      by_cases visible :
          childVisible lang productionId structural
            cell.leftRun.node = true
      · have visible' :
            childVisible lang productionId structural
              cell.rightRun.node = true :=
          visible
        rw [if_pos visible, if_pos visible', drops]
        split
        · exact inductionHypothesis _ agree later
        · obtain ⟨sameFolds, after, entry⟩ :=
            report_both policy namedOnly lang productionId structural agree
              own
          obtain ⟨foldsAfter, agreeAfter, runs⟩ :=
            inductionHypothesis
              (nextStructural structural cell.leftRun.node) after
              (by
                rw [sameFolds]
                exact later)
          rw [sameFolds] at foldsAfter runs
          exact ⟨foldsAfter, agreeAfter, entry.join runs⟩
      · have hidden' :
            ¬ childVisible lang productionId structural
              cell.rightRun.node = true :=
          visible
        rw [if_neg visible, if_neg hidden']
        obtain ⟨foldsAfter, agreeAfter, runs⟩ :=
          inductionHypothesis
            (nextStructural structural cell.leftRun.node) agree later
        exact ⟨foldsAfter, agreeAfter,
          (own.inherit
            (childField lang productionId structural
              cell.leftRun.node)).join runs⟩

/-- Settled runs that agree still agree once one may have been folded. -/
theorem offer_both
    (policy : FoldPolicy)
    (namedOnly : Bool)
    (lang : TFLanguage)
    {symbol : TSSymbol}
    {folding plain final : TFConsumer FoldHistory FoldValue}
    {left right after : List (TFVisibleChild FoldValue)}
    (agree : Agree folding plain)
    (stands : StandsFor (undone folding) left right)
    (offer :
      Offer (foldingSink policy namedOnly) lang symbol left folding after
        final) :
    (∃ more, undone final = undone folding ++ more) ∧
      StandsFor (undone final) after right ∧
      Agree final plain := by
  cases offer with
  | kept =>
      exact ⟨⟨[], by simp⟩, stands, agree⟩
  | declined folds refused =>
      cases folds
      obtain ⟨sameFolds, after⟩ := agree.callDeclined policy refused
      refine ⟨⟨[], by simp [sameFolds]⟩, ?_, after⟩
      rw [sameFolds]
      exact stands
  | folded folds several offered accepted =>
      cases folds
      subst offered
      refine agree.callFold policy stands ?_ accepted _
      intro nothing
      simp [nothing] at several

/-! ## The whole run -/

/-- The two filters on one sequence, and their consumers. -/
structure InStep
    (cells : List Runs)
    (trees : RawStack Unit RawTree)
    (folding plain :
      RawStack (TFFilter FoldHistory FoldValue)
        (TFFilterValue FoldValue)) : Prop where
  paired : Paired cells trees folding plain
  agree : Agree folding.payload.consumer plain.payload.consumer
  stands :
    ∀ cell ∈ cells,
      StandsFor (undone folding.payload.consumer) cell.left cell.right

namespace InStep

section Steps

variable (lang : TFLanguage)
variable (policy : FoldPolicy)
variable (namedOnly : Bool)
variable {cells : List Runs}
variable {trees trees' : RawStack Unit RawTree}
variable {folding plain :
  RawStack (TFFilter FoldHistory FoldValue) (TFFilterValue FoldValue)}

/-- Nothing has been handed over yet. -/
theorem initial
    {heap heap' : Heap}
    (reliable : heap.Reliable)
    (reliable' : heap'.Reliable) :
    InStep [] ⟨[], (), .reliable⟩ ⟨[], .initial [], heap⟩
      ⟨[], .initial [], heap'⟩ where
  paired := ⟨.initial [] reliable, .initial [] reliable'⟩
  agree := {
    foldingHistory := rfl
    plainHistory := rfl
    valid := by simp [TFFilter.initial, TFConsumer.calls, reportedNodes]
    filled := by
      simp [TFFilter.initial, undone, FoldHistory.folds, expandFolds]
    calls := rfl
  }
  stands := by simp

/-- A shifted token is handed to nobody. -/
theorem shift
    (inStep : InStep cells trees folding plain)
    {shifted : TFToken}
    {extra : Bool}
    {state : TSStateId}
    (notEnd : shifted.symbol ≠ tsBuiltinSymEnd)
    (stepped :
      trees.step RawTree.sink (.shift shifted extra state) =
        some trees') :
    ∃ folding' plain',
      folding.step (rawSink (foldingSink policy namedOnly) lang)
          (.shift shifted extra state) = some folding' ∧
        plain.step (rawSink (plainSink namedOnly) lang)
          (.shift shifted extra state) = some plain' ∧
        InStep (cells ++ [.token shifted extra]) trees' folding'
          plain' := by
  obtain ⟨folding', plain', foldingStepped, plainStepped, foldingSame,
      plainSame, paired⟩ :=
    inStep.paired.shift (foldingSink policy namedOnly)
      (plainSink namedOnly) lang notEnd stepped
  refine ⟨folding', plain', foldingStepped, plainStepped, paired, ?_, ?_⟩
  · rw [foldingSame, plainSame]
    exact inStep.agree
  · rw [foldingSame]
    intro cell member
    rcases List.mem_append.mp member with before | new
    · exact inStep.stands cell before
    · rw [List.mem_singleton.mp new]
      exact .empty

/-- A reduction settles runs that agree, folded or not. -/
theorem reduce
    (inStep : InStep cells trees folding plain)
    {symbol : TSSymbol}
    {childCount productionId : Nat}
    {state : TSStateId}
    (notEnd : symbol ≠ tsBuiltinSymEnd)
    (stepped :
      trees.step RawTree.sink
        (.reduce symbol childCount productionId state) = some trees') :
    ∃ cells' folding' plain',
      folding.step (rawSink (foldingSink policy namedOnly) lang)
          (.reduce symbol childCount productionId state) =
            some folding' ∧
        plain.step (rawSink (plainSink namedOnly) lang)
          (.reduce symbol childCount productionId state) = some plain' ∧
        InStep cells' trees' folding' plain' := by
  obtain ⟨below, children, trailing, span, foldingRun, plainRun, folding',
      plain', rfl, extras, foldingStepped, plainStepped, foldingOffer,
      plainOffer, paired⟩ :=
    inStep.paired.reduce (foldingSink policy namedOnly)
      (plainSink namedOnly) lang notEnd stepped
  obtain ⟨plainRunEq, plainConsumer⟩ := plainOffer.of_onHidden_none rfl
  obtain ⟨sameFolds, agree, runs⟩ :=
    collect_both policy namedOnly lang productionId children 0 inStep.agree
      (fun cell member => inStep.stands cell (by simp [member]))
  rw [← sameFolds] at runs
  obtain ⟨⟨more, foldsAfter⟩, stands, agreeAfter⟩ :=
    offer_both policy namedOnly lang agree runs foldingOffer
  rw [sameFolds] at foldsAfter
  refine ⟨_, folding', plain', foldingStepped, plainStepped, paired, ?_,
    ?_⟩
  · rw [plainConsumer]
    exact agreeAfter
  · intro cell member
    simp only [List.mem_append, List.mem_singleton] at member
    rcases member with (inBelow | isNew) | inTrailing
    · rw [foldsAfter]
      exact (inStep.stands cell (by simp [inBelow])).append more
    · subst isNew
      rw [plainRunEq]
      exact stands
    · rw [foldsAfter]
      exact (inStep.stands cell (by simp [inTrailing])).append more

/-- The consumers agree over a whole run. -/
theorem run
    (events : List RawEvent)
    (inner : ∀ event ∈ events, event.symbol ≠ tsBuiltinSymEnd)
    (inStep : InStep cells trees folding plain)
    (ran : RawStack.run RawTree.sink events trees = some trees') :
    ∃ cells' folding' plain',
      RawStack.run (rawSink (foldingSink policy namedOnly) lang) events
          folding = some folding' ∧
        RawStack.run (rawSink (plainSink namedOnly) lang) events plain =
          some plain' ∧
        InStep cells' trees' folding' plain' := by
  induction events generalizing cells trees folding plain with
  | nil =>
      cases ran
      exact ⟨cells, folding, plain, rfl, rfl, inStep⟩
  | cons event rest inductionHypothesis =>
      have restInner :
          ∀ later ∈ rest, later.symbol ≠ tsBuiltinSymEnd :=
        fun later member => inner later (by simp [member])
      simp only [RawStack.run] at ran
      split at ran
      · cases ran
      rename_i next stepped
      have one :
          ∃ cells' folding' plain',
            folding.step (rawSink (foldingSink policy namedOnly) lang)
                event = some folding' ∧
              plain.step (rawSink (plainSink namedOnly) lang) event =
                some plain' ∧
              InStep cells' next folding' plain' := by
        cases event with
        | shift shifted extra state =>
            have notEnd : shifted.symbol ≠ tsBuiltinSymEnd :=
              inner (.shift shifted extra state) (by simp)
            obtain ⟨folding', plain', foldingStepped, plainStepped,
                after⟩ :=
              inStep.shift lang policy namedOnly notEnd stepped
            exact ⟨_, folding', plain', foldingStepped, plainStepped,
              after⟩
        | reduce symbol childCount productionId state =>
            have notEnd : symbol ≠ tsBuiltinSymEnd :=
              inner (.reduce symbol childCount productionId state)
                (by simp)
            exact inStep.reduce lang policy namedOnly notEnd stepped
      obtain ⟨cells', folding', plain', foldingStepped, plainStepped,
          after⟩ :=
        one
      obtain ⟨cells'', folding'', plain'', foldingRan, plainRan, last⟩ :=
        inductionHypothesis restInner after ran
      refine ⟨cells'', folding'', plain'', ?_, ?_, last⟩
      · simp only [RawStack.run, foldingStepped, foldingRan]
      · simp only [RawStack.run, plainStepped, plainRan]

end Steps

end InStep

end Folding

open Folding TFFilter in
/--
Whatever a consumer folds, it is handed the nodes it would be handed without
folding, and each of them over the same children once its folds are undone.
-/
theorem folding_keeps_node_stream
    (lang : TFLanguage)
    {parse : RawParse}
    (endsAtRoot : parse.EndsAtRoot)
    {tree : RawTree}
    (builds : parse.tree = some tree)
    (policy : FoldPolicy)
    (namedOnly : Bool)
    {heap : Heap}
    (reliable : heap.Reliable) :
    ∃ foldingRoot folding foldingHeap plainRoot plain plainHeap,
      parse.run (rawSink (foldingSink policy namedOnly) lang)
            (.initial []) heap =
          some (foldingRoot, folding, foldingHeap) ∧
        parse.run (rawSink (plainSink namedOnly) lang) (.initial [])
            heap =
          some (plainRoot, plain, plainHeap) ∧
        folding.consumer.calls.map TFVisibleNode.head =
          plain.consumer.calls.map TFVisibleNode.head ∧
        unfoldedCalls folding.consumer =
          plain.consumer.calls.map nodeView := by
  simp only [RawParse.tree, RawParse.run] at builds
  cases ran :
      RawStack.run RawTree.sink parse.events ⟨[], (), .reliable⟩ with
  | none =>
      simp [ran] at builds
  | some stack =>
      simp only [ran] at builds
      cases closed :
          stack.close RawTree.sink parse.symbol parse.childCount
            parse.productionId parse.endToken with
      | none =>
          simp [closed] at builds
      | some answer =>
          rcases answer with ⟨answered, rest⟩
          obtain ⟨cells, folding, plain, foldingRan, plainRan, inStep⟩ :=
            (InStep.initial reliable reliable).run lang policy namedOnly
              parse.events endsAtRoot.elsewhere ran
          let ended : Runs := .token parse.endToken true
          obtain ⟨span, foldingRun, foldingConsumer, foldingRoot, folding',
              foldingHeap, plainRun, plainConsumer, plainRoot, plain',
              plainHeap, _, _, foldingClosed, plainClosed, foldingOffer,
              plainOffer, foldingReported, plainReported⟩ :=
            inStep.paired.close (foldingSink policy namedOnly)
              (plainSink namedOnly) lang endsAtRoot.endSymbol closed
          obtain ⟨plainRunEq, plainConsumerEq⟩ :=
            plainOffer.of_onHidden_none rfl
          obtain ⟨sameFolds, agree, runs⟩ :=
            collect_both policy namedOnly lang parse.productionId
              (cells ++ [ended]) 0 inStep.agree
              (by
                intro cell member
                rcases List.mem_append.mp member with before | new
                · exact inStep.stands cell before
                · rw [List.mem_singleton.mp new]
                  exact .empty)
          rw [← sameFolds] at runs
          obtain ⟨_, stands, agreeAfter⟩ :=
            offer_both policy namedOnly lang agree runs foldingOffer
          rw [← plainConsumerEq] at agreeAfter
          rw [← plainRunEq] at stands
          have agreeLast : Agree folding'.consumer plain'.consumer := by
            rw [foldingReported, plainReported]
            split
            · refine (agreeAfter.callNode policy namedOnly ?_ stands).2.2.2
              rfl
            · exact agreeAfter
          refine ⟨foldingRoot, folding', foldingHeap, plainRoot, plain',
            plainHeap, ?_, ?_, ?_, agreeLast.calls⟩
          · simp only [RawParse.run, foldingRan, foldingClosed]
          · simp only [RawParse.run, plainRan, plainClosed]
          · have heads := congrArg (List.map Prod.fst) agreeLast.calls
            simp only [unfoldedCalls, List.map_map] at heads
            exact heads

/-- A symbol on one line, from a byte to another. -/
def lineToken (symbol : TSSymbol) (startByte endByte : Nat) : TFToken where
  symbol := symbol
  startByte := startByte
  endByte := endByte
  startPoint := ⟨0, startByte⟩
  endPoint := ⟨0, endByte⟩

/-- The raw events of `aaabbb` in the grammar of repetitions. -/
def repeatsParse : RawParse where
  events := [
    .shift (lineToken 1 0 1) false 2,
    .reduce 4 1 0 4,
    .shift (lineToken 1 1 2) false 5,
    .reduce 4 2 0 4,
    .shift (lineToken 1 2 3) false 5,
    .reduce 4 2 0 4,
    .shift (lineToken 2 3 4) false 6,
    .reduce 5 1 0 7,
    .shift (lineToken 2 4 5) false 8,
    .reduce 5 2 0 7,
    .shift (lineToken 2 5 6) false 8,
    .reduce 5 2 0 7
  ]
  symbol := 3
  childCount := 2
  productionId := 0
  endToken := lineToken 0 6 6

/-- The tree `aaabbb` parses to. -/
def repeatsTree : RawTree :=
  .rule (lineToken 3 0 6) 0
    [.rule (lineToken 4 0 3) 0
        [.rule (lineToken 4 0 2) 0
            [.rule (lineToken 4 0 1) 0 [.token (lineToken 1 0 1) false],
              .token (lineToken 1 1 2) false],
          .token (lineToken 1 2 3) false],
      .rule (lineToken 5 3 6) 0
        [.rule (lineToken 5 3 5) 0
            [.rule (lineToken 5 3 4) 0 [.token (lineToken 2 3 4) false],
              .token (lineToken 2 4 5) false],
          .token (lineToken 2 5 6) false],
      .token (lineToken 0 6 6) true]

/-- The events build the tree. -/
theorem repeatsParse_tree : repeatsParse.tree = some repeatsTree :=
  rfl

/-- The end token stands at the root only. -/
theorem repeatsParse_endsAtRoot : repeatsParse.EndsAtRoot where
  endSymbol := rfl
  elsewhere := by decide

/-- The folds a consumer was offered: the entries' values and its answer. -/
def offeredRuns (history : FoldHistory) :
    List (List (Option FoldValue) × Option FoldValue) :=
  history.filterMap (fun event =>
    match event with
    | .hidden node answer =>
        some (node.children.map TFVisibleChild.value, answer)
    | _ => none)

/--
A consumer that folds the first repetition only, over `aaabbb`: the second fold
holds the first, and a run that is declined is not offered again.
-/
theorem folding_keeps_node_stream_repeats :
    ∃ foldingRoot folding foldingHeap plainRoot plain plainHeap,
      repeatsParse.run
            (TFFilter.rawSink
              (foldingSink (fun _ node => node.symbol == 4) false)
              repeatsGrammar) (.initial []) .reliable =
          some (foldingRoot, folding, foldingHeap) ∧
        offeredRuns folding.consumer.events =
          [([some (.node 0), some (.node 1)], some (.fold 0)),
            ([some (.fold 0), some (.node 2)], some (.fold 1)),
            ([some (.node 3), some (.node 4)], none)] ∧
        repeatsParse.run
            (TFFilter.rawSink (plainSink false) repeatsGrammar)
            (.initial []) .reliable =
          some (plainRoot, plain, plainHeap) ∧
        folding.consumer.calls.map TFVisibleNode.head =
          plain.consumer.calls.map TFVisibleNode.head ∧
        unfoldedCalls folding.consumer =
          plain.consumer.calls.map nodeView := by
  have reliable : Heap.reliable.Reliable := fun _ => rfl
  obtain ⟨foldingRoot, folding, foldingHeap, plainRoot, plain, plainHeap,
      foldingRan, plainRan, heads, calls⟩ :=
    folding_keeps_node_stream repeatsGrammar repeatsParse_endsAtRoot
      repeatsParse_tree (fun _ node => node.symbol == 4) false reliable
  have offered :
      (repeatsParse.run
          (TFFilter.rawSink
            (foldingSink (fun _ node => node.symbol == 4) false)
            repeatsGrammar) (.initial []) .reliable).map
        (fun answer => offeredRuns answer.2.1.consumer.events) =
        some
          [([some (.node 0), some (.node 1)], some (.fold 0)),
            ([some (.fold 0), some (.node 2)], some (.fold 1)),
            ([some (.node 3), some (.node 4)], none)] := by
    decide +kernel
  rw [foldingRan] at offered
  exact ⟨foldingRoot, folding, foldingHeap, plainRoot, plain, plainHeap,
    foldingRan, Option.some.inj offered, plainRan, heads, calls⟩

end TreeFeller
