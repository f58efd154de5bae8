import TreeFeller.Projection
import Mathlib.Data.List.Forall2
import Mathlib.Data.List.Nodup

namespace TreeFeller

/-!
# Dropping punctuation

With `named_only` the filter leaves anonymous nodes out.  It decides when the
immediate parent reduces: before hidden ancestors have given the node a field,
and after punctuation below the node has been dropped already.  So it drops
the punctuation of the full run, and sometimes more; this module says when.

The two runs are compared node by node.  The full run's consumer numbers the
nodes it is handed, so that an entry names the call it came from.
-/

/-- The consumer that answers each node with its place in the sequence. -/
def numberingSink : TFVisibleSink Nat Nat where
  onNode := some (fun _ count => (some count, count + 1))
  onHidden := none
  onDiscard := none
  namedOnly := false

/-- The field that a numbered node fills in the parent it is handed to. -/
def fieldInParent
    (calls : List (TFVisibleNode Nat))
    (index : Nat) :
    TSFieldId :=
  (((calls.flatMap TFVisibleNode.children).find?
      (fun entry => entry.value == some index)).map
    TFVisibleChild.fieldId).getD 0

/--
Whether a node of the full run is punctuation: not the root, anonymous,
without a visible child, and filling no field of its visible parent.
-/
def isPunctuation
    (calls : List (TFVisibleNode Nat))
    (index : Nat)
    (node : TFVisibleNode Nat) :
    Bool :=
  index + 1 != calls.length && !node.named && node.children.isEmpty &&
    fieldInParent calls index == 0

/-- The full run's nodes without the punctuation, children left aside. -/
def withoutPunctuation
    (calls : List (TFVisibleNode Nat)) :
    List (TFVisibleNode Unit) :=
  ((calls.zip (calls.mapIdx (isPunctuation calls))).filter
    (fun entry => !entry.2)).map (fun entry => entry.1.head)

namespace RawTree

open TFFilter

/-- A tree as a child, whatever its value. -/
def bare (self : RawTree) : TFNode Unit :=
  self.node none

/-- What the two runs make of one visible child. -/
structure Slot where
  extra : Bool
  fieldId : TSFieldId
  kept : Bool
  deriving Repr, DecidableEq

/-- What the two runs make of one reported node: its children and itself. -/
structure Note where
  children : List Slot
  kept : Bool
  deriving Repr, DecidableEq

/-- A slot below a hidden tree takes its field, if it has none itself. -/
def Slot.pass (field : TSFieldId) (self : Slot) : Slot :=
  if !self.extra && self.fieldId == 0 then
    { self with fieldId := field }
  else
    self

/--
Whether `named_only` keeps a visible child: it is named, its own production
gives it a field, or something below it was kept.
-/
def keptIn
    (lang : TFLanguage)
    (productionId index : Nat)
    (child : RawTree)
    (below : List Slot) :
    Bool :=
  childNamed lang productionId index child.bare ||
    childField lang productionId index child.bare != 0 ||
    below.any Slot.kept

mutual

/-- The visible children of a tree. -/
def slots (lang : TFLanguage) : RawTree → List Slot
  | .token _ _ => []
  | .rule _ productionId children => slotsFrom lang productionId 0 children

/-- The visible children that a list of children contributes. -/
def slotsFrom (lang : TFLanguage) (productionId : Nat) :
    Nat → List RawTree → List Slot
  | _, [] => []
  | index, child :: rest =>
      (if childVisible lang productionId index child.bare then
        [⟨child.extra, childField lang productionId index child.bare,
          child.keptIn lang productionId index (slots lang child)⟩]
      else
        (slots lang child).map
          (Slot.pass (childField lang productionId index child.bare))) ++
        slotsFrom lang productionId (nextStructural index child.bare) rest

end

/-- The nodes a list of children is reported as. -/
def shownNotes (lang : TFLanguage) (productionId : Nat) :
    Nat → List RawTree → List Note
  | _, [] => []
  | index, child :: rest =>
      (if childVisible lang productionId index child.bare then
        [⟨slots lang child,
          child.keptIn lang productionId index (slots lang child)⟩]
      else
        []) ++
        shownNotes lang productionId (nextStructural index child.bare) rest

mutual

/-- Every node reported below a tree, in the order of the reports. -/
def notes (lang : TFLanguage) : RawTree → List Note
  | .token _ _ => []
  | .rule _ productionId children =>
      notesAll lang children ++ shownNotes lang productionId 0 children

/-- Every node reported below each of a list of trees. -/
def notesAll (lang : TFLanguage) : List RawTree → List Note
  | [] => []
  | tree :: rest => notes lang tree ++ notesAll lang rest

end

/--
`named_only` drops nothing but punctuation from a node: a child it drops has
no field from a hidden ancestor either, and if it drops the node itself then
the node has no visible children, not even dropped ones.
-/
def Note.Faithful (self : Note) : Prop :=
  (∀ slot ∈ self.children, slot.kept = false → slot.fieldId = 0) ∧
    (self.kept = false → self.children = [])

instance (note : Note) : Decidable note.Faithful :=
  inferInstanceAs (Decidable (_ ∧ _))

/-- `named_only` drops nothing but punctuation from a tree. -/
def DropsOnlyPunctuation (lang : TFLanguage) (self : RawTree) : Prop :=
  ∀ note ∈ notes lang self ++ [⟨slots lang self, true⟩], note.Faithful

/-! ## The two runs, entry by entry -/

/-- An entry of the full run, against the slot it fills. -/
def EntryFor
    (calls : List (TFVisibleNode Nat))
    (notes : List Note)
    (entry : TFVisibleChild Nat)
    (slot : Slot) : Prop :=
  ∃ index node note,
    entry.value = some index ∧
      calls[index]? = some node ∧
      notes[index]? = some note ∧
      entry.extra = slot.extra ∧
      entry.fieldId = slot.fieldId ∧
      note.kept = slot.kept ∧
      (slot.kept = true →
        node.named = true ∨ note.children ≠ [] ∨ slot.fieldId ≠ 0) ∧
      (slot.kept = false → node.named = false)

/-- A run of the full run, against the slots it fills. -/
abbrev RunFor
    (calls : List (TFVisibleNode Nat))
    (notes : List Note) :
    List (TFVisibleChild Nat) → List Slot → Prop :=
  List.Forall₂ (EntryFor calls notes)

/-- Later calls do not change what an entry stands for. -/
theorem EntryFor.append
    {calls : List (TFVisibleNode Nat)}
    {notes : List Note}
    {entry : TFVisibleChild Nat}
    {slot : Slot}
    (stands : EntryFor calls notes entry slot)
    (moreCalls : List (TFVisibleNode Nat))
    (moreNotes : List Note) :
    EntryFor (calls ++ moreCalls) (notes ++ moreNotes) entry slot := by
  obtain ⟨index, node, note, value, call, noted, rest⟩ := stands
  have callAt := List.getElem?_eq_some_iff.mp call
  have noteAt := List.getElem?_eq_some_iff.mp noted
  refine ⟨index, node, note, value, ?_, ?_, rest⟩
  · rw [List.getElem?_append_left callAt.1]
    exact call
  · rw [List.getElem?_append_left noteAt.1]
    exact noted

/-- Later calls do not change what a run stands for. -/
theorem RunFor.append
    {calls : List (TFVisibleNode Nat)}
    {notes : List Note}
    {run : List (TFVisibleChild Nat)}
    {slots : List Slot}
    (stands : RunFor calls notes run slots)
    (moreCalls : List (TFVisibleNode Nat))
    (moreNotes : List Note) :
    RunFor (calls ++ moreCalls) (notes ++ moreNotes) run slots :=
  stands.imp (fun _ _ entry => entry.append moreCalls moreNotes)

/-- Inlining a run gives its slots the same field. -/
theorem RunFor.inherit
    {calls : List (TFVisibleNode Nat)}
    {notes : List Note}
    {run : List (TFVisibleChild Nat)}
    {slots : List Slot}
    (stands : RunFor calls notes run slots)
    (field : TSFieldId) :
    RunFor calls notes (inheritRun field run)
      (slots.map (Slot.pass field)) := by
  have passes :
      ∀ (entry : TFVisibleChild Nat) (slot : Slot),
        EntryFor calls notes entry slot →
          EntryFor calls notes (inheritField field entry)
            (slot.pass field) := by
    rintro entry slot
      ⟨index, node, note, value, call, noted, extra, fieldId, kept,
        keeps, drops⟩
    unfold inheritField Slot.pass
    rw [extra, fieldId]
    split
    · refine ⟨index, node, note, value, call, noted, rfl, rfl, kept, ?_,
        drops⟩
      rename_i unfielded
      simp only [Bool.and_eq_true, beq_iff_eq] at unfielded
      intro isKept
      rcases keeps isKept with named | below | fielded
      · exact Or.inl named
      · exact Or.inr (Or.inl below)
      · exact absurd unfielded.2 fielded
    · exact ⟨index, node, note, value, call, noted, extra, fieldId, kept,
        keeps, drops⟩
  unfold inheritRun
  split
  · rw [RunFor, List.forall₂_map_left_iff, List.forall₂_map_right_iff]
    exact stands.imp (fun entry slot => passes entry slot)
  · rename_i zero
    have none : field = 0 := by
      simpa using zero
    subst none
    have unchanged :
        ∀ slot : Slot, slot.pass 0 = slot := by
      intro slot
      unfold Slot.pass
      split
      · rename_i unfielded
        simp only [Bool.and_eq_true, beq_iff_eq] at unfielded
        rw [← unfielded.2]
      · rfl
    rw [List.map_id'' unchanged]
    exact stands

/-- A tree on both filters' paired: the full run's part is on the left. -/
abbrev BothRuns (W : Type) : Type :=
  PairedRuns Nat W

namespace BothRuns

variable {W : Type}

/-- The runs stand for the slots of their tree, dropped or not. -/
def StandsFor
    (lang : TFLanguage)
    (calls : List (TFVisibleNode Nat))
    (noted : List Note)
    (self : BothRuns W) : Prop :=
  RunFor calls noted self.left (slots lang self.tree) ∧
    self.right.length = (slots lang self.tree).countP Slot.kept

/-- Later calls do not change what runs stand for. -/
theorem StandsFor.append
    {lang : TFLanguage}
    {calls : List (TFVisibleNode Nat)}
    {noted : List Note}
    {runs : BothRuns W}
    (stands : runs.StandsFor lang calls noted)
    (moreCalls : List (TFVisibleNode Nat))
    (moreNotes : List Note) :
    runs.StandsFor lang (calls ++ moreCalls) (noted ++ moreNotes) :=
  ⟨RunFor.append stands.1 moreCalls moreNotes, stands.2⟩

end BothRuns

/-- The values of a run. -/
def valuesOf {W : Type} (run : List (TFVisibleChild W)) : List (Option W) :=
  run.map TFVisibleChild.value

/-- The values handed over as the children of a list of nodes. -/
def handedValues {W : Type} (nodes : List (TFVisibleNode W)) :
    List (Option W) :=
  valuesOf (nodes.flatMap TFVisibleNode.children)

/-- The part of a log that flags keep, children left aside. -/
def keptHeads
    (nodes : List (TFVisibleNode Nat))
    (notes : List Note) :
    List (TFVisibleNode Unit) :=
  ((nodes.zip notes).filter (fun entry => entry.2.kept)).map
    (fun entry => entry.1.head)

/--
What one pass over a list of children does in both runs: `nodes` are the calls
the full run makes, and each number is in exactly one of the runs and calls
that the pass leaves behind.
-/
structure Collected {τ W : Type}
    (lang : TFLanguage)
    (productionId index : Nat)
    (trees : List RawTree)
    (handed : List (Option Nat))
    (calls : List (TFVisibleNode Nat))
    (noted : List Note)
    (heads : List (TFVisibleNode Unit))
    (full : List (TFVisibleChild Nat) × TFConsumer Nat Nat)
    (named : List (TFVisibleChild W) × TFConsumer τ W)
    (nodes : List (TFVisibleNode Nat)) : Prop where
  length :
    nodes.length = (shownNotes lang productionId index trees).length
  payload : full.2.payload = calls.length + nodes.length
  fullCalls : full.2.calls = calls ++ nodes
  namedHeads :
    named.2.calls.map TFVisibleNode.head =
      heads ++
        keptHeads nodes (shownNotes lang productionId index trees)
  fullRun :
    RunFor (calls ++ nodes)
      (noted ++ shownNotes lang productionId index trees)
      full.1 (slotsFrom lang productionId index trees)
  namedRun :
    named.1.length =
      (slotsFrom lang productionId index trees).countP Slot.kept
  children :
    List.Forall₂
      (fun node note =>
        RunFor (calls ++ nodes)
          (noted ++ shownNotes lang productionId index trees)
          node.children note.children)
      nodes (shownNotes lang productionId index trees)
  once :
    ∀ value,
      (valuesOf full.1).count value + (handedValues nodes).count value =
        handed.count value +
          ((List.range' calls.length nodes.length).map some).count value

/-- Inlining a run keeps its values. -/
theorem values_inheritRun {W : Type}
    (field : TSFieldId)
    (run : List (TFVisibleChild W)) :
    valuesOf (inheritRun field run) = valuesOf run := by
  unfold inheritRun
  split
  · simp only [valuesOf, List.map_map]
    refine List.map_congr_left ?_
    intro entry _
    simp only [Function.comp_apply, inheritField]
    split <;> rfl
  · rfl

/-- Inlining a run keeps its length. -/
theorem length_inheritRun {W : Type}
    (field : TSFieldId)
    (run : List (TFVisibleChild W)) :
    (inheritRun field run).length = run.length := by
  unfold inheritRun
  split <;> simp

/-- The calls of a consumer that is handed one more node. -/
theorem calls_callNode {τ W : Type}
    {sink : TFVisibleSink τ W}
    {onNode : TFVisibleNode W → τ → Option W × τ}
    (reports : sink.onNode = some onNode)
    (consumer : TFConsumer τ W)
    (node : TFVisibleNode W) :
    (consumer.callNode sink node).2.calls = consumer.calls ++ [node] := by
  simp [TFConsumer.callNode, reports, TFConsumer.calls, reportedNodes]

/-- A run of which nothing is kept is empty under `named_only`. -/
theorem BothRuns.StandsFor.isEmpty_iff {W : Type}
    {lang : TFLanguage}
    {calls : List (TFVisibleNode Nat)}
    {noted : List Note}
    {runs : BothRuns W}
    (stands : runs.StandsFor lang calls noted) :
    (runs.right.length == 0) =
      !(slots lang runs.tree).any Slot.kept := by
  rw [stands.2, Bool.eq_iff_iff]
  simp [List.countP_eq_zero]

/-- Dropping with `named_only`, on a cell of the run. -/
theorem dropsChild_eq {τ W : Type}
    {sink : TFVisibleSink τ W}
    (namedOnly : sink.namedOnly = true)
    {lang : TFLanguage}
    {calls : List (TFVisibleNode Nat)}
    {noted : List Note}
    {runs : BothRuns W}
    (stands : runs.StandsFor lang calls noted)
    (productionId index : Nat) :
    dropsChild sink lang productionId index runs.rightRun.node =
      !runs.tree.keptIn lang productionId index
        (slots lang runs.tree) := by
  have empty := stands.isEmpty_iff
  have named :
      childNamed lang productionId index runs.rightRun.node =
        childNamed lang productionId index runs.tree.bare :=
    rfl
  have field :
      childField lang productionId index runs.rightRun.node =
        childField lang productionId index runs.tree.bare :=
    rfl
  have owned : owns runs.rightRun.node = runs.right.length := rfl
  simp only [dropsChild, namedOnly, named, field, owned, empty, keptIn,
    Bool.true_and, Bool.not_or, bne, Bool.not_not]

/-- A child that the full run reports, against the slot and note it fills. -/
theorem report_both {W : Type}
    (lang : TFLanguage)
    {calls : List (TFVisibleNode Nat)}
    {noted : List Note}
    (sameLength : calls.length = noted.length)
    (runs : BothRuns W)
    (productionId index : Nat)
    {consumer : TFConsumer Nat Nat}
    (payload : consumer.payload = calls.length) :
    let node :=
      childNode lang productionId index runs.leftRun.node runs.left
    let keeps :=
      runs.tree.keptIn lang productionId index (slots lang runs.tree)
    EntryFor (calls ++ [node]) (noted ++ [⟨slots lang runs.tree, keeps⟩])
      (report numberingSink lang productionId index runs.leftRun.node
        runs.left consumer).1
      ⟨runs.tree.extra,
        childField lang productionId index runs.tree.bare, keeps⟩ := by
  intro node keeps
  refine
    ⟨calls.length, node, ⟨slots lang runs.tree, keeps⟩, ?_, by simp,
      by simp [sameLength], rfl, rfl, rfl, ?_, ?_⟩
  · simp [report, TFConsumer.callNode, numberingSink, payload]
  · intro isKept
    simp only [keeps, keptIn, Bool.or_eq_true, bne_iff_ne, ne_eq] at isKept
    rcases isKept with (named | fielded) | below
    · exact Or.inl named
    · exact Or.inr (Or.inr fielded)
    · refine Or.inr (Or.inl ?_)
      intro none
      simp only at none
      simp [none] at below
  · intro dropped
    simp only [keeps, keptIn, Bool.or_eq_false_iff] at dropped
    exact dropped.1.1

/-- One pass over a list of children, in both runs at once. -/
theorem collect_both {τ W : Type}
    {sink : TFVisibleSink τ W}
    (namedOnly : sink.namedOnly = true)
    {onNode : TFVisibleNode W → τ → Option W × τ}
    (reports : sink.onNode = some onNode)
    (lang : TFLanguage)
    (productionId : Nat)
    (cells : List (BothRuns W))
    (index : Nat)
    (calls : List (TFVisibleNode Nat))
    (noted : List Note)
    (sameLength : calls.length = noted.length)
    (stands : ∀ cell ∈ cells, cell.StandsFor lang calls noted)
    (full : TFConsumer Nat Nat)
    (payload : full.payload = calls.length)
    (fullCalls : full.calls = calls)
    (named : TFConsumer τ W) :
    ∃ nodes,
      Collected lang productionId index (cells.map PairedRuns.tree)
        (cells.flatMap (fun cell => valuesOf cell.left)) calls noted
        (named.calls.map TFVisibleNode.head)
        (collectOwned numberingSink lang productionId
          (cells.map PairedRuns.leftRun) index full)
        (collectOwned sink lang productionId
          (cells.map PairedRuns.rightRun) index named)
        nodes := by
  induction cells generalizing index calls noted full named with
  | nil =>
      refine ⟨[], ?_⟩
      constructor <;>
        simp [collectOwned, shownNotes, slotsFrom, keptHeads, valuesOf,
          handedValues, payload, fullCalls, RunFor]
  | cons first rest inductionHypothesis =>
      have firstStands := stands first (by simp)
      have visibleFull :
          childVisible lang productionId index first.leftRun.node =
            childVisible lang productionId index first.tree.bare :=
        rfl
      have visibleNamed :
          childVisible lang productionId index first.rightRun.node =
            childVisible lang productionId index first.tree.bare :=
        rfl
      have nextFull :
          nextStructural index first.leftRun.node =
            nextStructural index first.tree.bare :=
        rfl
      have fieldFull :
          childField lang productionId index first.leftRun.node =
            childField lang productionId index first.tree.bare :=
        rfl
      have ownFull : first.leftRun.2 = first.left := rfl
      cases visible :
          childVisible lang productionId index first.tree.bare with
      | false =>
          obtain ⟨nodes, later⟩ :=
            inductionHypothesis
              (nextStructural index first.tree.bare) calls noted sameLength
              (fun cell member => stands cell (by simp [member]))
              full payload fullCalls named
          refine ⟨nodes, ?_⟩
          have shownSame :
              shownNotes lang productionId index
                  ((first :: rest).map PairedRuns.tree) =
                shownNotes lang productionId
                  (nextStructural index first.tree.bare)
                  (rest.map PairedRuns.tree) := by
            simp [shownNotes, visible]
          have slotsSame :
              slotsFrom lang productionId index
                  ((first :: rest).map PairedRuns.tree) =
                (slots lang first.tree).map
                    (Slot.pass
                      (childField lang productionId index
                        first.tree.bare)) ++
                  slotsFrom lang productionId
                    (nextStructural index first.tree.bare)
                    (rest.map PairedRuns.tree) := by
            simp [slotsFrom, visible]
          simp only [List.map_cons, collectOwned, visibleFull, visibleNamed,
            visible, Bool.false_eq_true, if_false]
          constructor
          · rw [← List.map_cons, shownSame]
            exact later.length
          · exact later.payload
          · exact later.fullCalls
          · rw [← List.map_cons, shownSame]
            exact later.namedHeads
          · rw [← List.map_cons, shownSame, slotsSame]
            exact List.rel_append
              ((RunFor.append firstStands.1 _ _).inherit _)
              later.fullRun
          · rw [← List.map_cons, slotsSame, List.length_append,
              List.countP_append]
            congr 1
            · rw [length_inheritRun, List.countP_map]
              refine firstStands.2.trans ?_
              congr 1
              funext slot
              simp [Slot.pass]
              split <;> rfl
            · exact later.namedRun
          · rw [← List.map_cons, shownSame]
            exact later.children
          · intro value
            have onceLater := later.once value
            have values :=
              values_inheritRun
                (childField lang productionId index first.tree.bare)
                first.left
            simp only [valuesOf] at values onceLater
            simp only [List.flatMap_cons, List.count_append, valuesOf,
              List.map_append, ownFull, fieldFull, nextFull, values]
            omega
      | true =>
          have fullKeeps :
              dropsChild numberingSink lang productionId index
                first.leftRun.node = false := by
            simp [dropsChild, numberingSink]
          let node :=
            childNode lang productionId index first.leftRun.node first.left
          obtain ⟨keeps, keepsEq⟩ :
              ∃ keeps,
                keeps =
                  first.tree.keptIn lang productionId index
                    (slots lang first.tree) :=
            ⟨_, rfl⟩
          let note : Note := ⟨slots lang first.tree, keeps⟩
          let reported :=
            report numberingSink lang productionId index
              first.leftRun.node first.left full
          have entry :=
            report_both lang sameLength first productionId index payload
          rw [← keepsEq] at entry
          have reportedPayload :
              reported.2.payload = (calls ++ [node]).length := by
            simp [reported, report, TFConsumer.callNode, numberingSink,
              payload]
          have reportedCalls : reported.2.calls = calls ++ [node] := by
            rw [← fullCalls]
            exact calls_callNode rfl full node
          have laterStands :
              ∀ cell ∈ rest,
                cell.StandsFor lang (calls ++ [node])
                  (noted ++ [note]) :=
            fun cell member =>
              (stands cell (by simp [member])).append [node] [note]
          have dropsEq :=
            dropsChild_eq namedOnly firstStands productionId index
          rw [← keepsEq] at dropsEq
          have shownSame :
              shownNotes lang productionId index
                  ((first :: rest).map PairedRuns.tree) =
                note ::
                  shownNotes lang productionId
                    (nextStructural index first.tree.bare)
                    (rest.map PairedRuns.tree) := by
            simp [shownNotes, visible, note, keepsEq]
          have slotsSame :
              slotsFrom lang productionId index
                  ((first :: rest).map PairedRuns.tree) =
                ⟨first.tree.extra,
                    childField lang productionId index first.tree.bare,
                    keeps⟩ ::
                  slotsFrom lang productionId
                    (nextStructural index first.tree.bare)
                    (rest.map PairedRuns.tree) := by
            simp [slotsFrom, visible, keepsEq]
          let namedReport :=
            report sink lang productionId index first.rightRun.node
              first.right named
          obtain ⟨nodes, later⟩ :=
            inductionHypothesis
              (nextStructural index first.tree.bare) (calls ++ [node])
              (noted ++ [note]) (by simp [sameLength]) laterStands
              reported.2 reportedPayload reportedCalls
              (if keeps then namedReport.2 else named)
          refine ⟨node :: nodes, ?_⟩
          simp only [List.map_cons, collectOwned, visibleFull, visibleNamed,
            visible, fullKeeps, dropsEq, Bool.false_eq_true, if_false,
            if_true, ownFull, nextFull]
          constructor
          · rw [← List.map_cons, shownSame]
            simp [later.length]
          · have last := later.payload
            simp only [List.length_append, List.length_cons,
              List.length_nil] at last ⊢
            refine Eq.trans last ?_
            omega
          · refine Eq.trans later.fullCalls ?_
            simp
          · rw [← List.map_cons, shownSame]
            have last := later.namedHeads
            cases keeps with
            | false =>
                simp only [Bool.not_false, if_true, Bool.false_eq_true,
                  if_false] at last ⊢
                refine Eq.trans last ?_
                simp [keptHeads, note]
            | true =>
                simp only [Bool.not_true, Bool.false_eq_true, if_false,
                  if_true] at last ⊢
                refine Eq.trans last ?_
                have calledNamed :
                    namedReport.2.calls =
                      named.calls ++
                        [childNode lang productionId index
                          first.rightRun.node first.right] :=
                  calls_callNode reports named _
                rw [calledNamed]
                simp [keptHeads, note, node]
                rfl
          · rw [← List.map_cons, shownSame, slotsSame]
            refine List.Forall₂.cons ?_ ?_
            · have later := entry.append nodes
                (shownNotes lang productionId
                  (nextStructural index first.tree.bare)
                  (rest.map PairedRuns.tree))
              simpa [note, node] using later
            · simpa [reported] using later.fullRun
          · rw [← List.map_cons, slotsSame, List.countP_cons]
            have last := later.namedRun
            cases keeps with
            | false =>
                simp only [Bool.not_false, if_true, Bool.false_eq_true,
                  if_false] at last ⊢
                exact last
            | true =>
                simp only [Bool.not_true, Bool.false_eq_true, if_false,
                  if_true] at last ⊢
                rw [List.length_cons]
                exact congrArg (· + 1) last
          · rw [← List.map_cons, shownSame]
            refine List.Forall₂.cons ?_ ?_
            · exact firstStands.1.append (node :: nodes) _
            · simpa using later.children
          · intro value
            have onceLater := later.once value
            have entryValue :
                (report numberingSink lang productionId index
                    first.leftRun.node first.left full).1.value =
                  some calls.length := by
              simp [report, TFConsumer.callNode, numberingSink, payload]
            have handedNode :
                handedValues (node :: nodes) =
                  valuesOf first.left ++ handedValues nodes := by
              simp [handedValues, valuesOf, node, childNode]
            rw [handedNode]
            simp only [List.length_append, List.length_cons,
              List.length_nil, Nat.zero_add] at onceLater
            simp only [valuesOf, List.map_cons, entryValue,
              List.flatMap_cons, List.length_cons, List.range'_succ,
              List.count_append, List.count_cons] at onceLater ⊢
            simp only [reported] at onceLater
            omega

/-- Keeping by flags, over two logs. -/
theorem keptHeads_append
    {first second : List (TFVisibleNode Nat)}
    {firstNotes secondNotes : List Note}
    (sameLength : first.length = firstNotes.length) :
    keptHeads (first ++ second) (firstNotes ++ secondNotes) =
      keptHeads first firstNotes ++ keptHeads second secondNotes := by
  simp [keptHeads, List.zip_append sameLength]

/--
The books of both runs: which of the full run's calls the other run makes
too, what each call's children stand for, and that every numbered node is
either pending in the arena or handed to one parent.
-/
structure Ledger
    (calls : List (TFVisibleNode Nat))
    (noted : List Note)
    (heads : List (TFVisibleNode Unit))
    (pending : List (Option Nat)) : Prop where
  length : calls.length = noted.length
  heads : heads = keptHeads calls noted
  children :
    List.Forall₂
      (fun node note => RunFor calls noted node.children note.children)
      calls noted
  once :
    ∀ value,
      pending.count value + (handedValues calls).count value =
        ((List.range calls.length).map some).count value

namespace Ledger

/-- The books of two runs that have called nobody. -/
theorem empty : Ledger [] [] [] [] where
  length := rfl
  heads := rfl
  children := .nil
  once := by simp [handedValues, valuesOf]

/-- The books after one pass over a list of children. -/
theorem collect {τ W : Type}
    {lang : TFLanguage}
    {productionId index : Nat}
    {trees : List RawTree}
    {calls nodes : List (TFVisibleNode Nat)}
    {noted : List Note}
    {heads : List (TFVisibleNode Unit)}
    {pending handed : List (Option Nat)}
    (before : List (Option Nat))
    {full : List (TFVisibleChild Nat) × TFConsumer Nat Nat}
    {named : List (TFVisibleChild W) × TFConsumer τ W}
    (ledger : Ledger calls noted heads pending)
    (parts : pending = before ++ handed)
    (collected :
      Collected lang productionId index trees handed calls noted heads
        full named nodes) :
    Ledger (calls ++ nodes)
      (noted ++ shownNotes lang productionId index trees)
      (named.2.calls.map TFVisibleNode.head)
      (before ++ valuesOf full.1) where
  length := by
    simp [ledger.length, collected.length]
  heads := by
    rw [collected.namedHeads, ledger.heads,
      keptHeads_append ledger.length]
  children :=
    List.rel_append
      (ledger.children.imp (fun _ _ run => RunFor.append run _ _))
      collected.children
  once := by
    intro value
    have earlier := ledger.once value
    have later := collected.once value
    have numbers :
        List.range (calls ++ nodes).length =
          List.range calls.length ++
            List.range' calls.length nodes.length := by
      have joined :
          List.range' 0 calls.length ++
              List.range' (0 + calls.length) nodes.length =
            List.range' 0 (calls.length + nodes.length) :=
        List.range'_append_1
      rw [List.length_append, List.range_eq_range', List.range_eq_range',
        ← joined, Nat.zero_add]
    have handedBoth :
        handedValues (calls ++ nodes) =
          handedValues calls ++ handedValues nodes := by
      simp [handedValues, valuesOf]
    rw [numbers, handedBoth]
    simp only [parts, List.count_append, List.map_append] at earlier ⊢
    omega

end Ledger

/-- Both filters beside the stack of whole trees, and their books. -/
structure InStep {τ W : Type}
    (lang : TFLanguage)
    (cells : List (BothRuns W))
    (trees : RawStack Unit RawTree)
    (full : RawStack (TFFilter Nat Nat) (TFFilterValue Nat))
    (named : RawStack (TFFilter τ W) (TFFilterValue W)) : Prop where
  paired : Paired cells trees full named
  payload :
    full.payload.consumer.payload = full.payload.consumer.calls.length
  stands :
    ∀ cell ∈ cells,
      cell.StandsFor lang full.payload.consumer.calls
        (notesAll lang (cells.map PairedRuns.tree))
  ledger :
    Ledger full.payload.consumer.calls
      (notesAll lang (cells.map PairedRuns.tree))
      (named.payload.consumer.calls.map TFVisibleNode.head)
      (cells.flatMap (fun cell => valuesOf cell.left))

/-- The notes of two lists of trees. -/
theorem notesAll_append
    (lang : TFLanguage)
    (first second : List RawTree) :
    notesAll lang (first ++ second) =
      notesAll lang first ++ notesAll lang second := by
  induction first with
  | nil =>
      rfl
  | cons tree rest inductionHypothesis =>
      simp only [List.cons_append, notesAll, inductionHypothesis,
        List.append_assoc]

/-- An extra is a token: nothing is reported below it. -/
theorem notes_of_extra
    {lang : TFLanguage}
    {tree : RawTree}
    (isExtra : tree.extra = true) :
    notes lang tree = [] ∧ slots lang tree = [] := by
  cases tree with
  | token shifted extra =>
      exact ⟨rfl, rfl⟩
  | rule at_ productionId children =>
      cases isExtra

/-- Nothing is reported below a list of extras. -/
theorem notesAll_of_extra
    {lang : TFLanguage}
    {trees : List RawTree}
    (extras : ∀ tree ∈ trees, tree.extra = true) :
    notesAll lang trees = [] := by
  induction trees with
  | nil =>
      rfl
  | cons tree rest inductionHypothesis =>
      rw [notesAll, (notes_of_extra (extras tree (by simp))).1,
        inductionHypothesis
          (fun later member => extras later (by simp [member]))]
      rfl

namespace InStep

section Steps

variable {τ W : Type}
variable {lang : TFLanguage}
variable {sink : TFVisibleSink τ W}
variable {cells : List (BothRuns W)}
variable {trees trees' : RawStack Unit RawTree}
variable {full : RawStack (TFFilter Nat Nat) (TFFilterValue Nat)}
variable {named : RawStack (TFFilter τ W) (TFFilterValue W)}

/-- The two runs have handed their consumers nothing yet. -/
theorem initial
    (payload : τ)
    {heap heap' : Heap}
    (reliable : heap.Reliable)
    (reliable' : heap'.Reliable) :
    InStep lang ([] : List (BothRuns W)) ⟨[], (), .reliable⟩
      ⟨[], .initial 0, heap⟩ ⟨[], .initial payload, heap'⟩ where
  paired := ⟨.initial 0 reliable, .initial payload reliable'⟩
  payload := rfl
  stands := by simp
  ledger := .empty

/-- A shifted token is in neither log. -/
theorem shift
    (inStep : InStep lang cells trees full named)
    {shifted : TFToken}
    {extra : Bool}
    {state : TSStateId}
    (notEnd : shifted.symbol ≠ tsBuiltinSymEnd)
    (stepped :
      trees.step RawTree.sink (.shift shifted extra state) =
        some trees') :
    ∃ full' named',
      full.step (rawSink numberingSink lang)
          (.shift shifted extra state) = some full' ∧
        named.step (rawSink sink lang) (.shift shifted extra state) =
          some named' ∧
        InStep lang (cells ++ [.token shifted extra]) trees'
          full' named' := by
  obtain ⟨full', named', fullStepped, namedStepped, fullSame, namedSame,
      paired⟩ :=
    inStep.paired.shift numberingSink sink lang notEnd stepped
  have notesSame :
      notesAll lang
          ((cells ++ [PairedRuns.token shifted extra]).map
            PairedRuns.tree) =
        notesAll lang (cells.map PairedRuns.tree) := by
    simp [notesAll_append, notesAll, notes, PairedRuns.token]
  refine ⟨full', named', fullStepped, namedStepped, paired, ?_, ?_, ?_⟩
  · rw [fullSame]
    exact inStep.payload
  · rw [fullSame, notesSame]
    intro cell member
    rcases List.mem_append.mp member with before | new
    · exact inStep.stands cell before
    · rw [List.mem_singleton.mp new]
      exact ⟨.nil, rfl⟩
  · rw [fullSame, namedSame, notesSame]
    simpa [valuesOf, PairedRuns.token] using inStep.ledger

/-- What a reduction does to both logs. -/
theorem reduce
    (namedOnly : sink.namedOnly = true)
    (noFold : sink.onHidden = none)
    {onNode : TFVisibleNode W → τ → Option W × τ}
    (reports : sink.onNode = some onNode)
    (inStep : InStep lang cells trees full named)
    {symbol : TSSymbol}
    {childCount productionId : Nat}
    {state : TSStateId}
    (notEnd : symbol ≠ tsBuiltinSymEnd)
    (stepped :
      trees.step RawTree.sink
        (.reduce symbol childCount productionId state) = some trees') :
    ∃ cells' full' named',
      full.step (rawSink numberingSink lang)
          (.reduce symbol childCount productionId state) = some full' ∧
        named.step (rawSink sink lang)
          (.reduce symbol childCount productionId state) = some named' ∧
        InStep lang cells' trees' full' named' := by
  obtain ⟨below, children, trailing, span, fullRun, namedRun, full',
      named', rfl, extras, fullStepped, namedStepped, fullOffer,
      namedOffer, paired⟩ :=
    inStep.paired.reduce numberingSink sink lang notEnd stepped
  obtain ⟨fullRunEq, fullConsumer⟩ := fullOffer.of_onHidden_none rfl
  obtain ⟨namedRunEq, namedConsumer⟩ :=
    namedOffer.of_onHidden_none noFold
  have noted :
      notesAll lang (trailing.map PairedRuns.tree) = [] := by
    refine notesAll_of_extra ?_
    intro tree member
    obtain ⟨cell, inTrailing, rfl⟩ := List.mem_map.mp member
    exact (extras cell inTrailing).1
  have pendingNothing :
      trailing.flatMap (fun cell => valuesOf cell.left) = [] := by
    rw [List.flatMap_eq_nil_iff]
    intro cell member
    simp [(extras cell member).2.1, valuesOf]
  obtain ⟨nodes, collected⟩ :=
    collect_both namedOnly reports lang productionId children 0
      full.payload.consumer.calls _ inStep.ledger.length
      (fun cell member => inStep.stands cell (by simp [member]))
      full.payload.consumer inStep.payload rfl named.payload.consumer
  have ledger :=
    Ledger.collect (below.flatMap (fun cell => valuesOf cell.left))
      inStep.ledger (by simp [pendingNothing]) collected
  have callsAfter :
      full'.payload.consumer.calls =
        full.payload.consumer.calls ++ nodes := by
    rw [fullConsumer]
    exact collected.fullCalls
  have notedAfter :
      notesAll lang
          ((below ++
            [(⟨.rule span productionId (children.map PairedRuns.tree),
              fullRun, namedRun⟩ : BothRuns W)] ++
            trailing).map PairedRuns.tree) =
        notesAll lang
            ((below ++ children ++ trailing).map PairedRuns.tree) ++
          shownNotes lang productionId 0
            (children.map PairedRuns.tree) := by
    simp [notesAll_append, notesAll, notes, noted]
  refine ⟨_, full', named', fullStepped, namedStepped, paired, ?_, ?_, ?_⟩
  · rw [callsAfter, fullConsumer, List.length_append]
    exact collected.payload
  · rw [callsAfter, notedAfter]
    intro cell member
    simp only [List.mem_append, List.mem_singleton] at member
    rcases member with (inBelow | isNew) | inTrailing
    · exact (inStep.stands cell (by simp [inBelow])).append _ _
    · subst isNew
      constructor
      · rw [fullRunEq]
        exact collected.fullRun
      · rw [namedRunEq]
        exact collected.namedRun
    · exact (inStep.stands cell (by simp [inTrailing])).append _ _
  · rw [callsAfter, notedAfter, namedConsumer]
    simpa [pendingNothing, fullRunEq] using ledger

/-- The books are kept over a whole run. -/
theorem run
    (namedOnly : sink.namedOnly = true)
    (noFold : sink.onHidden = none)
    {onNode : TFVisibleNode W → τ → Option W × τ}
    (reports : sink.onNode = some onNode)
    (events : List RawEvent)
    (inner : ∀ event ∈ events, event.symbol ≠ tsBuiltinSymEnd)
    (inStep : InStep lang cells trees full named)
    (ran : RawStack.run RawTree.sink events trees = some trees') :
    ∃ cells' full' named',
      RawStack.run (rawSink numberingSink lang) events full = some full' ∧
        RawStack.run (rawSink sink lang) events named = some named' ∧
        InStep lang cells' trees' full' named' := by
  induction events generalizing cells trees full named with
  | nil =>
      cases ran
      exact ⟨cells, full, named, rfl, rfl, inStep⟩
  | cons event rest inductionHypothesis =>
      have restInner :
          ∀ later ∈ rest, later.symbol ≠ tsBuiltinSymEnd :=
        fun later member => inner later (by simp [member])
      simp only [RawStack.run] at ran
      split at ran
      · cases ran
      rename_i next stepped
      have one :
          ∃ cells' full' named',
            full.step (rawSink numberingSink lang) event = some full' ∧
              named.step (rawSink sink lang) event = some named' ∧
              InStep lang cells' next full' named' := by
        cases event with
        | shift shifted extra state =>
            have notEnd : shifted.symbol ≠ tsBuiltinSymEnd :=
              inner (.shift shifted extra state) (by simp)
            obtain ⟨full', named', fullStepped, namedStepped, after⟩ :=
              inStep.shift notEnd stepped
            exact ⟨_, full', named', fullStepped, namedStepped, after⟩
        | reduce symbol childCount productionId state =>
            have notEnd : symbol ≠ tsBuiltinSymEnd :=
              inner (.reduce symbol childCount productionId state)
                (by simp)
            exact inStep.reduce namedOnly noFold reports notEnd stepped
      obtain ⟨cells', full', named', fullStepped, namedStepped, after⟩ :=
        one
      obtain ⟨cells'', full'', named'', fullRan, namedRan, last⟩ :=
        inductionHypothesis restInner after ran
      refine ⟨cells'', full'', named'', ?_, ?_, last⟩
      · simp only [RawStack.run, fullStepped, fullRan]
      · simp only [RawStack.run, namedStepped, namedRan]

end Steps

end InStep

/-! ## Reading the books at the end -/

/-- What flags keep of a list. -/
def keptBy {α : Type} : List α → List Bool → List α
  | item :: rest, true :: flags => item :: keptBy rest flags
  | _ :: rest, false :: flags => keptBy rest flags
  | _, _ => []

/-- Keeping by flags is what filtering the flagged list does. -/
theorem keptBy_eq_filter {α : Type}
    (items : List α)
    (flags : List Bool) :
    keptBy items flags =
      ((items.zip flags).filter Prod.snd).map Prod.fst := by
  induction items generalizing flags with
  | nil =>
      simp [keptBy]
  | cons item rest inductionHypothesis =>
      cases flags with
      | nil =>
          simp [keptBy]
      | cons flag flags =>
          cases flag <;> simp [keptBy, inductionHypothesis]

/-- Keeping by flags that imply others keeps no more. -/
theorem length_keptBy_le {α : Type}
    (items : List α)
    {first second : List Bool}
    (firstLength : first.length = items.length)
    (secondLength : second.length = items.length)
    (implies :
      ∀ index : Nat,
        first[index]? = some true → second[index]? = some true) :
    (keptBy items first).length ≤ (keptBy items second).length := by
  induction items generalizing first second with
  | nil =>
      simp [keptBy]
  | cons item rest inductionHypothesis =>
      obtain ⟨flag, flags, rfl⟩ := List.exists_cons_of_length_eq_add_one
        firstLength
      obtain ⟨flag', flags', rfl⟩ := List.exists_cons_of_length_eq_add_one
        secondLength
      have later :=
        inductionHypothesis (by simpa using firstLength)
          (by simpa using secondLength)
          (fun index => by simpa using implies (index + 1))
      have here := implies 0
      cases flag with
      | false =>
          cases flag' with
          | false =>
              exact later
          | true =>
              simp only [keptBy, List.length_cons]
              omega
      | true =>
          have same : flag' = true := by
            simpa using here
          subst same
          simp only [keptBy, List.length_cons]
          omega

/-- Flags that imply others keep the same only if they are the same. -/
theorem keptBy_eq_iff {α β : Type}
    (view : α → β)
    (items : List α)
    {first second : List Bool}
    (firstLength : first.length = items.length)
    (secondLength : second.length = items.length)
    (implies :
      ∀ index : Nat,
        first[index]? = some true → second[index]? = some true) :
    (keptBy items first).map view = (keptBy items second).map view ↔
      first = second := by
  constructor
  · intro same
    induction items generalizing first second with
    | nil =>
        rw [List.eq_nil_of_length_eq_zero firstLength,
          List.eq_nil_of_length_eq_zero secondLength]
    | cons item rest inductionHypothesis =>
        obtain ⟨flag, flags, rfl⟩ := List.exists_cons_of_length_eq_add_one
          firstLength
        obtain ⟨flag', flags', rfl⟩ :=
          List.exists_cons_of_length_eq_add_one secondLength
        have restFirst : flags.length = rest.length := by
          simpa using firstLength
        have restSecond : flags'.length = rest.length := by
          simpa using secondLength
        have restImplies :
            ∀ index : Nat,
              flags[index]? = some true → flags'[index]? = some true :=
          fun index => by simpa using implies (index + 1)
        have here := implies 0
        cases flag with
        | false =>
            cases flag' with
            | false =>
                rw [inductionHypothesis restFirst restSecond restImplies
                  same]
            | true =>
                have shorter :=
                  length_keptBy_le rest restFirst restSecond restImplies
                have lengths := congrArg List.length same
                simp only [keptBy, List.map_cons, List.length_map,
                  List.length_cons] at lengths
                omega
        | true =>
            have sameFlag : flag' = true := by
              simpa using here
            subst sameFlag
            simp only [keptBy, List.map_cons, List.cons.injEq, true_and]
              at same
            rw [inductionHypothesis restFirst restSecond restImplies same]
  · rintro rfl
    rfl

/-- What is in a list once is there in one way only. -/
theorem eq_of_count_value {W : Type} [DecidableEq W]
    {entries : List (TFVisibleChild W)}
    {value : Option W}
    (once : (valuesOf entries).count value ≤ 1)
    {first second : TFVisibleChild W}
    (firstMember : first ∈ entries)
    (secondMember : second ∈ entries)
    (firstValue : first.value = value)
    (secondValue : second.value = value) :
    first = second := by
  induction entries with
  | nil =>
      cases firstMember
  | cons entry rest inductionHypothesis =>
      have inRest :
          ∀ other ∈ rest,
            other.value = value → 0 < (valuesOf rest).count value := by
        intro other member same
        rw [List.count_pos_iff, ← same]
        exact List.mem_map_of_mem member
      simp only [valuesOf, List.map_cons, List.count_cons] at once inRest
      rcases List.mem_cons.mp firstMember with isFirst | firstInRest
      · rcases List.mem_cons.mp secondMember with isFirst' | secondInRest
        · rw [isFirst, isFirst']
        · have more := inRest second secondInRest secondValue
          rw [← isFirst, firstValue] at once
          simp only [beq_self_eq_true, if_true] at once
          omega
      · rcases List.mem_cons.mp secondMember with isFirst' | secondInRest
        · have more := inRest first firstInRest firstValue
          rw [← isFirst', secondValue] at once
          simp only [beq_self_eq_true, if_true] at once
          omega
        · refine
            inductionHypothesis ?_ firstInRest secondInRest
          simp only [valuesOf]
          omega

/-- The books at the end of a parse: the root was reported, and last. -/
structure Closed
    (calls : List (TFVisibleNode Nat))
    (noted : List Note) : Prop where
  length : calls.length = noted.length
  children :
    List.Forall₂
      (fun node note => RunFor calls noted node.children note.children)
      calls noted
  root :
    ∀ index note,
      noted[index]? = some note → note.kept = false →
        index + 1 < calls.length
  once :
    ∀ index,
      index + 1 < calls.length →
        (handedValues calls).count (some index) = 1

namespace Closed

section Reading

variable {calls : List (TFVisibleNode Nat)}
variable {noted : List Note}

/-- The node and the note at one place belong together. -/
theorem run_at
    (closed : Closed calls noted)
    {index : Nat}
    {node : TFVisibleNode Nat}
    {note : Note}
    (call : calls[index]? = some node)
    (notedAt : noted[index]? = some note) :
    RunFor calls noted node.children note.children := by
  obtain ⟨callBound, callAt⟩ := List.getElem?_eq_some_iff.mp call
  obtain ⟨noteBound, noteAt⟩ := List.getElem?_eq_some_iff.mp notedAt
  have both := (List.forall₂_iff_get.mp closed.children).2 index
    callBound noteBound
  simpa [callAt, noteAt] using both

/-- A node without children is one whose note has none. -/
theorem children_eq_nil_iff
    (closed : Closed calls noted)
    {index : Nat}
    {node : TFVisibleNode Nat}
    {note : Note}
    (call : calls[index]? = some node)
    (notedAt : noted[index]? = some note) :
    node.children = [] ↔ note.children = [] := by
  have lengths := (closed.run_at call notedAt).length_eq
  constructor
  · intro none
    rw [none] at lengths
    exact List.eq_nil_of_length_eq_zero lengths.symm
  · intro none
    rw [none] at lengths
    exact List.eq_nil_of_length_eq_zero lengths

/-- An entry that is handed over fills a slot of some note. -/
theorem slot_of_handed
    (closed : Closed calls noted)
    {entry : TFVisibleChild Nat}
    (handed : entry ∈ calls.flatMap TFVisibleNode.children) :
    ∃ note ∈ noted, ∃ slot ∈ note.children,
      EntryFor calls noted entry slot := by
  obtain ⟨node, member, inNode⟩ := List.mem_flatMap.mp handed
  obtain ⟨index, bound, nodeAt⟩ := List.mem_iff_getElem.mp member
  have noteBound : index < noted.length := by
    rw [← closed.length]
    exact bound
  have run :=
    closed.run_at (List.getElem?_eq_some_iff.mpr ⟨bound, nodeAt⟩)
      (List.getElem?_eq_some_iff.mpr ⟨noteBound, rfl⟩)
  obtain ⟨place, entryBound, entryAt⟩ := List.mem_iff_getElem.mp inNode
  have slotBound : place < noted[index].children.length := by
    rw [← run.length_eq]
    exact entryBound
  have stands := (List.forall₂_iff_get.mp run).2 place entryBound slotBound
  refine ⟨noted[index], List.getElem_mem noteBound,
    noted[index].children[place], List.getElem_mem slotBound, ?_⟩
  simpa [entryAt] using stands

/-- A slot of a note is filled by an entry that is handed over. -/
theorem handed_of_slot
    (closed : Closed calls noted)
    {note : Note}
    (member : note ∈ noted)
    {slot : Slot}
    (inNote : slot ∈ note.children) :
    ∃ entry ∈ calls.flatMap TFVisibleNode.children,
      EntryFor calls noted entry slot := by
  obtain ⟨index, bound, noteAt⟩ := List.mem_iff_getElem.mp member
  have callBound : index < calls.length := by
    rw [closed.length]
    exact bound
  have run :=
    closed.run_at (List.getElem?_eq_some_iff.mpr ⟨callBound, rfl⟩)
      (List.getElem?_eq_some_iff.mpr ⟨bound, noteAt⟩)
  obtain ⟨place, slotBound, slotAt⟩ := List.mem_iff_getElem.mp inNote
  have entryBound : place < calls[index].children.length := by
    rw [run.length_eq]
    exact slotBound
  have stands := (List.forall₂_iff_get.mp run).2 place entryBound slotBound
  refine ⟨calls[index].children[place],
    List.mem_flatMap.mpr
      ⟨calls[index], List.getElem_mem callBound,
        List.getElem_mem entryBound⟩, ?_⟩
  simpa [slotAt] using stands

/-- The one entry of a node that is not the root tells the field it fills. -/
theorem fieldInParent_eq
    (closed : Closed calls noted)
    {index : Nat}
    (inner : index + 1 < calls.length)
    {entry : TFVisibleChild Nat}
    (handed : entry ∈ calls.flatMap TFVisibleNode.children)
    (value : entry.value = some index) :
    fieldInParent calls index = entry.fieldId := by
  have once := closed.once index inner
  unfold fieldInParent
  cases found :
      (calls.flatMap TFVisibleNode.children).find?
        (fun entry => entry.value == some index) with
  | none =>
      have absent := List.find?_eq_none.mp found entry handed
      simp [value] at absent
  | some other =>
      have otherMember := List.mem_of_find?_eq_some found
      have otherValue : other.value = some index := by
        simpa using List.find?_some found
      have same :=
        eq_of_count_value (Nat.le_of_eq once) otherMember handed
          otherValue value
      simp [same]

/-- Every node but the root is handed to a parent. -/
theorem exists_handed
    (closed : Closed calls noted)
    {index : Nat}
    (inner : index + 1 < calls.length) :
    ∃ entry ∈ calls.flatMap TFVisibleNode.children,
      entry.value = some index := by
  have once := closed.once index inner
  have present : some index ∈ handedValues calls := by
    rw [← List.count_pos_iff, once]
    exact Nat.one_pos
  obtain ⟨entry, member, value⟩ := List.mem_map.mp present
  exact ⟨entry, member, value⟩

/-- Punctuation of the full run is dropped. -/
theorem dropped_of_isPunctuation
    (closed : Closed calls noted)
    {index : Nat}
    {node : TFVisibleNode Nat}
    {note : Note}
    (call : calls[index]? = some node)
    (notedAt : noted[index]? = some note)
    (punctuation : isPunctuation calls index node = true) :
    note.kept = false := by
  simp only [isPunctuation, Bool.and_eq_true, bne_iff_ne, ne_eq,
    Bool.not_eq_true', beq_iff_eq, List.isEmpty_iff] at punctuation
  obtain ⟨⟨⟨notRoot, anonymous⟩, childless⟩, unfielded⟩ := punctuation
  have bound := (List.getElem?_eq_some_iff.mp call).1
  have inner : index + 1 < calls.length := by
    omega
  obtain ⟨entry, handed, value⟩ := closed.exists_handed inner
  rw [closed.fieldInParent_eq inner handed value] at unfielded
  obtain ⟨_, _, slot, _, index', node', note', value', call', noted',
      _, fieldId, kept, keeps, _⟩ := closed.slot_of_handed handed
  have sameIndex : index' = index := by
    rw [value] at value'
    exact (Option.some.inj value').symm
  subst sameIndex
  have sameNode : node' = node :=
    Option.some.inj (call'.symm.trans call)
  have sameNote : note' = note :=
    Option.some.inj (noted'.symm.trans notedAt)
  subst sameNode
  subst sameNote
  by_contra isKept
  have slotKept : slot.kept = true := by
    rw [← kept]
    simpa using isKept
  rcases keeps slotKept with named | below | fielded
  · rw [anonymous] at named
    cases named
  · exact below ((closed.children_eq_nil_iff call notedAt).mp childless)
  · exact fielded (fieldId ▸ unfielded)

/-- What is dropped is punctuation, where every note is faithful. -/
theorem isPunctuation_of_dropped
    (closed : Closed calls noted)
    (faithful : ∀ note ∈ noted, note.Faithful)
    {index : Nat}
    {node : TFVisibleNode Nat}
    {note : Note}
    (call : calls[index]? = some node)
    (notedAt : noted[index]? = some note)
    (dropped : note.kept = false) :
    isPunctuation calls index node = true := by
  have inner := closed.root index note notedAt dropped
  obtain ⟨entry, handed, value⟩ := closed.exists_handed inner
  obtain ⟨parent, parentMember, slot, inParent, index', node', note',
      value', call', noted', _, fieldId, kept, _, drops⟩ :=
    closed.slot_of_handed handed
  have sameIndex : index' = index := by
    rw [value] at value'
    exact (Option.some.inj value').symm
  subst sameIndex
  have sameNode : node' = node :=
    Option.some.inj (call'.symm.trans call)
  have sameNote : note' = note :=
    Option.some.inj (noted'.symm.trans notedAt)
  subst sameNode
  subst sameNote
  have slotDropped : slot.kept = false := by
    rw [← kept]
    exact dropped
  have unfielded : fieldInParent calls index' = 0 := by
    rw [closed.fieldInParent_eq inner handed value, fieldId]
    exact (faithful parent parentMember).1 slot inParent slotDropped
  have childless : node'.children = [] := by
    rw [closed.children_eq_nil_iff call notedAt]
    exact (faithful note' (List.mem_of_getElem? notedAt)).2 dropped
  have notRoot : index' + 1 ≠ calls.length := by
    omega
  simp [isPunctuation, notRoot, drops slotDropped, childless, unfielded]

/-- A note is faithful where all that is dropped is punctuation. -/
theorem faithful_of_dropped
    (closed : Closed calls noted)
    (drops :
      ∀ index node note,
        calls[index]? = some node →
        noted[index]? = some note →
        note.kept = false →
        isPunctuation calls index node = true) :
    ∀ note ∈ noted, note.Faithful := by
  intro note member
  constructor
  · intro slot inNote slotDropped
    obtain ⟨entry, handed, index, node', note', value, call, notedAt, _,
        fieldId, kept, _⟩ := closed.handed_of_slot member inNote
    have dropped : note'.kept = false := by
      rw [kept]
      exact slotDropped
    have inner := closed.root index note' notedAt dropped
    have punctuation := drops index node' note' call notedAt dropped
    simp only [isPunctuation, Bool.and_eq_true, beq_iff_eq] at punctuation
    rw [← fieldId, ← closed.fieldInParent_eq inner handed value]
    exact punctuation.2
  · intro dropped
    obtain ⟨index, bound, noteAt⟩ := List.mem_iff_getElem.mp member
    have callBound : index < calls.length := by
      rw [closed.length]
      exact bound
    have call : calls[index]? = some calls[index] :=
      List.getElem?_eq_some_iff.mpr ⟨callBound, rfl⟩
    have notedAt : noted[index]? = some note :=
      List.getElem?_eq_some_iff.mpr ⟨bound, noteAt⟩
    have punctuation := drops index _ note call notedAt dropped
    simp only [isPunctuation, Bool.and_eq_true, List.isEmpty_iff]
      at punctuation
    exact (closed.children_eq_nil_iff call notedAt).mp punctuation.1.2

/--
The other run makes exactly the calls that are not punctuation if and only if
every note is faithful.
-/
theorem keptHeads_eq_iff (closed : Closed calls noted) :
    keptHeads calls noted = withoutPunctuation calls ↔
      ∀ note ∈ noted, note.Faithful := by
  have kept :
      keptHeads calls noted =
        (keptBy calls (noted.map Note.kept)).map TFVisibleNode.head := by
    rw [keptBy_eq_filter, List.zip_map_right, List.filter_map,
      List.map_map, List.map_map]
    rfl
  have expected :
      withoutPunctuation calls =
        (keptBy calls
          ((calls.mapIdx (isPunctuation calls)).map (!·))).map
            TFVisibleNode.head := by
    rw [keptBy_eq_filter, List.zip_map_right, List.filter_map,
      List.map_map, List.map_map]
    rfl
  rw [kept, expected,
    keptBy_eq_iff TFVisibleNode.head calls (by simp [closed.length])
      (by simp)]
  · constructor
    · intro same
      refine closed.faithful_of_dropped ?_
      intro index node note call notedAt dropped
      have at_ := congrArg (fun flags : List Bool => flags[index]?) same
      simp only [List.getElem?_map, List.getElem?_mapIdx, call, notedAt,
        Option.map_some, dropped, Option.some.injEq] at at_
      simpa using at_.symm
    · intro faithful
      refine List.ext_getElem? ?_
      intro index
      simp only [List.getElem?_map, List.getElem?_mapIdx]
      cases call : calls[index]? with
      | none =>
          have beyond : noted.length ≤ index := by
            rw [← closed.length]
            exact List.getElem?_eq_none_iff.mp call
          simp [List.getElem?_eq_none_iff.mpr beyond]
      | some node =>
          have bound : index < noted.length := by
            rw [← closed.length]
            exact (List.getElem?_eq_some_iff.mp call).1
          have notedAt : noted[index]? = some noted[index] :=
            List.getElem?_eq_some_iff.mpr ⟨bound, rfl⟩
          rw [notedAt]
          simp only [Option.map_some, Option.some.injEq]
          cases keptAt : noted[index].kept with
          | false =>
              simp [closed.isPunctuation_of_dropped faithful call notedAt
                keptAt]
          | true =>
              by_contra isPunct
              have punctuation :
                  isPunctuation calls index node = true := by
                simpa using isPunct
              have dropped :=
                closed.dropped_of_isPunctuation call notedAt punctuation
              rw [keptAt] at dropped
              cases dropped
  · intro index keptAt
    simp only [List.getElem?_map, List.getElem?_mapIdx,
      Option.map_eq_some_iff] at keptAt ⊢
    obtain ⟨note, notedAt, isKept⟩ := keptAt
    have bound : index < calls.length := by
      rw [closed.length]
      exact (List.getElem?_eq_some_iff.mp notedAt).1
    have call : calls[index]? = some calls[index] :=
      List.getElem?_eq_some_iff.mpr ⟨bound, rfl⟩
    refine ⟨isPunctuation calls index calls[index], ⟨_, call, rfl⟩, ?_⟩
    by_contra isPunct
    have dropped :=
      closed.dropped_of_isPunctuation call notedAt (by simpa using isPunct)
    rw [isKept] at dropped
    cases dropped

end Reading

end Closed

/-- The books are closed by reporting the root. -/
theorem Ledger.close
    {calls : List (TFVisibleNode Nat)}
    {noted : List Note}
    {heads : List (TFVisibleNode Unit)}
    {root : TFVisibleNode Nat}
    {below : List Slot}
    (ledger : Ledger calls noted heads (valuesOf root.children))
    (run : RunFor calls noted root.children below) :
    Closed (calls ++ [root]) (noted ++ [⟨below, true⟩]) ∧
      heads ++ [root.head] =
        keptHeads (calls ++ [root]) (noted ++ [⟨below, true⟩]) := by
  constructor
  · constructor
    · simp [ledger.length]
    · refine List.rel_append
        (ledger.children.imp (fun _ _ inner => RunFor.append inner _ _)) ?_
      exact .cons (RunFor.append run _ _) .nil
    · intro index note notedAt dropped
      have bound := (List.getElem?_eq_some_iff.mp notedAt).1
      simp only [List.length_append, List.length_cons, List.length_nil]
        at bound ⊢
      have notRoot : index ≠ noted.length := by
        intro isRoot
        subst isRoot
        rw [List.getElem?_append_right (Nat.le_refl _)] at notedAt
        simp only [Nat.sub_self, List.getElem?_cons_zero,
          Option.some.injEq] at notedAt
        rw [← notedAt] at dropped
        cases dropped
      have lengths := ledger.length
      omega
    · intro index inner
      have once := ledger.once (some index)
      have numbered :
          ((List.range calls.length).map some).count (some index) = 1 := by
        have bound : index < calls.length := by
          simpa using inner
        refine List.count_eq_one_of_mem
          (List.nodup_range.map (fun _ _ => Option.some.inj)) ?_
        exact List.mem_map_of_mem (List.mem_range.mpr bound)
      have handed :
          handedValues (calls ++ [root]) =
            handedValues calls ++ valuesOf root.children := by
        simp [handedValues, valuesOf]
      rw [handed, List.count_append]
      omega
  · rw [ledger.heads, keptHeads_append ledger.length]
    simp [keptHeads]

end RawTree

/--
With `named_only` the filter reports the full run's nodes without exactly the
punctuation if and only if the tree has no visible node from which it drops
more: a child that takes a field from a hidden ancestor, or a node whose
visible children were all dropped.
-/
theorem namedOnly_removes_punctuation_iff {τ W : Type}
    (lang : TFLanguage)
    {parse : RawParse}
    (endsAtRoot : parse.EndsAtRoot)
    {tree : RawTree}
    (builds : parse.tree = some tree)
    (visible : (lang.symbolMetadata tree.at_.symbol).visible = true)
    {sink : TFVisibleSink τ W}
    (namedOnly : sink.namedOnly = true)
    (noFold : sink.onHidden = none)
    {onNode : TFVisibleNode W → τ → Option W × τ}
    (reports : sink.onNode = some onNode)
    (payload : τ)
    {heap : Heap}
    (reliable : heap.Reliable) :
    ∃ fullRoot full fullHeap namedRoot named namedHeap,
      parse.run (TFFilter.rawSink numberingSink lang) (.initial 0) heap =
          some (fullRoot, full, fullHeap) ∧
        parse.run (TFFilter.rawSink sink lang) (.initial payload) heap =
          some (namedRoot, named, namedHeap) ∧
        (named.consumer.calls.map TFVisibleNode.head =
            withoutPunctuation full.consumer.calls ↔
          tree.DropsOnlyPunctuation lang) := by
  simp only [RawParse.tree, RawParse.run] at builds
  cases ran :
      RawStack.run RawTree.sink parse.events ⟨[], (), .reliable⟩ with
  | none =>
      simp [ran] at builds
  | some stack =>
      simp only [ran] at builds
      cases closed :
          stack.close RawTree.sink parse.symbol parse.childCount
            parse.productionId parse.endToken with
      | none =>
          simp [closed] at builds
      | some answer =>
          rcases answer with ⟨answered, rest⟩
          simp only [closed, Option.bind_some] at builds
          subst builds
          have start :
              RawTree.InStep lang ([] : List (RawTree.BothRuns W))
                ⟨[], (), .reliable⟩ ⟨[], .initial 0, heap⟩
                ⟨[], .initial payload, heap⟩ :=
            .initial payload reliable reliable
          obtain ⟨cells, full, named, fullRan, namedRan, inStep⟩ :=
            start.run namedOnly noFold reports parse.events
              endsAtRoot.elsewhere ran
          let ended : RawTree.BothRuns W := .token parse.endToken true
          obtain ⟨span, fullRun, fullConsumer, fullRoot, full', fullHeap,
              namedRun, namedConsumer, namedRoot, named', namedHeap,
              symbolEq, treeEq, fullClosed, namedClosed, fullOffer,
              namedOffer, fullReported, namedReported⟩ :=
            inStep.paired.close numberingSink sink lang
              endsAtRoot.endSymbol closed
          obtain ⟨fullRunEq, fullConsumerEq⟩ :=
            fullOffer.of_onHidden_none rfl
          obtain ⟨namedRunEq, namedConsumerEq⟩ :=
            namedOffer.of_onHidden_none noFold
          obtain ⟨nodes, collected⟩ :=
            RawTree.collect_both namedOnly reports lang parse.productionId
              (cells ++ [ended]) 0 full.payload.consumer.calls _
              inStep.ledger.length
              (by
                intro cell member
                rcases List.mem_append.mp member with before | new
                · exact inStep.stands cell before
                · rw [List.mem_singleton.mp new]
                  exact ⟨.nil, rfl⟩)
              full.payload.consumer inStep.payload rfl
              named.payload.consumer
          have ledger :=
            RawTree.Ledger.collect [] inStep.ledger
              (by simp [ended, TFFilter.PairedRuns.token,
                RawTree.valuesOf])
              collected
          have rootVisible :
              (lang.symbolMetadata parse.symbol).visible = true := by
            rw [Option.some.inj treeEq] at visible
            rw [← symbolEq]
            exact visible
          rw [if_pos rootVisible] at fullReported namedReported
          let root : TFVisibleNode Nat :=
            TFFilter.rootNode lang span parse.productionId fullRun
          have fullCalls :
              full'.consumer.calls =
                full.payload.consumer.calls ++ nodes ++ [root] := by
            rw [fullReported, RawTree.calls_callNode rfl, fullConsumerEq,
              collected.fullCalls]
          have namedHeads :
              named'.consumer.calls.map TFVisibleNode.head =
                namedConsumer.calls.map TFVisibleNode.head ++
                  [root.head] := by
            rw [namedReported, RawTree.calls_callNode reports,
              List.map_append]
            rfl
          have fullStands := collected.fullRun
          rw [← fullRunEq] at fullStands ledger
          rw [← namedConsumerEq] at ledger
          obtain ⟨books, heads⟩ :=
            RawTree.Ledger.close
              (show RawTree.Ledger _ _ _
                (RawTree.valuesOf root.children) from ledger)
              (show RawTree.RunFor _ _ root.children _ from fullStands)
          have notedTree :
              RawTree.notes lang
                  (.rule span parse.productionId
                    ((cells ++ [ended]).map TFFilter.PairedRuns.tree)) =
                RawTree.notesAll lang
                    (cells.map TFFilter.PairedRuns.tree) ++
                  RawTree.shownNotes lang parse.productionId 0
                    ((cells ++ [ended]).map
                      TFFilter.PairedRuns.tree) := by
            simp [RawTree.notes, RawTree.notesAll_append,
              RawTree.notesAll, ended, TFFilter.PairedRuns.token]
          refine ⟨fullRoot, full', fullHeap, namedRoot, named', namedHeap,
            ?_, ?_, ?_⟩
          · simp only [RawParse.run, fullRan, fullClosed]
          · simp only [RawParse.run, namedRan, namedClosed]
          · rw [namedHeads, heads, fullCalls, books.keptHeads_eq_iff,
              Option.some.inj treeEq, RawTree.DropsOnlyPunctuation,
              notedTree]
            rfl

/-- A consumer that wants no punctuation and keeps nothing. -/
def namedOnlySink : TFVisibleSink Unit Unit where
  onNode := some (fun _ _ => (some (), ()))
  onHidden := none
  onDiscard := none
  namedOnly := true

/--
Where the hidden rule over an anonymous token has a field, `named_only` drops
the token although it fills that field in the full run.
-/
theorem namedOnly_drops_fielded_token :
    (fieldedParse.run (TFFilter.rawSink namedOnlySink fieldedGrammar)
        (.initial ()) .reliable).map
        (fun answer =>
          answer.2.1.consumer.calls.map TFVisibleNode.head) ≠
      (fieldedParse.run (TFFilter.rawSink numberingSink fieldedGrammar)
        (.initial 0) .reliable).map
        (fun answer => withoutPunctuation answer.2.1.consumer.calls) := by
  decide +kernel

/-- The two runs over the letter `a`, compared. -/
theorem namedOnly_removes_punctuation_iff_fieldedTree :
    ∃ fullRoot full fullHeap namedRoot named namedHeap,
      fieldedParse.run (TFFilter.rawSink numberingSink fieldedGrammar)
            (.initial 0) .reliable =
          some (fullRoot, full, fullHeap) ∧
        fieldedParse.run (TFFilter.rawSink namedOnlySink fieldedGrammar)
            (.initial ()) .reliable =
          some (namedRoot, named, namedHeap) ∧
        (named.consumer.calls.map TFVisibleNode.head =
            withoutPunctuation full.consumer.calls ↔
          fieldedTree.DropsOnlyPunctuation fieldedGrammar) :=
  namedOnly_removes_punctuation_iff fieldedGrammar
    fieldedParse_endsAtRoot fieldedParse_tree (by decide +kernel)
    rfl rfl rfl () (fun _ => rfl)

end TreeFeller
