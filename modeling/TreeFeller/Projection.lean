import TreeFeller.FieldRows
import TreeFeller.FilterRuns
import TreeFeller.SmallTables

namespace TreeFeller

/-!
# The visible projection of a raw tree

The projection says what the visible layer is for: which nodes of a raw tree
show, with which symbols and fields, and whose children they are.  It is
defined on trees, from the grammar's own alias sequences and field maps.  A
consumer that keeps what the filter reports is handed exactly this projection.
-/

/-- A visible node with the visible nodes below it. -/
inductive VisibleTree where
  | node (reported : TFVisibleNode VisibleTree)

namespace TFLanguage

/-- The alias a production gives the child at a structural index. -/
def aliasAt
    (self : TFLanguage)
    (productionId index : Nat) :
    TSSymbol :=
  if productionId = 0 ∨ self.ts.maxAliasSequenceLength ≤ index then
    0
  else
    self.ts.aliasSequences
      (productionId * self.ts.maxAliasSequenceLength + index)

/-- The field a production gives the child at a structural index. -/
def fieldOfChild
    (self : TFLanguage)
    (productionId index : Nat) :
    TSFieldId :=
  directField (fieldMap self.ts productionId) index

end TFLanguage

namespace RawTree

/-- The alias a tree has as a child; an extra has none. -/
def aliasIn
    (lang : TFLanguage)
    (productionId index : Nat)
    (child : RawTree) :
    TSSymbol :=
  if child.extra then 0 else lang.aliasAt productionId index

/-- The field a tree fills as a child; an extra fills none. -/
def fieldIn
    (lang : TFLanguage)
    (productionId index : Nat)
    (child : RawTree) :
    TSFieldId :=
  if child.extra then 0 else lang.fieldOfChild productionId index

/-- The symbol a tree shows under as a child. -/
def shownSymbol
    (lang : TFLanguage)
    (productionId index : Nat)
    (child : RawTree) :
    TSSymbol :=
  if child.aliasIn lang productionId index ≠ 0 then
    child.aliasIn lang productionId index
  else
    child.at_.symbol

/-- Whether a tree shows as a child. -/
def shownIn
    (lang : TFLanguage)
    (productionId index : Nat)
    (child : RawTree) :
    Bool :=
  child.aliasIn lang productionId index != 0 ||
    (lang.symbolMetadata child.at_.symbol).visible

/-- The structural index after a child. -/
def indexAfter (index : Nat) (child : RawTree) : Nat :=
  if child.extra then index else index + 1

/-- The node a tree is reported as, over the entries it owns. -/
def reportedIn {W : Type}
    (lang : TFLanguage)
    (productionId index : Nat)
    (child : RawTree)
    (children : List (TFVisibleChild W)) :
    TFVisibleNode W where
  symbol := lang.publicSymbol (child.shownSymbol lang productionId index)
  productionId := child.productionId
  named :=
    (lang.symbolMetadata (child.shownSymbol lang productionId index)).named
  extra := child.extra
  startByte := child.at_.startByte
  endByte := child.at_.endByte
  startPoint := child.at_.startPoint
  endPoint := child.at_.endPoint
  children := children

/-- The entry a visible child becomes. -/
def entryIn
    (lang : TFLanguage)
    (productionId index : Nat)
    (child : RawTree)
    (children : List (TFVisibleChild VisibleTree)) :
    TFVisibleChild VisibleTree where
  symbol := lang.publicSymbol (child.shownSymbol lang productionId index)
  fieldId := child.fieldIn lang productionId index
  extra := child.extra
  value := some (.node (child.reportedIn lang productionId index children))

/-- An entry below a hidden tree takes its field, if it has none itself. -/
def passField {W : Type}
    (field : TSFieldId)
    (entry : TFVisibleChild W) :
    TFVisibleChild W :=
  if entry.extra ∨ entry.fieldId ≠ 0 then
    entry
  else
    { entry with fieldId := field }

mutual

/-- The visible children of a tree. -/
def project (lang : TFLanguage) : RawTree → List (TFVisibleChild VisibleTree)
  | .token _ _ => []
  | .rule _ productionId children =>
      projectFrom lang productionId 0 children

/--
The visible children a list of children contributes: a visible child itself,
another one what it projects to.
-/
def projectFrom (lang : TFLanguage) (productionId : Nat) :
    Nat → List RawTree → List (TFVisibleChild VisibleTree)
  | _, [] => []
  | index, child :: rest =>
      (if child.shownIn lang productionId index then
        [child.entryIn lang productionId index (project lang child)]
      else
        (project lang child).map
          (passField (child.fieldIn lang productionId index))) ++
        projectFrom lang productionId (child.indexAfter index) rest

end

/-- The nodes that a list of children shows itself. -/
def shownFrom (lang : TFLanguage) (productionId : Nat) :
    Nat → List RawTree → List (TFVisibleNode VisibleTree)
  | _, [] => []
  | index, child :: rest =>
      (if child.shownIn lang productionId index then
        [child.reportedIn lang productionId index (project lang child)]
      else
        []) ++
        shownFrom lang productionId (child.indexAfter index) rest

mutual

/-- Every visible node below a tree, those below its children first. -/
def nodesBelow (lang : TFLanguage) :
    RawTree → List (TFVisibleNode VisibleTree)
  | .token _ _ => []
  | .rule _ productionId children =>
      nodesBelowAll lang children ++
        shownFrom lang productionId 0 children

/-- Every visible node below each of a list of trees. -/
def nodesBelowAll (lang : TFLanguage) :
    List RawTree → List (TFVisibleNode VisibleTree)
  | [] => []
  | child :: rest => nodesBelow lang child ++ nodesBelowAll lang rest

end

/-- The root, reported over its visible children. -/
def rootReported (lang : TFLanguage) (self : RawTree) :
    TFVisibleNode VisibleTree :=
  TFFilter.rootNode lang self.at_ self.productionId (project lang self)

/-- The visible projection of a whole tree. -/
def projection (lang : TFLanguage) (self : RawTree) : VisibleTree :=
  .node (self.rootReported lang)

mutual

/--
The tables have a row for every production in a tree and, where it is not 0,
an alias column for every structural child.
-/
def FitsTables (lang : TFLanguage) : RawTree → Prop
  | .token _ _ => True
  | .rule _ productionId children =>
      productionId < lang.ts.productionIdCount ∧
        (productionId ≠ 0 →
          children.countP (fun child => !child.extra) ≤
            lang.ts.maxAliasSequenceLength) ∧
        FitsTablesAll lang children

/-- Every tree of a list fits the tables. -/
def FitsTablesAll (lang : TFLanguage) : List RawTree → Prop
  | [] => True
  | child :: rest => FitsTables lang child ∧ FitsTablesAll lang rest

end

end RawTree

/-- The consumer that keeps what it is handed, and folds and drops nothing. -/
def VisibleTree.sink : TFVisibleSink Unit VisibleTree where
  onNode := some (fun node _ => (some (.node node), ()))
  onHidden := none
  onDiscard := none
  namedOnly := false

/-! ## The filter builds the projection -/

namespace RawTree

open TFFilter

/-- The events of a consumer that keeps what it is handed. -/
def keptEvents (nodes : List (TFVisibleNode VisibleTree)) :
    List (VisibleEvent VisibleTree) :=
  nodes.map (fun node => .node node (some (.node node)))

/-- A tree and the run its cell owns in a filter that only projects. -/
def owned (lang : TFLanguage) (tree : RawTree) : OwnedRun VisibleTree :=
  (tree, project lang tree)

/-- The trees that own a list of runs. -/
theorem map_fst_owned (lang : TFLanguage) (trees : List RawTree) :
    (trees.map (owned lang)).map Prod.fst = trees := by
  simp [owned, Function.comp_def]

/-- Passing a field on is what the filter does with an inlined run. -/
theorem inheritRun_eq {W : Type}
    (field : TSFieldId)
    (entries : List (TFVisibleChild W)) :
    inheritRun field entries = entries.map (passField field) := by
  have entryEq :
      ∀ entry : TFVisibleChild W,
        inheritField field entry = passField field entry := by
    intro entry
    cases isExtra : entry.extra <;>
      by_cases zero : entry.fieldId = 0 <;>
        simp [inheritField, passField, isExtra, zero]
  unfold inheritRun
  split
  · exact List.map_congr_left (fun entry _ => entryEq entry)
  · rename_i zero
    have none : field = 0 := by
      simpa using zero
    subst none
    have same :
        ∀ entry : TFVisibleChild W, passField 0 entry = entry := by
      intro entry
      unfold passField
      split
      · rfl
      · rename_i unfielded
        have isZero : entry.fieldId = 0 := by
          by_contra fielded
          exact unfielded (Or.inr fielded)
        rw [← isZero]
    exact (List.map_id'' same entries).symm

/-- A production's child, as the filter sees its alias. -/
theorem childAlias_eq
    {lang : TFLanguage}
    {productionId structural : Nat}
    (child : OwnedRun VisibleTree)
    (column :
      productionId ≠ 0 → child.1.extra = false →
        structural < lang.ts.maxAliasSequenceLength) :
    childAlias lang productionId structural child.node =
      child.1.aliasIn lang productionId structural := by
  simp only [childAlias, TFLanguage.aliasSequence, aliasIn,
    TFLanguage.aliasAt, OwnedRun.node_extra]
  by_cases zero : productionId = 0
  · simp [zero]
  · by_cases isExtra : child.1.extra = true
    · simp [zero, isExtra]
    · have inColumns :=
        Nat.not_le.mpr (column zero (by simpa using isExtra))
      simp [zero, isExtra, inColumns]

/-- A production's child, as the filter sees its field. -/
theorem childField_eq
    {lang : TFLanguage}
    (loaded : lang.Loaded)
    {productionId : Nat}
    (inRange : productionId < lang.ts.productionIdCount)
    (structural : Nat)
    (child : OwnedRun VisibleTree) :
    childField lang productionId structural child.node =
      child.1.fieldIn lang productionId structural := by
  simp only [childField, fieldIn, OwnedRun.node_extra,
    TFLanguage.fieldOfChild, loaded.fieldRowAt_eq inRange]

/-- What the filter collects over projected runs is the projection. -/
theorem collectOwned_project
    {lang : TFLanguage}
    (loaded : lang.Loaded)
    {productionId : Nat}
    (inRange : productionId < lang.ts.productionIdCount)
    (children : List RawTree)
    (structural : Nat)
    (columns :
      productionId ≠ 0 →
        structural + children.countP (fun child => !child.extra) ≤
          lang.ts.maxAliasSequenceLength)
    (before : List (VisibleEvent VisibleTree)) :
    collectOwned VisibleTree.sink lang productionId
        (children.map (owned lang)) structural ⟨(), before⟩ =
      (projectFrom lang productionId structural children,
        ⟨(), before ++
          keptEvents
            (shownFrom lang productionId structural children)⟩) := by
  induction children generalizing structural before with
  | nil =>
      simp [collectOwned, projectFrom, shownFrom, keptEvents]
  | cons child rest inductionHypothesis =>
      have column :
          productionId ≠ 0 → child.extra = false →
            structural < lang.ts.maxAliasSequenceLength := by
        intro nonzero structuralChild
        have within := columns nonzero
        simp only [List.countP_cons, structuralChild] at within
        simp only [Bool.not_false, if_true] at within
        omega
      have restColumns :
          productionId ≠ 0 →
            child.indexAfter structural +
                rest.countP (fun child => !child.extra) ≤
              lang.ts.maxAliasSequenceLength := by
        intro nonzero
        have within := columns nonzero
        cases isExtra : child.extra <;>
          simp [indexAfter, isExtra] at within ⊢ <;>
          omega
      have aliasEq := childAlias_eq (owned lang child) column
      have fieldEq :=
        childField_eq loaded inRange structural (owned lang child)
      have nextEq :
          nextStructural structural (owned lang child).node =
            child.indexAfter structural :=
        rfl
      have visibleEq :
          childVisible lang productionId structural
              (owned lang child).node =
            child.shownIn lang productionId structural := by
        simp only [childVisible, aliasEq, shownIn]
        rfl
      have later :=
        inductionHypothesis (child.indexAfter structural) restColumns
      simp only [List.map_cons, collectOwned, visibleEq, nextEq, fieldEq]
      cases shown : child.shownIn lang productionId structural with
      | false =>
          simp only [Bool.false_eq_true, if_false, later, projectFrom,
            shownFrom, shown, inheritRun_eq, List.nil_append]
          rfl
      | true =>
          have keeps :
              dropsChild VisibleTree.sink lang productionId structural
                (owned lang child).node = false := by
            simp [dropsChild, VisibleTree.sink]
          have nodeEq :
              childNode lang productionId structural
                  (owned lang child).node (project lang child) =
                child.reportedIn lang productionId structural
                  (project lang child) := by
            simp only [childNode, childNamed, aliasEq, reportedIn,
              shownSymbol]
            by_cases aliased :
                child.aliasIn lang productionId structural = 0
            · simp [owned, aliased]
            · simp [owned, aliased]
          have reportEq :
              report VisibleTree.sink lang productionId structural
                  (owned lang child).node (owned lang child).2
                  ⟨(), before⟩ =
                (child.entryIn lang productionId structural
                    (project lang child),
                  ⟨(), before ++
                    keptEvents
                      [child.reportedIn lang productionId structural
                        (project lang child)]⟩) := by
            have ownEq : (owned lang child).2 = project lang child := rfl
            simp only [report, ownEq, nodeEq, fieldEq,
              TFConsumer.callNode, VisibleTree.sink]
            rfl
          simp only [if_true, keeps, Bool.false_eq_true, if_false,
            reportEq, later, projectFrom, shownFrom, shown]
          simp [keptEvents]

/-- What a list of trees shows below itself. -/
theorem nodesBelowAll_append
    (lang : TFLanguage)
    (first second : List RawTree) :
    nodesBelowAll lang (first ++ second) =
      nodesBelowAll lang first ++ nodesBelowAll lang second := by
  induction first with
  | nil =>
      rfl
  | cons tree rest inductionHypothesis =>
      simp only [List.cons_append, nodesBelowAll, inductionHypothesis,
        List.append_assoc]

/-- Fitting the tables, over two lists of trees. -/
theorem fitsTablesAll_append
    {lang : TFLanguage}
    {first second : List RawTree} :
    FitsTablesAll lang (first ++ second) ↔
      FitsTablesAll lang first ∧ FitsTablesAll lang second := by
  induction first with
  | nil =>
      simp [FitsTablesAll]
  | cons tree rest inductionHypothesis =>
      simp only [List.cons_append, FitsTablesAll, inductionHypothesis,
        and_assoc]

/-- Extras show nothing below themselves. -/
theorem nodesBelowAll_of_extra
    {lang : TFLanguage}
    {trees : List RawTree}
    (extras : ∀ tree ∈ trees, tree.extra = true) :
    nodesBelowAll lang trees = [] := by
  induction trees with
  | nil =>
      rfl
  | cons tree rest inductionHypothesis =>
      have restEmpty :=
        inductionHypothesis (fun later member => extras later (by simp [member]))
      cases tree with
      | token shifted extra =>
          simp [nodesBelowAll, nodesBelow, restEmpty]
      | rule at_ productionId children =>
          have isExtra := extras (.rule at_ productionId children) (by simp)
          cases isExtra

/-- What fits the tables at the end of a run fitted them at its start. -/
theorem Stands.fits_of_run
    (lang : TFLanguage)
    (events : List RawEvent)
    {trees : List RawTree}
    {stack final : RawStack Unit RawTree}
    (stands : Stands trees stack)
    (ran : RawStack.run sink events stack = some final) :
    ∃ grown,
      Stands grown final ∧
        (FitsTablesAll lang grown → FitsTablesAll lang trees) := by
  induction events generalizing trees stack with
  | nil =>
      cases ran
      exact ⟨trees, stands, id⟩
  | cons event rest inductionHypothesis =>
      simp only [RawStack.run] at ran
      split at ran
      · cases ran
      rename_i next stepped
      cases event with
      | shift shifted extra state =>
          obtain ⟨grown, standsGrown, fits⟩ :=
            inductionHypothesis (stands.shift stepped) ran
          exact ⟨grown, standsGrown,
            fun whole => (fitsTablesAll_append.mp (fits whole)).1⟩
      | reduce symbol childCount productionId state =>
          obtain ⟨cut, cuts, reduced⟩ := stands.reduce stepped
          obtain ⟨below, children, trailing, parts, belowLength,
              childrenLength⟩ := stands.split cuts
          obtain ⟨grown, standsGrown, fits⟩ :=
            inductionHypothesis
              (reduced below children trailing parts belowLength
                childrenLength)
              ran
          refine ⟨grown, standsGrown, fun whole => ?_⟩
          have after := fits whole
          simp only [fitsTablesAll_append, FitsTablesAll, FitsTables]
            at after
          rw [parts]
          simp only [fitsTablesAll_append]
          exact ⟨⟨after.1.1, after.1.2.1.2.2⟩, after.2⟩

/--
Over any run, the filter's arena holds the projections of the trees on the
stack, and its consumer has been handed the nodes below them.
-/
theorem project_run
    {lang : TFLanguage}
    (loaded : lang.Loaded)
    (events : List RawEvent)
    (inner : ∀ event ∈ events, event.symbol ≠ tsBuiltinSymEnd)
    {trees : List RawTree}
    {stack final : RawStack Unit RawTree}
    {filter :
      RawStack (TFFilter Unit VisibleTree) (TFFilterValue VisibleTree)}
    (lockstep : Lockstep (trees.map (owned lang)) stack filter)
    (handed :
      filter.payload.consumer =
        ⟨(), keptEvents (nodesBelowAll lang trees)⟩)
    (ran : RawStack.run sink events stack = some final)
    (fits :
      ∀ grown, Stands grown final → FitsTablesAll lang grown) :
    ∃ grown filter',
      RawStack.run (rawSink VisibleTree.sink lang) events filter =
          some filter' ∧
        Lockstep (grown.map (owned lang)) final filter' ∧
        filter'.payload.consumer =
          ⟨(), keptEvents (nodesBelowAll lang grown)⟩ := by
  induction events generalizing trees stack filter with
  | nil =>
      cases ran
      exact ⟨trees, filter, rfl, lockstep, handed⟩
  | cons event rest inductionHypothesis =>
      have restInner :
          ∀ later ∈ rest, later.symbol ≠ tsBuiltinSymEnd :=
        fun later member => inner later (by simp [member])
      simp only [RawStack.run] at ran
      split at ran
      · cases ran
      rename_i next stepped
      cases event with
      | shift shifted extra state =>
          have notEnd : shifted.symbol ≠ tsBuiltinSymEnd :=
            inner (.shift shifted extra state) (by simp)
          obtain ⟨filter', filterStepped, sameConsumer, lockstep'⟩ :=
            lockstep.shift VisibleTree.sink lang notEnd stepped
          have ownedTrees :
              trees.map (owned lang) ++ [(token shifted extra, [])] =
                (trees ++ [token shifted extra]).map (owned lang) := by
            simp [owned, project]
          rw [ownedTrees] at lockstep'
          obtain ⟨grown, final', ranFilter, lockstepFinal, handedFinal⟩ :=
            inductionHypothesis restInner lockstep'
              (by
                rw [sameConsumer, handed, nodesBelowAll_append]
                simp [nodesBelowAll, nodesBelow])
              ran
          refine ⟨grown, final', ?_, lockstepFinal, handedFinal⟩
          simp only [RawStack.run, filterStepped, ranFilter]
      | reduce symbol childCount productionId state =>
          have notEnd : symbol ≠ tsBuiltinSymEnd :=
            inner (.reduce symbol childCount productionId state) (by simp)
          obtain ⟨cut, cuts, reduces⟩ :=
            lockstep.reduce VisibleTree.sink lang notEnd stepped
          have stands : Stands trees stack := by
            have stands := lockstep.trees
            rwa [map_fst_owned] at stands
          obtain ⟨below, children, trailing, parts, belowLength,
              childrenLength⟩ := stands.split cuts
          obtain ⟨run, filter', filterStepped, offer, lockstep'⟩ :=
            reduces (below.map (owned lang)) (children.map (owned lang))
              (trailing.map (owned lang)) (by simp [parts])
              (by simpa using belowLength) (by simpa using childrenLength)
          obtain ⟨cut', cuts', standsAfter⟩ := stands.reduce stepped
          obtain ⟨grown, standsGrown, backward⟩ :=
            (standsAfter below children trailing parts
              (by
                rw [cuts] at cuts'
                cases cuts'
                exact belowLength)
              (by
                rw [cuts] at cuts'
                cases cuts'
                exact childrenLength)).fits_of_run lang rest ran
          have fitsNow := backward (fits grown standsGrown)
          simp only [fitsTablesAll_append, FitsTablesAll, FitsTables]
            at fitsNow
          obtain ⟨inRange, columns, _⟩ := fitsNow.1.2.1
          rw [handed, collectOwned_project loaded inRange children 0
            (by simpa using columns)] at offer
          obtain ⟨runEq, consumerEq⟩ := offer.of_onHidden_none rfl
          subst runEq
          have trailingEmpty : nodesBelowAll lang trailing = [] := by
            exact nodesBelowAll_of_extra
              (stands.extra_of_trailing cuts parts belowLength
                childrenLength)
          rw [map_fst_owned] at lockstep'
          have lockstepAfter :
              Lockstep
                ((below ++
                  [rule
                    (TFParser.reductionOf stack.cells cut.children symbol
                      childCount productionId).span
                    productionId children] ++
                  trailing).map (owned lang))
                next filter' := by
            simpa [owned, project] using lockstep'
          obtain ⟨grown', final', ranFilter, lockstepFinal, handedFinal⟩ :=
            inductionHypothesis restInner lockstepAfter
              (by
                rw [consumerEq, parts]
                simp [nodesBelowAll_append, nodesBelowAll, nodesBelow,
                  trailingEmpty, keptEvents])
              ran
          refine ⟨grown', final', ?_, lockstepFinal, handedFinal⟩
          simp only [RawStack.run, filterStepped, ranFilter]

end RawTree

/-- The nodes a parse reports, those below the root's children first. -/
def RawTree.reported (lang : TFLanguage) (self : RawTree) :
    List (TFVisibleNode VisibleTree) :=
  self.nodesBelow lang ++ [self.rootReported lang]

/--
Handed the raw events of a parse that builds a tree with a visible root, the
filter makes exactly the calls that build the tree's visible projection, and
the value it returns for the root is that projection.
-/
theorem filter_builds_projection
    {lang : TFLanguage}
    (loaded : lang.Loaded)
    {parse : RawParse}
    (endsAtRoot : parse.EndsAtRoot)
    {tree : RawTree}
    (builds : parse.tree = some tree)
    (visible : (lang.symbolMetadata tree.at_.symbol).visible = true)
    (fits : tree.FitsTables lang)
    {heap : Heap}
    (reliable : heap.Reliable) :
    ∃ filter final,
      parse.run (TFFilter.rawSink VisibleTree.sink lang)
          (.initial ()) heap =
        some (some (.root (tree.projection lang)), filter, final) ∧
        filter.failed = false ∧
        filter.consumer.events =
          (tree.reported lang).map
            (fun node => .node node (some (.node node))) := by
  simp only [RawParse.tree, RawParse.run] at builds
  cases ran :
      RawStack.run RawTree.sink parse.events ⟨[], (), .reliable⟩ with
  | none =>
      simp [ran] at builds
  | some stack =>
      simp only [ran] at builds
      cases closed :
          stack.close RawTree.sink parse.symbol parse.childCount
            parse.productionId parse.endToken with
      | none =>
          simp [closed] at builds
      | some answer =>
          rcases answer with ⟨answered, rest⟩
          simp only [closed, Option.bind_some] at builds
          subst builds
          have stands : RawTree.Stands [] ⟨[], (), .reliable⟩ := rfl
          obtain ⟨grown, standsGrown, _⟩ :=
            stands.fits_of_run lang parse.events ran
          obtain ⟨cut, cuts, treeEq⟩ := standsGrown.close closed
          have fitsGrown : RawTree.FitsTablesAll lang grown := by
            rw [Option.some.inj treeEq, RawTree.FitsTables] at fits
            exact (RawTree.fitsTablesAll_append.mp fits.2.2).1
          have lockstepInitial :
              TFFilter.Lockstep
                (([] : List RawTree).map (RawTree.owned lang))
                ⟨[], (), .reliable⟩ ⟨[], .initial (), heap⟩ :=
            TFFilter.Lockstep.initial () reliable
          obtain ⟨grown', filter, ranFilter, lockstep, handed⟩ :=
            RawTree.project_run loaded parse.events
              endsAtRoot.elsewhere lockstepInitial rfl ran
              (by
                intro other standsOther
                rw [RawTree.Stands.unique standsOther standsGrown]
                exact fitsGrown)
          have same : grown' = grown := by
            have stands' := lockstep.trees
            rw [RawTree.map_fst_owned] at stands'
            exact RawTree.Stands.unique stands' standsGrown
          subst same
          obtain ⟨token, run, consumer, value, filter', final, symbolEq,
              treeEq', closedFilter, offer, arena, healthy, reported⟩ :=
            lockstep.close VisibleTree.sink lang endsAtRoot.endSymbol
              closed
          rw [RawTree.map_fst_owned] at treeEq'
          rw [Option.some.inj treeEq'] at fits visible ⊢
          rw [RawTree.FitsTables] at fits
          have ended :
              (grown'.map (RawTree.owned lang)) ++
                  [(RawTree.token parse.endToken true, [])] =
                (grown' ++ [RawTree.token parse.endToken true]).map
                  (RawTree.owned lang) := by
            simp [RawTree.owned, RawTree.project]
          rw [handed, ended,
            RawTree.collectOwned_project loaded fits.1 _ 0
              (by simpa using fits.2.1)] at offer
          obtain ⟨runEq, consumerEq⟩ := offer.of_onHidden_none rfl
          have rootVisible :
              (lang.symbolMetadata parse.symbol).visible = true := by
            rw [← symbolEq]
            exact visible
          rw [if_pos rootVisible, runEq, consumerEq] at reported
          simp only [TFConsumer.callNode, VisibleTree.sink,
            Prod.mk.injEq] at reported
          refine ⟨filter', final, ?_, healthy, ?_⟩
          · simp only [RawParse.run, ranFilter]
            rw [closedFilter, reported.1]
            rfl
          · rw [reported.2]
            simp [RawTree.reported, RawTree.nodesBelow,
              RawTree.nodesBelowAll_append, RawTree.nodesBelowAll,
              RawTree.keptEvents]
            rfl

/-- The raw events of the letter `a` in the grammar with a field. -/
def fieldedParse : RawParse where
  events := [
    .shift ⟨1, 0, 1, ⟨0, 0⟩, ⟨0, 1⟩⟩ false 2,
    .reduce 2 1 0 3
  ]
  symbol := 3
  childCount := 1
  productionId := 1
  endToken := ⟨0, 1, 1, ⟨0, 1⟩, ⟨0, 1⟩⟩

/-- The tree the letter `a` parses to. -/
def fieldedTree : RawTree :=
  .rule ⟨3, 0, 1, ⟨0, 0⟩, ⟨0, 1⟩⟩ 1
    [.rule ⟨2, 0, 1, ⟨0, 0⟩, ⟨0, 1⟩⟩ 0
        [.token ⟨1, 0, 1, ⟨0, 0⟩, ⟨0, 1⟩⟩ false],
      .token ⟨0, 1, 1, ⟨0, 1⟩, ⟨0, 1⟩⟩ true]

/-- The events build the tree. -/
theorem fieldedParse_tree : fieldedParse.tree = some fieldedTree :=
  rfl

/-- The end token stands at the root only. -/
theorem fieldedParse_endsAtRoot : fieldedParse.EndsAtRoot where
  endSymbol := rfl
  elsewhere := by decide

/-- The filter builds the projection of the letter `a`. -/
theorem filter_builds_fieldedTree :
    ∃ filter final,
      fieldedParse.run
          (TFFilter.rawSink VisibleTree.sink fieldedGrammar)
          (.initial ()) .reliable =
        some (some (.root (fieldedTree.projection fieldedGrammar)),
          filter, final) ∧
        filter.failed = false ∧
        filter.consumer.events =
          (fieldedTree.reported fieldedGrammar).map
            (fun node => .node node (some (.node node))) :=
  filter_builds_projection fieldedGrammar_loaded fieldedParse_endsAtRoot
    fieldedParse_tree (by decide +kernel)
    (by
      simp only [fieldedTree, RawTree.FitsTables, RawTree.FitsTablesAll]
      decide +kernel)
    (fun _ => rfl)

end TreeFeller
