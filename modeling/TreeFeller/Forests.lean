import TreeFeller.Consumers
import TreeFeller.ExtraPlaces
import TreeFeller.StackGraphs

namespace TreeFeller

open StatefulProgram

/-!
# The calls of a run are a forest

Whatever the driver does, through splits and replays as well, the cells of the
real stack hold trees whose leaves are the tokens handed over so far, and whose
inner nodes are the reductions handed over so far, both in the order of the
calls.  Nothing is handed over for an alternative that is not on the stack.
-/

/-- The tokens a log hands over. -/
def shifts {V : Type} (events : List (Event V)) : List (TFToken × Bool) :=
  events.filterMap (fun event =>
    match event with
    | .shift token extra _ => some (token, extra)
    | _ => none)

/-- The reductions a log hands over, without the values of children. -/
def reduces {V : Type} (events : List (Event V)) :
    List (TFReduction Unit) :=
  (reductions events).map TFReduction.forget

section Logs

variable {V : Type}

/-- Tokens are handed over in the order of the log. -/
@[simp] theorem shifts_append (first second : List (Event V)) :
    shifts (first ++ second) = shifts first ++ shifts second :=
  List.filterMap_append

/-- So are reductions. -/
@[simp] theorem reduces_append (first second : List (Event V)) :
    reduces (first ++ second) = reduces first ++ reduces second := by
  simp [reduces, reductions]

/-- The calls alone tell which tokens are handed over. -/
theorem shifts_callsOf (events : List (Event V)) :
    shifts (callsOf events) = shifts events := by
  unfold shifts callsOf
  rw [List.filterMap_filterMap]
  congr 1
  funext event
  cases event with
  | shift token extra value =>
      rfl
  | reduce reduction value =>
      rfl
  | discard value =>
      rfl
  | growthFailed answered =>
      rfl

/-- And which reductions. -/
theorem reduces_callsOf (events : List (Event V)) :
    reduces (callsOf events) = reduces events := by
  have forgotten (reduction : TFReduction V) :
      reduction.forget.forget = reduction.forget := by
    simp [TFReduction.forget, TFNode.forget, Function.comp_def]
  unfold reduces reductions callsOf
  rw [List.filterMap_filterMap, List.map_filterMap, List.map_filterMap]
  congr 1
  funext event
  cases event with
  | shift token extra value =>
      rfl
  | reduce reduction value =>
      exact congrArg some (forgotten reduction)
  | discard value =>
      rfl
  | growthFailed answered =>
      rfl

end Logs

namespace RawTree

/-- The reduction a tree was handed over as. -/
def reduction (self : RawTree) : TFReduction Unit where
  symbol := self.at_.symbol
  productionId := self.productionId
  childCount := self.children.countP (fun child => !child.extra)
  children := self.children.map (fun child => child.node none)
  startByte := self.at_.startByte
  endByte := self.at_.endByte
  startPoint := self.at_.startPoint
  endPoint := self.at_.endPoint

/-- The calls of a log are the nodes of a forest, leaves and rules in order. -/
structure Reports {V : Type}
    (forest : List RawTree)
    (events : List (Event V)) : Prop where
  leaves : shifts events = leavesAll forest
  rules : reduces events = (rulesAll forest).map reduction

/-- A tree that is an extra is a leaf. -/
theorem rules_of_extra
    {tree : RawTree}
    (isExtra : tree.extra = true) :
    tree.rules = [] := by
  cases tree with
  | token token extra =>
      rfl
  | rule token productionId children =>
      cases isExtra

/-- Extras hold no rules. -/
theorem rulesAll_of_extra
    {trees : List RawTree}
    (extras : ∀ tree ∈ trees, tree.extra = true) :
    rulesAll trees = [] := by
  induction trees with
  | nil =>
      rfl
  | cons tree rest inductionHypothesis =>
      have later :=
        inductionHypothesis
          (fun other member => extras other (List.mem_cons_of_mem _ member))
      rw [rulesAll, rules_of_extra (extras tree (List.mem_cons_self ..)),
        later]
      rfl

section Reporting

variable {V : Type}
variable {forest : List RawTree}
variable {events : List (Event V)}

/-- What is no call changes nothing. -/
theorem Reports.idle
    (reports : Reports forest events)
    {more : List (Event V)}
    (noShifts : shifts more = [])
    (noReduces : reduces more = []) :
    Reports forest (events ++ more) := by
  constructor
  · rw [shifts_append, noShifts, List.append_nil]
    exact reports.leaves
  · rw [reduces_append, noReduces, List.append_nil]
    exact reports.rules

/-- A token handed over is one more tree. -/
theorem Reports.shift
    (reports : Reports forest events)
    (token : TFToken)
    (extra : Bool)
    (value : Option V) :
    Reports (forest ++ [.token token extra])
      (events ++ [.shift token extra value]) := by
  constructor
  · rw [shifts_append, reports.leaves, leavesAll_append]
    rfl
  · rw [reduces_append, reports.rules, rulesAll_append]
    simp [reduces, reductions, rulesAll, RawTree.rules]

/-- A reduction handed over puts its children below one more node. -/
theorem Reports.reduce
    {below children trailing : List RawTree}
    (reports : Reports (below ++ children ++ trailing) events)
    (extras : ∀ tree ∈ trailing, tree.extra = true)
    (at_ : TFToken)
    (productionId : Nat)
    {made : TFReduction V}
    (same :
      made.forget = (RawTree.rule at_ productionId children).reduction)
    (value : Option V) :
    Reports (below ++ [.rule at_ productionId children] ++ trailing)
      (events ++ [.reduce made value]) := by
  constructor
  · rw [shifts_append, reports.leaves]
    simp [shifts, leavesAll, RawTree.leaves]
  · rw [reduces_append, reports.rules]
    simp [reduces, reductions, rulesAll, RawTree.rules,
      rulesAll_of_extra extras, same]

end Reporting

end RawTree

namespace TFParser

/-! ## The children of a cut -/

section Cutting

variable {V : Type}

/-- A cut takes as many structural cells as it was asked for. -/
theorem CutsAt.structural_children
    {cells : List (TFCell V)}
    {childCount : Nat}
    {cut : Popped V}
    (cuts : CutsAt cells childCount cut) :
    structural cut.children = childCount := by
  cases cuts with
  | empty =>
      rfl
  | single parts isOnly extras =>
      simp [structural, isOnly]
  | several parts isFirst isLast extras =>
      simp [structural, isFirst, isLast]

/-- The cells it takes begin and end with no extra. -/
theorem CutsAt.edges
    {cells : List (TFCell V)}
    {childCount : Nat}
    {cut : Popped V}
    (cuts : CutsAt cells childCount cut) :
    (∀ cell ∈ cut.children.head?, cell.node.extra = false) ∧
      ∀ cell ∈ cut.children.getLast?, cell.node.extra = false := by
  cases cuts with
  | empty =>
      simp
  | single parts isOnly extras =>
      simp [isOnly]
  | several parts isFirst isLast extras =>
      rw [← List.cons_append, List.getLast?_concat]
      simp [isFirst, isLast]

end Cutting

/-- The cells a reduction takes are the trees below its node. -/
structure Taken
    (cells : List (TFCell RawTree))
    (trees : List RawTree) : Prop where
  nodes :
    cells.map TFCell.node = trees.map (fun tree => tree.node (some tree))

namespace Taken

variable {cells : List (TFCell RawTree)}
variable {trees : List RawTree}

/-- Without values. -/
theorem forget (taken : Taken cells trees) :
    (cells.map TFCell.node).map TFNode.forget =
      trees.map (fun tree => tree.node none) := by
  rw [taken.nodes, List.map_map]
  rfl

/-- The structural cells are the structural trees. -/
theorem structural (taken : Taken cells trees) :
    structural cells = trees.countP (fun tree => !tree.extra) := by
  have counted :=
    congrArg (List.countP (fun node : TFNode RawTree => !node.extra))
      taken.nodes
  rw [List.countP_map, List.countP_map] at counted
  exact counted

/-- The first tree is an extra if the first cell is, and so is the last. -/
theorem edges
    (taken : Taken cells trees)
    (first : ∀ cell ∈ cells.head?, cell.node.extra = false)
    (last : ∀ cell ∈ cells.getLast?, cell.node.extra = false) :
    (∀ tree, trees.head? = some tree → tree.extra = false) ∧
      ∀ tree, trees.getLast? = some tree → tree.extra = false := by
  have heads := congrArg List.head? taken.nodes
  have lasts := congrArg List.getLast? taken.nodes
  rw [List.head?_map, List.head?_map] at heads
  rw [List.getLast?_map, List.getLast?_map] at lasts
  refine ⟨?_, ?_⟩
  · intro tree isFirst
    rw [isFirst, Option.map_some] at heads
    obtain ⟨cell, isCell, same⟩ := Option.map_eq_some_iff.mp heads
    have kind := first cell isCell
    rw [same] at kind
    exact kind
  · intro tree isLast
    rw [isLast, Option.map_some] at lasts
    obtain ⟨cell, isCell, same⟩ := Option.map_eq_some_iff.mp lasts
    have kind := last cell isCell
    rw [same] at kind
    exact kind

end Taken

/-! ## The forest on the stack -/

/-- The leading extras are counted as cells are pushed. -/
theorem Bottomed.pushed {σ V : Type}
    {before after : TFParser σ V}
    {cell : TFCell V}
    {extra : Bool}
    (bottomed : Bottomed before)
    (leading : after.leading = before.leadingAfter extra)
    (cells : after.cells = before.cells ++ [cell])
    (kind : cell.node.extra = extra) :
    Bottomed after := by
  unfold Bottomed at bottomed ⊢
  rw [leading, cells]
  unfold leadingAfter depth
  cases extra with
  | false =>
      rw [extrasBelow_structural kind, ← bottomed]
      rfl
  | true =>
      rw [extrasBelow_extra kind, ← bottomed]
      by_cases all : before.cells.length = before.leading
      · simp [all]
      · simp [all]

/-- And stay as they are below a parent. -/
theorem Bottomed.placed {σ V : Type}
    {before after : TFParser σ V}
    {childCount : Nat}
    {cut : Popped V}
    {parent : TFNode V}
    {state : TSStateId}
    (bottomed : Bottomed before)
    (cuts : CutsAt before.cells childCount cut)
    (leading : after.leading = before.leading)
    (cells : after.cells = RawStack.placed cut parent state)
    (kind : parent.extra = false) :
    Bottomed after := by
  unfold Bottomed at bottomed ⊢
  rw [leading, cells, bottomed, extrasBelow_cut cuts]
  unfold RawStack.placed
  rw [List.append_assoc, List.singleton_append]
  exact (extrasBelow_structural kind).symm

/-- The trees on the real stack, and what was called to build them. -/
structure Grown
    (forest : List RawTree)
    (parser : TFParser Unit RawTree) : Prop where
  stands : RawTree.Stands forest parser.stack
  bottomed : Bottomed parser
  reports : RawTree.Reports forest parser.events
  trimmed : ∀ tree ∈ forest, tree.Trimmed

/-- The root's tree, and what was called to build it. -/
structure Crown
    (tree : RawTree)
    (parser : TFParser Unit RawTree) : Prop where
  root : TFStep.acceptedRoot parser = some tree
  reports : RawTree.Reports [tree] parser.events
  trimmed : ∀ child ∈ tree.children, child.Trimmed

section Growing

variable {lang : TFLanguage}
variable {forest : List RawTree}
variable {before after : TFParser Unit RawTree}

/-- Nothing quiet changes the forest. -/
theorem Grown.quiet
    (grown : Grown forest before)
    (same : Quiet before after) :
    Grown forest after where
  stands := by
    unfold RawTree.Stands stack
    rw [same.cells]
    exact grown.stands
  bottomed := by
    unfold Bottomed
    rw [same.cells, same.leading]
    exact grown.bottomed
  reports := by
    rw [same.events]
    exact grown.reports
  trimmed := grown.trimmed

/-- A shift adds a leaf. -/
theorem Grown.shift
    (grown : Grown forest before)
    {token : TFToken}
    {extra : Bool}
    {state : TSStateId}
    (shifted :
      before.shift RawTree.sink token extra state = (true, after)) :
    Grown (forest ++ [.token token extra]) after := by
  rcases before.shift_cases RawTree.sink token extra state with
    ⟨heap, capacity, _, _, well⟩ | ⟨heap, failed⟩
  · rw [shifted] at well
    rw [(Prod.mk.inj well).2]
    refine ⟨?_, ?_, ?_, ?_⟩
    · unfold RawTree.Stands stack
      have stands := grown.stands
      unfold RawTree.Stands stack at stands
      rw [List.map_append, stands, List.map_append]
      rfl
    · exact grown.bottomed.pushed rfl rfl rfl
    · exact grown.reports.shift token extra _
    · intro tree member
      rcases List.mem_append.mp member with old | new
      · exact grown.trimmed tree old
      · rw [List.mem_singleton.mp new]
        exact .token
  · rw [shifted] at failed
    cases (Prod.mk.inj failed).1

/-- The trees a reduction cuts the stack into. -/
theorem Grown.parts
    (grown : Grown forest before)
    {childCount : Nat}
    {cut : Popped RawTree}
    (cuts : popped before.cells childCount = some cut) :
    ∃ below children trailing,
      forest = below ++ children ++ trailing ∧
        Taken cut.below below ∧ Taken cut.children children ∧
        Taken cut.trailing trailing ∧
        ∀ tree ∈ trailing, tree.extra = true := by
  have stands := grown.stands
  obtain ⟨below, children, trailing, parts, belowLength, childrenLength⟩ :=
    stands.split cuts
  obtain ⟨standBelow, standChildren, standTrailing⟩ :=
    popped_map cuts stands parts belowLength childrenLength
  exact ⟨below, children, trailing, parts, ⟨standBelow⟩, ⟨standChildren⟩,
    ⟨standTrailing⟩,
    stands.extra_of_trailing cuts parts belowLength childrenLength⟩

/-- The rule a reduction makes of the trees it takes. -/
theorem Taken.reduction
    {cells : List (TFCell RawTree)}
    {childCount : Nat}
    {cut : Popped RawTree}
    {children : List RawTree}
    (taken : Taken cut.children children)
    (cuts : CutsAt cells childCount cut)
    (symbol : TSSymbol)
    (productionId : Nat) :
    let own := reductionOf cells cut.children symbol childCount productionId
    RawTree.ofReduction own = .rule own.span productionId children ∧
      own.forget = (RawTree.rule own.span productionId children).reduction ∧
      (RawTree.rule own.span productionId children).reduction.childCount =
        childCount := by
  intro own
  have counted : children.countP (fun tree => !tree.extra) = childCount := by
    rw [← taken.structural]
    exact cuts.structural_children
  refine ⟨?_, ?_, counted⟩
  · unfold RawTree.ofReduction
    congr 1
    exact RawTree.Stands.values taken.nodes
  · unfold TFReduction.forget RawTree.reduction
    simp only [RawTree.children, counted]
    congr 1
    exact taken.forget

/-- A rule over trees a cut takes has no extra at its edges. -/
theorem Taken.trimmed
    {cells : List (TFCell RawTree)}
    {childCount : Nat}
    {cut : Popped RawTree}
    {children : List RawTree}
    (taken : Taken cut.children children)
    (cuts : CutsAt cells childCount cut)
    (each : ∀ child ∈ children, child.Trimmed)
    (at_ : TFToken)
    (productionId : Nat) :
    (RawTree.rule at_ productionId children).Trimmed := by
  obtain ⟨first, last⟩ := cuts.edges
  obtain ⟨firstTree, lastTree⟩ := taken.edges first last
  exact .rule firstTree lastTree each

/-- A reduction other than the root's adds a rule. -/
theorem Grown.inner
    (grown : Grown forest before)
    {cut : Popped RawTree}
    {symbol : TSSymbol}
    {childCount productionId : Nat}
    (cuts : popped before.cells childCount = some cut)
    (reduced :
      InnerReduction RawTree.sink lang before cut symbol childCount
        productionId true after) :
    ∃ forest', Grown forest' after := by
  obtain ⟨heap, capacity, _, ⟨_, _, same⟩ | ⟨failed, _⟩⟩ := reduced.done
  · have cutsAt := popped_eq_some_iff.mp cuts
    obtain ⟨below, children, trailing, parts, standBelow, taken,
      standTrailing, extras⟩ := grown.parts cuts
    obtain ⟨made, forgotten, _⟩ :=
      taken.reduction cutsAt symbol productionId
    let own :=
      reductionOf before.cells cut.children symbol childCount productionId
    refine
      ⟨below ++ [.rule own.span productionId children] ++ trailing,
        ?_, ?_, ?_, ?_⟩
    · rw [same]
      unfold RawTree.Stands stack RawStack.placed
      simp only [List.map_append, standBelow.nodes, List.map_map]
      congr 1
      · congr 1
        change [parentNode own (some (RawTree.ofReduction own))] = _
        rw [made]
        rfl
      · exact standTrailing.nodes
    · rw [same]
      exact grown.bottomed.placed cutsAt rfl rfl rfl
    · rw [same]
      have reports := grown.reports
      rw [parts] at reports
      exact reports.reduce extras own.span productionId forgotten _
    · have trimmed := grown.trimmed
      rw [parts] at trimmed
      have rule : (RawTree.rule own.span productionId children).Trimmed :=
        taken.trimmed cutsAt
          (fun child member => trimmed child (by simp [member])) own.span
          productionId
      intro tree member
      rcases List.mem_append.mp member with front | back
      · rcases List.mem_append.mp front with old | new
        · exact trimmed tree (by simp [old])
        · rw [List.mem_singleton.mp new]
          exact rule
      · exact trimmed tree (by simp [back])
  · cases failed

/-- The cells of the stack are the trees of the forest. -/
theorem Grown.taken (grown : Grown forest before) :
    Taken before.cells forest :=
  ⟨grown.stands⟩

/-- Nothing but the children of the root's own production is structural. -/
theorem Grown.structural
    (grown : Grown forest before)
    {childCount : Nat}
    {cut : Popped RawTree}
    (cuts : popped before.cells childCount = some cut)
    (bottom : cut.below.length = before.leading) :
    forest.countP (fun tree => !tree.extra) = childCount := by
  have cutsAt := popped_eq_some_iff.mp cuts
  have below : AllExtra cut.below :=
    (base_eq_leading_iff grown.bottomed cutsAt).mp bottom
  have trailing : AllExtra cut.trailing := extra_of_popped cuts
  rw [← grown.taken.structural, cells_of_popped cuts, structural_append,
    structural_append, below.structural, trailing.structural,
    cutsAt.structural_children]
  simp

/-- The root's reduction takes the whole forest and the end of the input. -/
theorem Grown.root
    (grown : Grown forest before)
    {cut : Popped RawTree}
    {symbol : TSSymbol}
    {childCount productionId : Nat}
    {token : TFToken}
    (cuts : popped before.cells childCount = some cut)
    (reduced :
      RootReduction RawTree.sink lang before cut symbol childCount
        productionId token true after) :
    ∃ tree, Crown tree after := by
  have bottom := reduced.bottom
  have structural := grown.structural cuts bottom
  obtain ⟨heap, capacity, _, ⟨_, _, heapBefore, same⟩ | ⟨failed, _⟩⟩ :=
    reduced.done
  · let end_ : RawTree := .token token true
    let root :=
      rootReduction before.cells
        (reductionOf before.cells cut.children symbol childCount
          productionId)
        token (some end_)
    let tree : RawTree := .rule root.span productionId (forest ++ [end_])
    have made : RawTree.ofReduction root = tree := by
      unfold RawTree.ofReduction
      change
        RawTree.rule root.span productionId
          ((before.cells.map TFCell.node ++ [_]).filterMap TFNode.value) = _
      rw [List.filterMap_append, RawTree.Stands.values grown.taken.nodes]
      rfl
    have forgotten : root.forget = tree.reduction := by
      unfold TFReduction.forget RawTree.reduction
      simp only [tree, RawTree.children, List.countP_append, structural,
        List.map_append, ← grown.taken.forget]
      simp only [root, rootReduction, List.map_append]
      rfl
    have leaves := grown.reports.shift token true (some end_)
    refine ⟨tree, ?_, ?_, ?_⟩
    · rw [same]
      unfold TFStep.acceptedRoot
      dsimp only
      rw [← bottom]
      unfold RawStack.placed
      rw [List.append_assoc, List.getElem?_append_right (Nat.le_refl _),
        Nat.sub_self]
      exact congrArg some made
    · rw [same]
      have reports :
          RawTree.Reports ([] ++ (forest ++ [end_]) ++ [])
            (before.events ++ [.shift token true (some end_)]) := by
        rw [List.nil_append, List.append_nil]
        exact leaves
      exact reports.reduce (fun _ none_ => absurd none_ List.not_mem_nil)
        root.span productionId forgotten _
    · intro child member
      rcases List.mem_append.mp member with old | new
      · exact grown.trimmed child old
      · rw [List.mem_singleton.mp new]
        exact .token
  · cases failed

/-- Whatever failed, the calls made are those of a forest. -/
theorem Grown.fails
    (grown : Grown forest before)
    (ready : Ready before)
    (fails : Fails RawTree.sink lang before after) :
    ∃ forest', RawTree.Reports forest' after.events := by
  cases fails with
  | quiet same =>
      exact ⟨forest, (grown.quiet same).reports⟩
  | @shift failed _ token extra state shifted same =>
      rw [same.events]
      rcases before.shift_cases RawTree.sink token extra state with
        ⟨heap, capacity, _, _, well⟩ | ⟨heap, lost⟩
      · rw [shifted] at well
        cases (Prod.mk.inj well).1
      · rw [shifted] at lost
        rw [(Prod.mk.inj lost).2]
        have reports := grown.reports.shift token extra
          (some (.token token extra))
        exact ⟨_, reports.idle rfl rfl⟩
  | @reduce failed _ symbol childCount productionId lookahead reduced same =>
      rw [same.events]
      obtain ⟨cut, cuts, ⟨_, inner⟩ | ⟨token, _, root⟩⟩ :=
        reduce_cases ready.fits reduced
      · obtain ⟨heap, capacity, _, ⟨well, _⟩ | ⟨_, none_, _, lost⟩⟩ :=
          inner.done
        · cases well
        · rw [lost]
          obtain ⟨below, children, trailing, parts, _, taken, _, extras⟩ :=
            grown.parts cuts
          obtain ⟨_, forgotten, _⟩ :=
            taken.reduction (popped_eq_some_iff.mp cuts) symbol productionId
          have reports := grown.reports
          rw [parts] at reports
          have more :=
            reports.reduce extras _ productionId forgotten
              (some (RawTree.ofReduction
                (reductionOf before.cells cut.children symbol childCount
                  productionId)))
          exact ⟨_, more.idle rfl rfl⟩
      · obtain ⟨heap, capacity, _, ⟨well, _⟩ | ⟨_, lost⟩⟩ := root.done
        · cases well
        · rw [lost]
          exact ⟨forest, grown.reports.idle rfl rfl⟩

end Growing

/-- A run that builds trees: a forest at any time, one tree at the end. -/
theorem forest_of_run
    {lang : TFLanguage}
    (loaded : lang.Loaded)
    {fuel : Nat}
    {source : List UInt8}
    {heap : Heap}
    {result : TFResult Unit RawTree}
    (ran : tfParse lang RawTree.sink fuel source () heap = some result) :
    (∃ forest, RawTree.Reports forest result.parser.events) ∧
      (result.ok = true → result.parser.rootEmitted = true →
        ∃ tree, result.root = some tree ∧ Crown tree result.parser) := by
  have traced :
      ∀ first last : TFParser Unit RawTree,
        Entered source () first → Trace RawTree.sink lang first last →
          (Ready last ∧ ∃ forest, Grown forest last) ∨
            last.rootEmitted = true ∧ ∃ tree, Crown tree last := by
    intro first last entered trace
    refine
      trace.rule (fun parser => ∃ forest, Grown forest parser)
        (fun parser => ∃ tree, Crown tree parser) entered.ready ?_ ?_ ?_ ?_
        ?_ ?_
    · obtain ⟨startHeap, capacity, rfl⟩ := entered.entered
      exact ⟨[], rfl, rfl, ⟨rfl, rfl⟩, by simp⟩
    · rintro before after ⟨forest, grown⟩ same
      exact ⟨forest, grown.quiet same⟩
    · rintro before after ⟨tree, crown⟩ same
      refine ⟨tree, ?_, ?_, crown.trimmed⟩
      · unfold TFStep.acceptedRoot
        rw [same.cells, same.leading]
        exact crown.root
      · rw [same.events]
        exact crown.reports
    · rintro before after token extra state _ ⟨forest, grown⟩ shifted
      exact ⟨_, grown.shift shifted⟩
    · rintro before after cut symbol childCount productionId _
        ⟨forest, grown⟩ cuts reduced
      exact grown.inner cuts reduced
    · rintro before after cut symbol childCount productionId token _
        ⟨forest, grown⟩ cuts reduced
      exact grown.root cuts reduced
  cases run_spec loaded (fun _ _ _ _ _ => ⟨rfl, rfl⟩) ran with
  | unentered notOk _ _ noCalls =>
      refine ⟨⟨[], ?_⟩, ?_⟩
      · rcases noCalls with none_ | one
        · rw [none_]
          exact ⟨rfl, rfl⟩
        · rw [one]
          exact ⟨rfl, rfl⟩
      · intro ok
        rw [notOk] at ok
        cases ok
  | @accepted first entered ok trace last root =>
      rcases traced first result.parser entered trace with
        ⟨ready, forest, grown⟩ | ⟨emitted, tree, crown⟩
      · refine ⟨⟨forest, grown.reports⟩, ?_⟩
        intro _ emitted
        rw [ready.open_] at emitted
        cases emitted
      · refine ⟨⟨[tree], crown.reports⟩, ?_⟩
        intro _ _
        exact ⟨tree, root.trans crown.root, crown⟩
  | @failed first last entered notOk fails discarded =>
      refine ⟨?_, ?_⟩
      · obtain ⟨before, ready, trace, failure⟩ := fails.failure
        rw [discarded]
        rcases traced first before entered trace with
          ⟨_, forest, grown⟩ | ⟨emitted, _⟩
        · exact grown.fails ready failure
        · rw [ready.open_] at emitted
          cases emitted
      · intro ok
        rw [notOk] at ok
        cases ok

end TFParser

/-- Logs with the same calls report the same forests. -/
theorem RawTree.Reports.of_calls {V V' : Type}
    {forest : List RawTree}
    {events : List (Event V)}
    {events' : List (Event V')}
    (reports : RawTree.Reports forest events)
    (same : callsOf events' = callsOf events) :
    RawTree.Reports forest events' where
  leaves := by
    rw [← shifts_callsOf, same, shifts_callsOf]
    exact reports.leaves
  rules := by
    rw [← reduces_callsOf, same, reduces_callsOf]
    exact reports.rules

open TFParser in
/--
Every consumer is called for a forest and nothing else, however its parse
ends.  If the parse goes through, the forest is one tree: the one returned to a
consumer that builds trees.
-/
theorem tfParse_reports_one_tree {σ V : Type}
    {lang : TFLanguage}
    (loaded : lang.Loaded)
    {sink : TFSink σ V}
    (shifts : sink.onShift.isSome = true)
    (reduces : sink.onReduce.isSome = true)
    (keeps : sink.KeepsHeap)
    {fuel : Nat}
    {source : List UInt8}
    {payload : σ}
    {heap : Heap}
    {result : TFResult σ V}
    (ran : tfParse lang sink fuel source payload heap = some result) :
    (∃ forest, RawTree.Reports forest result.parser.events) ∧
      (result.ok = true → result.parser.rootEmitted = true →
        ∃ tree built,
          tfParse lang RawTree.sink fuel source () heap = some built ∧
            built.root = some tree ∧
            RawTree.Reports [tree] result.parser.events) := by
  have inStep :=
    inStep_of_keepsHeap shifts reduces keeps RawTree.sink_keepsHeap
  have same :=
    tfParse_inStep loaded Heap.bisimulation_eq inStep fuel source payload ()
      (Eq.refl heap) trivial
  rw [ran] at same
  generalize built_eq : tfParse lang RawTree.sink fuel source () heap =
    outcome at same
  cases same with
  | @some _ built ended =>
      have same := ended.agree
      obtain ⟨⟨forest, reports⟩, whole⟩ := forest_of_run loaded built_eq
      refine ⟨⟨forest, reports.of_calls same.calls⟩, ?_⟩
      intro ok emitted
      rw [same.ok] at ok
      rw [same.rootEmitted] at emitted
      obtain ⟨tree, root, crown⟩ := whole ok emitted
      exact ⟨tree, built, rfl, root, crown.reports.of_calls same.calls⟩

/-- How a parse ended: whether it went through, emitted a root, and forked. -/
def TFResult.ending {σ V : Type} (self : TFResult σ V) : Bool × Bool × Nat :=
  (self.ok, self.parser.rootEmitted, self.parser.splitCount)

/-- The two rules over `x` are told apart by a split, and one tree reported. -/
theorem tfParse_reports_one_tree_paired :
    ∃ result,
      tfParse pairedGrammar countingSink 20 [120] 0 .reliable =
          some result ∧
        result.ending = (true, true, 1) ∧
        ∃ tree built,
          tfParse pairedGrammar RawTree.sink 20 [120] () .reliable =
              some built ∧
            built.root = some tree ∧
            RawTree.Reports [tree] result.parser.events := by
  have computed :
      (tfParse pairedGrammar countingSink 20 [120] 0 .reliable).map
          TFResult.ending =
        some (true, true, 1) := by
    decide +kernel
  obtain ⟨result, ran, ending⟩ := Option.map_eq_some_iff.mp computed
  refine ⟨result, ran, ending, ?_⟩
  exact
    (tfParse_reports_one_tree pairedGrammar_spans.loaded rfl rfl
      countingSink_keepsHeap ran).2 (congrArg Prod.fst ending)
      (congrArg (fun ending => ending.2.1) ending)

open TFParser in
/--
In the tree of any parse, one that forked as well, an extra stands in the
deepest node that has structural children on both of its sides, or in the root.
-/
theorem tfParse_extras_deepest
    {lang : TFLanguage}
    (loaded : lang.Loaded)
    {fuel : Nat}
    {source : List UInt8}
    {heap : Heap}
    {result : TFResult Unit RawTree}
    (ran : tfParse lang RawTree.sink fuel source () heap = some result)
    (ok : result.ok = true)
    (emitted : result.parser.rootEmitted = true) :
    ∃ tree, result.root = some tree ∧ tree.ExtrasDeepestOrRoot := by
  obtain ⟨_, whole⟩ := forest_of_run loaded ran
  obtain ⟨tree, root, crown⟩ := whole ok emitted
  exact ⟨tree, root, RawTree.extrasDeepestOrRoot_of_trimmed crown.trimmed⟩

/--
A root over a pair of letters `x`, the first of which is either of two rules.
The end of a line, the second token, may stand anywhere.
-/
def linedTables : TSLanguage :=
  smallTables 7 3 9 [(120, 1), (10, 2)]
    [[], [.shift 2 false false], [.shift 0 true false],
      [.reduce 1 5 0 0, .reduce 1 6 0 0], [.reduce 1 3 0 0],
      [.shift 6 false false], [.shift 7 false false], [.reduce 2 4 0 0],
      [.accept]]
    [(1, 2, 2), (2, 2, 2), (3, 2, 2), (4, 2, 2), (5, 2, 2), (6, 2, 2),
      (7, 2, 2), (8, 2, 2), (1, 1, 1), (2, 1, 3), (3, 0, 4), (4, 1, 5),
      (5, 1, 6), (6, 0, 7), (7, 0, 7), (8, 0, 8)]
    [(1, 3, 8), (1, 4, 3), (1, 5, 4), (1, 6, 5)]

/-- The pair, loaded. -/
def linedGrammar : TFLanguage :=
  linedTables.loaded

/-- The tables of the pair load. -/
theorem linedGrammar_loaded : linedGrammar.Loaded :=
  TSLanguage.loaded_of_isOk (by decide +kernel)

/-- The reductions of a parse: their symbols and those of their children. -/
def TFResult.shapes {σ V : Type} (self : TFResult σ V) :
    List (TSSymbol × List TSSymbol) :=
  self.parser.events.filterMap (fun event =>
    match event with
    | .reduce reduction _ =>
        some (reduction.symbol, reduction.children.map TFNode.symbol)
    | _ => none)

/-- Of two ends of lines the first stands in the pair, the last in the root. -/
theorem tfParse_extras_deepest_lined :
    ∃ result,
      tfParse linedGrammar RawTree.sink 60 [120, 10, 120, 10] ()
            .reliable =
          some result ∧
        result.ending = (true, true, 1) ∧
        result.shapes = [(5, [1]), (4, [5, 2, 1]), (3, [4, 2, 0])] ∧
        ∃ tree, result.root = some tree ∧ tree.ExtrasDeepestOrRoot := by
  have computed :
      (tfParse linedGrammar RawTree.sink 60 [120, 10, 120, 10] ()
            .reliable).map
          (fun result => (result.ending, result.shapes)) =
        some
          ((true, true, 1), [(5, [1]), (4, [5, 2, 1]), (3, [4, 2, 0])]) := by
    decide +kernel
  obtain ⟨result, ran, computed⟩ := Option.map_eq_some_iff.mp computed
  obtain ⟨ending, shapes⟩ := Prod.mk.inj computed
  exact ⟨result, ran, ending, shapes,
    tfParse_extras_deepest linedGrammar_loaded ran
      (congrArg Prod.fst ending)
      (congrArg (fun ending => ending.2.1) ending)⟩

end TreeFeller
