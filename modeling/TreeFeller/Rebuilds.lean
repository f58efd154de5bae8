import TreeFeller.Grafts
import TreeFeller.StackDriver

namespace TreeFeller

open StatefulProgram

/-!
# A replay rebuilds what the trees show

A replay goes over a row of trees with the cells of the stack that it has not
come to yet on top of what it rebuilds.  A leaf finds none of them left, and a
parent nothing but extras, which the reduction leaves on top: so each reduction
takes exactly the cells that stand for the parent's children.
-/

namespace TFParser

variable {σ V : Type}

/-! ## Calls -/

/-- A reduction that is handed over as a parent of the graph records it. -/
structure Reports
    (graph : TFSpec)
    (parent : TFSpecTree)
    (reduction : TFReduction V) : Prop where
  symbol : reduction.symbol = parent.token.symbol
  productionId : reduction.productionId = parent.productionId
  childCount : reduction.childCount = parent.structuralCount
  children :
    reduction.children.map TFNode.forget =
      parent.children.map (fun child => (graph.tree child).shown)
  startByte : reduction.startByte = parent.token.startByte
  endByte : reduction.endByte = parent.token.endByte
  startPoint : reduction.startPoint = parent.token.startPoint
  endPoint : reduction.endPoint = parent.token.endPoint

/--
The calls that a row of trees is retold by: a shift for each leaf and a
reduction for each parent, behind its children; for what is inherited, none.
-/
inductive Retold
    (sink : TFSink σ V)
    (graph : TFSpec) :
    List Nat → List (Event V) → Prop where
  | nil : Retold sink graph [] []
  | inherited
      {tree : Nat}
      {rest : List Nat}
      {events : List (Event V)}
      (isInherited : (graph.tree tree).inherited = true)
      (later : Retold sink graph rest events) :
      Retold sink graph (tree :: rest) events
  | leaf
      {tree : Nat}
      {rest : List Nat}
      {value : Option V}
      {events : List (Event V)}
      (own : (graph.tree tree).inherited = false)
      (isLeaf : (graph.tree tree).leaf = true)
      (later : Retold sink graph rest events) :
      Retold sink graph (tree :: rest)
        (sink.shiftEvents (graph.tree tree).token (graph.tree tree).extra
            value ++
          events)
  | parent
      {tree : Nat}
      {rest : List Nat}
      {reduction : TFReduction V}
      {value : Option V}
      {inner events : List (Event V)}
      (own : (graph.tree tree).inherited = false)
      (isParent : (graph.tree tree).leaf = false)
      (children : Retold sink graph (graph.tree tree).children inner)
      (reports : Reports graph (graph.tree tree) reduction)
      (later : Retold sink graph rest events) :
      Retold sink graph (tree :: rest)
        (inner ++ (sink.reduceEvents reduction value ++ events))

/-- Rows that are retold one after the other. -/
theorem Retold.append
    {sink : TFSink σ V}
    {graph : TFSpec}
    {front back : List Nat}
    {events others : List (Event V)}
    (told : Retold sink graph front events)
    (later : Retold sink graph back others) :
    Retold sink graph (front ++ back) (events ++ others) := by
  induction told with
  | nil =>
      exact later
  | inherited isInherited _ inductionHypothesis =>
      exact .inherited isInherited inductionHypothesis
  | @leaf tree rest value events own isLeaf _ inductionHypothesis =>
      rw [List.append_assoc]
      exact Retold.leaf own isLeaf inductionHypothesis
  | parent own isParent children reports _ _ inductionHypothesis =>
      rw [List.append_assoc, List.append_assoc]
      exact .parent own isParent children reports inductionHypothesis

/-! ## Where a replay stands -/

/-- How many cells of a stack lie below a byte. -/
structure Reaches
    (cells : List (TFCell V))
    (byte index : Nat) : Prop where
  within : index ≤ cells.length
  level : topByte (cells.take index) = min byte (topByte cells)

/--
A replay that has come to a byte: on what it has rebuilt stand the cells of the
stack that it has not come to yet.
-/
structure Amid
    (own base : List (TFCell V))
    (byte : Nat)
    (parser : TFParser σ V) : Prop where
  ready : Ready parser
  cells :
    ∃ rest index,
      parser.cells = base ++ rest ∧
        rest.map TFCell.node = (own.drop index).map TFCell.node ∧
        Reaches own byte index

/-- A cut where the first child and the last are no extras. -/
theorem cutsAt_of_parts
    {cells below children trailing : List (TFCell V)}
    (parts : cells = below ++ children ++ trailing)
    (some_ : children ≠ [])
    (isFirst :
      ∀ cell, children.head? = some cell → cell.node.extra = false)
    (isLast :
      ∀ cell, children.getLast? = some cell → cell.node.extra = false)
    (extras : AllExtra trailing) :
    CutsAt cells (structural children) ⟨below, children, trailing⟩ := by
  cases children with
  | nil =>
      exact absurd rfl some_
  | cons first rest =>
      have plain := isFirst first rfl
      cases rest using List.reverseRecOn with
      | nil =>
          have one : structural [first] = 1 := by
            simp [structural, plain]
          rw [one]
          refine .single ?_ plain extras
          rw [parts]
          simp
      | append_singleton between last _ =>
          have plainLast : last.node.extra = false := by
            refine isLast last ?_
            rw [← List.cons_append, List.getLast?_concat]
          have count :
              structural (first :: (between ++ [last])) =
                structural between + 2 := by
            simp [structural, plain, plainLast]
          rw [count]
          refine .several ?_ plain plainLast extras
          rw [parts]
          simp

section Steps

variable {sink : TFSink σ V}
variable {lang : TFLanguage}
variable {own base kids : List (TFCell V)}
variable {first last : Nat}
variable {before middle after : TFParser σ V}

/-- A quiet step leaves a replay where it was. -/
theorem Amid.quiet
    (amid : Amid own base first before)
    (same : Quiet before after) :
    Amid own base first after := by
  refine ⟨amid.ready.quiet same, ?_⟩
  rw [same.cells]
  exact amid.cells

/-- The cells below a byte are those below its place. -/
theorem Reaches.unique
    (stack : LrStack lang own)
    {byte index other : Nat}
    (reaches : Reaches own byte index)
    (reachesOther : Reaches own byte other) :
    index = other := by
  have apart :
      ∀ {low high : Nat},
        Reaches own byte low → Reaches own byte high → ¬ low < high := by
    intro low high lower upper below
    have inRange := Nat.lt_of_lt_of_le below upper.within
    have isCell : own[low]? = some own[low] :=
      List.getElem?_eq_getElem inRange
    have rises := stack.bytes low _ isCell
    have most :=
      stack.topByte_take_mono (show low + 1 ≤ high from below) upper.within
    rw [topByte_take_succ isCell] at most
    have same := lower.level.trans upper.level.symm
    omega
  have notBelow := apart reaches reachesOther
  have notAbove := apart reachesOther reaches
  omega

/-- An inherited cell is taken from those the replay has not come to. -/
theorem Amid.inherited
    (stack : LrStack lang own)
    (amid : Amid own base first before)
    {index : Nat}
    {cell : TFCell V}
    (isCell : own[index]? = some cell)
    (starts : first = topByte (own.take index)) :
    ∃ rebuilt,
      rebuilt.node = cell.node ∧
        Amid own (base ++ [rebuilt]) cell.node.endByte before := by
  have inRange := (List.getElem?_eq_some_iff.mp isCell).1
  have below := stack.topByte_take_le index
  have below' := stack.topByte_take_le (index + 1)
  rw [topByte_take_succ isCell] at below'
  obtain ⟨rest, place, cells, isRest, reaches⟩ := amid.cells
  have here : Reaches own first index := by
    refine ⟨Nat.le_of_lt inRange, ?_⟩
    rw [starts, Nat.min_eq_left below]
  have isPlace := reaches.unique stack here
  subst isPlace
  have dropped : own.drop place = cell :: own.drop (place + 1) := by
    rw [List.drop_eq_getElem_cons inRange]
    congr 1
    exact (List.getElem?_eq_some_iff.mp isCell).2
  rw [dropped, List.map_cons] at isRest
  cases rest with
  | nil =>
      cases isRest
  | cons rebuilt rest =>
      rw [List.map_cons, List.cons.injEq] at isRest
      refine ⟨rebuilt, isRest.1, amid.ready, rest, place + 1, ?_, isRest.2,
        inRange, ?_⟩
      · rw [cells, List.append_assoc]
        rfl
      · rw [topByte_take_succ isCell, Nat.min_eq_left below']

/-- Nothing of the stack is left beyond its top. -/
theorem Reaches.all
    (stack : LrStack lang own)
    {index : Nat}
    (reaches : Reaches own first index)
    (high : topByte own ≤ first) :
    index = own.length := by
  refine reaches.unique stack ⟨Nat.le_refl _, ?_⟩
  rw [List.take_length, Nat.min_eq_right high]

/-- A leaf is shifted over what has been rebuilt. -/
theorem Amid.leaf
    (stack : LrStack lang own)
    (amid : Amid own base first before)
    {token : TFToken}
    {extra : Bool}
    {state : TSStateId}
    (high : topByte own ≤ first)
    (spans : first < token.endByte)
    (shifted : before.shift sink token extra state = (true, after)) :
    ∃ rebuilt value,
      rebuilt.node.forget = token.node extra none ∧
        Amid own (base ++ [rebuilt]) token.endByte after ∧
        after.events = before.events ++ sink.shiftEvents token extra value := by
  obtain ⟨rest, index, cells, isRest, reaches⟩ := amid.cells
  have all := reaches.all stack high
  subst all
  rw [List.drop_length, List.map_nil, List.map_eq_nil_iff] at isRest
  subst isRest
  rw [List.append_nil] at cells
  have readyAfter := amid.ready.shift shifted
  rcases before.shift_cases sink token extra state with
    ⟨heap, capacity, _, _, well⟩ | ⟨heap, failed⟩
  · rw [shifted] at well
    have isAfter := (Prod.mk.inj well).2
    let answer := sink.callShift token extra before.payload before.heap
    refine ⟨⟨token.node extra answer.1, state⟩, answer.1, rfl,
      ⟨readyAfter, [], own.length, ?_, ?_, ?_⟩, ?_⟩
    · rw [isAfter, List.append_nil, cells]
    · rw [List.drop_length]
    · refine ⟨Nat.le_refl _, ?_⟩
      rw [List.take_length,
        Nat.min_eq_right (Nat.le_of_lt (Nat.lt_of_le_of_lt high spans))]
    · rw [isAfter]
  · rw [shifted] at failed
    cases (Prod.mk.inj failed).1

/-- Above what covers the stack, nothing but extras is left. -/
theorem Reaches.extras
    (stack : LrStack lang own)
    {index : Nat}
    (reaches : Reaches own first index)
    (covers : TFSpec.Covers own first) :
    AllExtra (own.drop index) := by
  intro cell member
  obtain ⟨place, inRange, rfl⟩ := List.mem_iff_getElem.mp member
  rw [List.length_drop] at inRange
  rw [List.getElem_drop]
  have within : index + place < own.length := by omega
  have isCell : own[index + place]? = some own[index + place] :=
    List.getElem?_eq_getElem within
  cases kind : own[index + place].node.extra with
  | true =>
      rfl
  | false =>
      have covered := covers _ (List.getElem_mem within) kind
      have rises := stack.bytes _ _ isCell
      have below := stack.topByte_take_le (index + place + 1)
      rw [topByte_take_succ isCell] at below
      have most :=
        stack.topByte_take_mono (Nat.le_add_right index place)
          (Nat.le_of_lt within)
      rw [reaches.level] at most
      omega

/-- What stands on the stack for a parent's children. -/
theorem shown_structural
    {graph : TFSpec}
    {cells : List (TFCell V)}
    {trees : List Nat}
    (shows :
      cells.map (fun cell => cell.node.forget) =
        trees.map (fun tree => (graph.tree tree).shown)) :
    structural cells = graph.structuralOf trees := by
  have nodes :
      (cells.map (fun cell => cell.node.forget)).countP
          (fun node => !node.extra) =
        (trees.map (fun tree => (graph.tree tree).shown)).countP
          (fun node => !node.extra) := by
    rw [shows]
  rw [List.countP_map, List.countP_map] at nodes
  exact nodes

/-- The first cell shows the first tree. -/
theorem head_shown
    {graph : TFSpec}
    {cells : List (TFCell V)}
    {trees : List Nat}
    (shows :
      cells.map (fun cell => cell.node.forget) =
        trees.map (fun tree => (graph.tree tree).shown))
    {cell : TFCell V}
    (isFirst : cells.head? = some cell) :
    ∃ tree, trees.head? = some tree ∧
      cell.node.forget = (graph.tree tree).shown := by
  have heads := congrArg List.head? shows
  rw [List.head?_map, List.head?_map, isFirst, Option.map_some] at heads
  obtain ⟨tree, isTree, same⟩ := Option.map_eq_some_iff.mp heads.symm
  exact ⟨tree, isTree, same.symm⟩

/-- The last cell shows the last tree. -/
theorem last_shown
    {graph : TFSpec}
    {cells : List (TFCell V)}
    {trees : List Nat}
    (shows :
      cells.map (fun cell => cell.node.forget) =
        trees.map (fun tree => (graph.tree tree).shown))
    {cell : TFCell V}
    (isLast : cells.getLast? = some cell) :
    ∃ tree, trees.getLast? = some tree ∧
      cell.node.forget = (graph.tree tree).shown := by
  have lasts := congrArg List.getLast? shows
  rw [List.getLast?_map, List.getLast?_map, isLast, Option.map_some] at lasts
  obtain ⟨tree, isTree, same⟩ := Option.map_eq_some_iff.mp lasts.symm
  exact ⟨tree, isTree, same.symm⟩

/-- A parent is reduced from the cells that stand for its children. -/
theorem Amid.parent
    {graph : TFSpec}
    {tree : TFSpecTree}
    (stack : LrStack lang own)
    (amid : Amid own (base ++ kids) tree.token.endByte before)
    (covers : TFSpec.Covers own tree.token.endByte)
    (plain : tree.extra = false)
    (tiled : TFSpec.Tiled graph tree)
    (framed : TFSpec.Framed graph tree)
    (counts : tree.structuralCount ≠ 0)
    (shows :
      kids.map (fun cell => cell.node.forget) =
        tree.children.map (fun child => (graph.tree child).shown))
    (reduced :
      before.reduce sink lang tree.token.symbol tree.structuralCount
          tree.productionId none =
        some (true, after)) :
    ∃ rebuilt reduction value,
      rebuilt.node.forget = tree.shown ∧
        Amid own (base ++ [rebuilt]) tree.token.endByte after ∧
        Reports graph tree reduction ∧
        after.events = before.events ++ sink.reduceEvents reduction value := by
  obtain ⟨rest, index, cells, isRest, reaches⟩ := amid.cells
  have extras : AllExtra rest := by
    have dropped := reaches.extras stack covers
    intro cell member
    have inRest : cell.node ∈ rest.map TFCell.node :=
      List.mem_map_of_mem member
    rw [isRest] at inRest
    obtain ⟨other, isOther, same⟩ := List.mem_map.mp inRest
    rw [← same]
    exact dropped other isOther
  have count : structural kids = tree.structuralCount :=
    (shown_structural shows).trans tiled.structural
  have some_ : kids ≠ [] := by
    intro none_
    rw [none_] at count
    exact counts count.symm
  obtain ⟨firstCell, isFirst⟩ :=
    Option.isSome_iff_exists.mp (List.isSome_head?.mpr some_)
  obtain ⟨lastCell, isLast⟩ :=
    Option.isSome_iff_exists.mp (List.getLast?_isSome.mpr some_)
  obtain ⟨firstChild, isFirstChild, firstShows⟩ := head_shown shows isFirst
  obtain ⟨lastChild, isLastChild, lastShows⟩ := last_shown shows isLast
  have cuts : popped before.cells tree.structuralCount =
      some ⟨base, kids, rest⟩ := by
    rw [← count]
    refine popped_of_cutsAt (cutsAt_of_parts cells some_ ?_ ?_ extras)
    · intro cell isCell
      cases isFirst.symm.trans isCell
      exact (congrArg TFNode.extra firstShows).trans
        (tiled.first firstChild isFirstChild)
    · intro cell isCell
      cases isLast.symm.trans isCell
      exact (congrArg TFNode.extra lastShows).trans
        (tiled.last lastChild isLastChild)
  obtain ⟨cut, isCut, ⟨_, inner⟩ | ⟨token, isToken, _⟩⟩ :=
    reduce_cases amid.ready.fits reduced
  swap
  · cases isToken
  cases isCut.symm.trans cuts
  have readyAfter := amid.ready.inner inner
  let report :=
    reductionOf before.cells kids tree.token.symbol tree.structuralCount
      tree.productionId
  let answer := sink.callReduce report before.payload before.heap
  obtain ⟨heap, capacity, _, ⟨_, _, isAfter⟩ | ⟨failed, _⟩⟩ := inner.done
  swap
  · cases failed
  obtain ⟨startByte, startPoint⟩ := framed.first firstChild isFirstChild
  obtain ⟨endByte, endPoint⟩ := framed.last lastChild isLastChild
  have reports : Reports graph tree report := by
    refine ⟨rfl, rfl, rfl, ?_, ?_, ?_, ?_, ?_⟩
    · rw [← shows]
      exact List.map_map
    · change ((kids.map TFCell.node).head?.map TFNode.startByte).getD _ = _
      rw [List.head?_map, isFirst, startByte]
      exact congrArg TFNode.startByte firstShows
    · change ((kids.map TFCell.node).getLast?.map TFNode.endByte).getD _ = _
      rw [List.getLast?_map, isLast, endByte]
      exact congrArg TFNode.endByte lastShows
    · change ((kids.map TFCell.node).head?.map TFNode.startPoint).getD _ = _
      rw [List.head?_map, isFirst, startPoint]
      exact congrArg TFNode.startPoint firstShows
    · change ((kids.map TFCell.node).getLast?.map TFNode.endPoint).getD _ = _
      rw [List.getLast?_map, isLast, endPoint]
      exact congrArg TFNode.endPoint lastShows
  let state :=
    reducedState lang before.cells ⟨base, kids, rest⟩ tree.token.symbol
  refine ⟨⟨parentNode report answer.1, state⟩, report, answer.1, ?_,
    ⟨readyAfter, rest.map (fun cell => { cell with state := state }), index,
      ?_, ?_, reaches⟩, reports, ?_⟩
  · change
      (⟨report.symbol, false, report.startByte, report.endByte,
        report.startPoint, report.endPoint, none⟩ : TFNode Unit) =
        ⟨tree.token.symbol, tree.extra, tree.token.startByte,
          tree.token.endByte, tree.token.startPoint, tree.token.endPoint,
          none⟩
    rw [reports.symbol, reports.startByte, reports.endByte,
      reports.startPoint, reports.endPoint, plain]
  · rw [isAfter]
    rfl
  · rw [← isRest, List.map_map]
    rfl
  · rw [isAfter]

/-- A plan of nothing does nothing. -/
theorem Performs.quiet_of_nil
    (performed : Performs sink lang [] before after) :
    Quiet before after := by
  generalize isPlan : ([] : List Replayed) = plan at performed
  induction performed with
  | done =>
      exact .refl _
  | quiet same _ inductionHypothesis =>
      exact same.trans (inductionHypothesis isPlan)
  | leaf =>
      cases isPlan
  | parent =>
      cases isPlan

/-- A plan that begins with a leaf shifts it first. -/
theorem Performs.leaf_first
    {tree : TFSpecTree}
    {plan : List Replayed}
    (performed : Performs sink lang (.leaf tree :: plan) before after) :
    ∃ ready shifted,
      Quiet before ready ∧
        ready.shift sink tree.token tree.extra (ready.leafState lang tree) =
          (true, shifted) ∧
        Performs sink lang plan shifted after := by
  generalize isPlan : (.leaf tree :: plan : List Replayed) = whole
    at performed
  induction performed with
  | done =>
      cases isPlan
  | quiet same _ inductionHypothesis =>
      obtain ⟨ready, shifted, quiet, shifts, later⟩ :=
        inductionHypothesis isPlan
      exact ⟨ready, shifted, same.trans quiet, shifts, later⟩
  | @leaf before middle after other rest shifts later _ =>
      cases isPlan
      exact ⟨before, middle, .refl _, shifts, later⟩
  | parent =>
      cases isPlan

/-- A plan that begins with a parent reduces it first. -/
theorem Performs.parent_first
    {tree : TFSpecTree}
    {plan : List Replayed}
    (performed : Performs sink lang (.parent tree :: plan) before after) :
    ∃ ready reduced,
      Quiet before ready ∧
        ready.reduce sink lang tree.token.symbol tree.structuralCount
            tree.productionId none =
          some (true, reduced) ∧
        Performs sink lang plan reduced after := by
  generalize isPlan : (.parent tree :: plan : List Replayed) = whole
    at performed
  induction performed with
  | done =>
      cases isPlan
  | quiet same _ inductionHypothesis =>
      obtain ⟨ready, reduced, quiet, reduces, later⟩ :=
        inductionHypothesis isPlan
      exact ⟨ready, reduced, same.trans quiet, reduces, later⟩
  | leaf =>
      cases isPlan
  | @parent before middle after other rest reduces later _ =>
      cases isPlan
      exact ⟨before, middle, .refl _, reduces, later⟩

end Steps

/-! ## Rows of trees -/

/-- Cells that show some trees, one by one. -/
def Shows
    (graph : TFSpec)
    (trees : List Nat)
    (cells : List (TFCell V)) : Prop :=
  cells.map (fun cell => cell.node.forget) =
    trees.map (fun tree => (graph.tree tree).shown)

/-- What a replay has done once it has gone over a row of trees. -/
structure Rebuilds
    (sink : TFSink σ V)
    (lang : TFLanguage)
    (graph : TFSpec)
    (own base : List (TFCell V))
    (trees : List Nat)
    (last : Nat)
    (items : List TFReplayItem)
    (before after : TFParser σ V) : Prop where
  done :
    ∃ middle rebuilt events later,
      Amid own (base ++ rebuilt) last middle ∧
        Shows graph trees rebuilt ∧
        middle.events = before.events ++ events ∧
        Retold sink graph trees events ∧
        Postorder graph.tree items later ∧
        Performs sink lang later middle after

/-- One tree is rebuilt, and then the rest of its row. -/
theorem Rebuilds.cons
    {sink : TFSink σ V}
    {lang : TFLanguage}
    {graph : TFSpec}
    {own base : List (TFCell V)}
    {tree last : Nat}
    {rest : List Nat}
    {items : List TFReplayItem}
    {cell : TFCell V}
    {events : List (Event V)}
    {before middle after : TFParser σ V}
    (shows : cell.node.forget = (graph.tree tree).shown)
    (told : Retold sink graph [tree] events)
    (hears : middle.events = before.events ++ events)
    (rebuilds :
      Rebuilds sink lang graph own (base ++ [cell]) rest last items middle
        after) :
    Rebuilds sink lang graph own base (tree :: rest) last items before
      after := by
  obtain ⟨reached, rebuilt, others, plan, amid, showsRest, hearsRest,
    toldRest, order, performs⟩ := rebuilds.done
  refine ⟨reached, cell :: rebuilt, events ++ others, plan, ?_, ?_, ?_,
    told.append toldRest, order, performs⟩
  · rw [List.append_assoc] at amid
    exact amid
  · unfold Shows at showsRest ⊢
    rw [List.map_cons, List.map_cons, shows, showsRest]
  · rw [hearsRest, hears, List.append_assoc]

section Rows

variable {sink : TFSink σ V}
variable {lang : TFLanguage}
variable {graph : TFSpec}
variable {own : List (TFCell V)}
variable
  (isOwn : graph.owner.cells = own.map TFCell.forget)
  (stack : LrStack lang own)

include isOwn stack

/-- A row of trees is rebuilt on top of what has been rebuilt before it. -/
theorem rebuilds_row
    {base : List (TFCell V)}
    {first last : Nat}
    {trees : List Nat}
    {items : List TFReplayItem}
    {plan : List Replayed}
    {before after : TFParser σ V}
    (row : TFSpec.Replayable graph first trees last)
    (grafted : ∀ tree ∈ trees, TFSpec.Grafted graph tree)
    (amid : Amid own base first before)
    (order : Postorder graph.tree (trees.map .visit ++ items) plan)
    (performed : Performs sink lang plan before after) :
    Rebuilds sink lang graph own base trees last items before after := by
  induction row generalizing base items plan before with
  | nil byte =>
      exact ⟨before, [], [], plan, by rwa [List.append_nil], rfl,
        (List.append_nil _).symm, .nil, order, performed⟩
  | @inherited first last tree rest within padding spans isInherited
      uncounted below later inductionHypothesis =>
      have graftedRest :
          ∀ other ∈ rest, TFSpec.Grafted graph other :=
        fun other member => grafted other (List.mem_cons_of_mem _ member)
      cases order with
      | leaf owned => cases owned.symm.trans isInherited
      | parent owned => cases owned.symm.trans isInherited
      | inherited _ orderRest =>
          cases grafted tree (List.mem_cons_self ..) with
          | leaf _ owned => cases owned.symm.trans isInherited
          | parent _ owned => cases owned.symm.trans isInherited
          | @inherited _ index _ _ shows starts =>
              have ends_ := congrArg TFNode.endByte shows
              change _ = (graph.tree tree).token.endByte at ends_
              rw [← ends_] at spans
              have isCell := TFSpec.cell_of_spans spans
              generalize graph.owner.cells.getD index default = cell
                at shows ends_ isCell
              rw [isOwn, List.getElem?_map] at isCell
              obtain ⟨ownCell, isOwnCell, rfl⟩ :=
                Option.map_eq_some_iff.mp isCell
              have ends_ :
                  ownCell.node.endByte = (graph.tree tree).token.endByte :=
                congrArg TFNode.endByte shows
              have startsOwn : first = topByte (own.take index) := by
                rw [← padding, starts, isOwn, ← List.map_take,
                  topByte_forget]
              obtain ⟨rebuilt, isNode, amidNow⟩ :=
                amid.inherited stack isOwnCell startsOwn
              rw [ends_] at amidNow
              have showsTree :
                  rebuilt.node.forget = (graph.tree tree).shown := by
                rw [isNode]
                exact shows
              exact .cons showsTree (.inherited isInherited .nil)
                (List.append_nil _).symm
                (inductionHypothesis graftedRest amidNow orderRest performed)
  | @leaf first last tree rest within padding spans owned isLeaf uncounted
      beyond later inductionHypothesis =>
      have graftedRest :
          ∀ other ∈ rest, TFSpec.Grafted graph other :=
        fun other member => grafted other (List.mem_cons_of_mem _ member)
      cases order with
      | inherited isInherited => cases owned.symm.trans isInherited
      | parent _ inner => cases isLeaf.symm.trans inner
      | leaf _ _ orderRest =>
          obtain ⟨ready, shifted, quiet, shifts, performedRest⟩ :=
            performed.leaf_first
          have high : topByte own ≤ first := by
            rw [isOwn, topByte_forget] at beyond
            exact beyond
          obtain ⟨rebuilt, value, shows, amidNow, hears⟩ :=
            (amid.quiet quiet).leaf stack high spans shifts
          have told :
              Retold sink graph [tree]
                (sink.shiftEvents (graph.tree tree).token
                  (graph.tree tree).extra value ++ []) :=
            .leaf owned isLeaf .nil
          rw [List.append_nil] at told
          rw [quiet.events] at hears
          exact .cons shows told hears
            (inductionHypothesis graftedRest amidNow orderRest performedRest)
  | @parent first last tree rest within padding spans owned inner counts
      children later childrenHypothesis inductionHypothesis =>
      have graftedRest :
          ∀ other ∈ rest, TFSpec.Grafted graph other :=
        fun other member => grafted other (List.mem_cons_of_mem _ member)
      cases order with
      | inherited isInherited => cases owned.symm.trans isInherited
      | leaf _ isLeaf => cases isLeaf.symm.trans inner
      | parent _ _ orderChildren =>
          cases grafted tree (List.mem_cons_self ..) with
          | inherited _ isInherited => cases owned.symm.trans isInherited
          | leaf _ _ isLeaf => cases isLeaf.symm.trans inner
          | parent _ _ _ plain tiled framed covers graftedChildren =>
              obtain ⟨reached, kids, events, plan, amidKids, showsKids, hears,
                told, orderReduce, performedReduce⟩ :=
                (childrenHypothesis graftedChildren amid orderChildren
                  performed).done
              have coversOwn :
                  TFSpec.Covers own (graph.tree tree).token.endByte := by
                intro cell member structural
                refine covers cell.forget ?_ structural
                rw [isOwn]
                exact List.mem_map_of_mem member
              cases orderReduce with
              | reduce orderRest =>
                  obtain ⟨ready, reduced, quiet, reduces, performedRest⟩ :=
                    performedReduce.parent_first
                  obtain ⟨rebuilt, reduction, value, shows, amidNow, reports,
                    hearsReduce⟩ :=
                    (amidKids.quiet quiet).parent stack coversOwn plain tiled
                      framed counts showsKids reduces
                  have toldTree :
                      Retold sink graph [tree]
                        (events ++
                          (sink.reduceEvents reduction value ++ [])) :=
                    .parent owned inner told reports .nil
                  rw [List.append_nil] at toldTree
                  have hearsTree :
                      reduced.events =
                        before.events ++
                          (events ++ sink.reduceEvents reduction value) := by
                    rw [hearsReduce, quiet.events, hears, List.append_assoc]
                  exact .cons shows toldTree hearsTree
                    (inductionHypothesis graftedRest amidNow orderRest
                      performedRest)

end Rows

end TFParser

end TreeFeller
