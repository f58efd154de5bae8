import TreeFeller.Driver

namespace TreeFeller

/-!
# Raw event sequences

What a sink sees of a successful parse: shifts and reductions over one stack,
and last the root's reduction with the end token.  Nothing of the lexer, of
speculation or of the stack's memory is left here, so the same sequence can be
handed to different sinks.  The tree a sequence builds is what a sink that
keeps everything it is handed returns for the root.
-/

/-- A raw event before the root's. -/
inductive RawEvent where
  | shift (token : TFToken) (extra : Bool) (state : TSStateId)
  | reduce
      (symbol : TSSymbol)
      (childCount productionId : Nat)
      (state : TSStateId)
  deriving Repr, DecidableEq

namespace RawEvent

/-- The symbol an event puts on the stack. -/
def symbol : RawEvent → TSSymbol
  | .shift token _ _ => token.symbol
  | .reduce symbol _ _ _ => symbol

end RawEvent

/-- Hand a token to a sink. -/
def TFSink.callShift {σ V : Type}
    (sink : TFSink σ V)
    (token : TFToken)
    (extra : Bool)
    (payload : σ)
    (heap : Heap) :
    Option V × σ × Heap :=
  match sink.onShift with
  | none => (none, payload, heap)
  | some onShift => onShift token extra payload heap

/-- Hand a reduction to a sink. -/
def TFSink.callReduce {σ V : Type}
    (sink : TFSink σ V)
    (reduction : TFReduction V)
    (payload : σ)
    (heap : Heap) :
    Option V × σ × Heap :=
  match sink.onReduce with
  | none => (none, payload, heap)
  | some onReduce => onReduce reduction payload heap

/-- The stack a sink's values stand on, the sink's payload, the allocator. -/
structure RawStack (σ V : Type) where
  cells : List (TFCell V)
  payload : σ
  heap : Heap

namespace RawStack

variable {σ V : Type}

/-- The cells after a reduction. -/
def placed
    (cut : TFParser.Popped V)
    (parent : TFNode V)
    (state : TSStateId) :
    List (TFCell V) :=
  cut.below ++ [⟨parent, state⟩] ++
    cut.trailing.map (fun cell => { cell with state := state })

/-- One event, handed to a sink. -/
def step
    (sink : TFSink σ V)
    (self : RawStack σ V) :
    RawEvent → Option (RawStack σ V)
  | .shift token extra state =>
      let answer := sink.callShift token extra self.payload self.heap
      some ⟨self.cells ++ [⟨token.node extra answer.1, state⟩],
        answer.2.1, answer.2.2⟩
  | .reduce symbol childCount productionId state =>
      match TFParser.popped self.cells childCount with
      | none => none
      | some cut =>
          let own :=
            TFParser.reductionOf self.cells cut.children symbol childCount
              productionId
          let answer := sink.callReduce own self.payload self.heap
          some ⟨placed cut (TFParser.parentNode own answer.1) state,
            answer.2.1, answer.2.2⟩

/-- A sequence of events, handed to a sink. -/
def run (sink : TFSink σ V) : List RawEvent → RawStack σ V →
    Option (RawStack σ V)
  | [], self => some self
  | event :: rest, self =>
      match self.step sink event with
      | none => none
      | some next => run sink rest next

/-- The root's reduction, handed to a sink: the value it returns. -/
def close
    (sink : TFSink σ V)
    (self : RawStack σ V)
    (symbol : TSSymbol)
    (childCount productionId : Nat)
    (endToken : TFToken) :
    Option (Option V × σ × Heap) :=
  match TFParser.popped self.cells childCount with
  | none => none
  | some cut =>
      let own :=
        TFParser.reductionOf self.cells cut.children symbol childCount
          productionId
      let ended := sink.callShift endToken true self.payload self.heap
      some (sink.callReduce
        (TFParser.rootReduction self.cells own endToken ended.1)
        ended.2.1 ended.2.2)

end RawStack

/-- The raw events of a successful parse: the root's reduction is the last. -/
structure RawParse where
  events : List RawEvent
  symbol : TSSymbol
  childCount : Nat
  productionId : Nat
  endToken : TFToken
  deriving Repr, DecidableEq

namespace RawParse

variable {σ V : Type}

/-- Hand a parse to a sink: the root's value, and what the sink is left with. -/
def run
    (sink : TFSink σ V)
    (self : RawParse)
    (payload : σ)
    (heap : Heap) :
    Option (Option V × σ × Heap) :=
  match RawStack.run sink self.events ⟨[], payload, heap⟩ with
  | none => none
  | some stack =>
      stack.close sink self.symbol self.childCount self.productionId
        self.endToken

/-- The end token ends the root and stands nowhere else. -/
structure EndsAtRoot (parse : RawParse) : Prop where
  endSymbol : parse.endToken.symbol = tsBuiltinSymEnd
  elsewhere : ∀ event ∈ parse.events, event.symbol ≠ tsBuiltinSymEnd

end RawParse

/-- The symbol and the span of a reduction. -/
def TFReduction.span {V : Type} (self : TFReduction V) : TFToken where
  symbol := self.symbol
  startByte := self.startByte
  endByte := self.endByte
  startPoint := self.startPoint
  endPoint := self.endPoint

/-- A raw tree: shifted tokens, and reductions with all their children. -/
inductive RawTree where
  | token (token : TFToken) (extra : Bool)
  | rule (token : TFToken) (productionId : Nat) (children : List RawTree)

namespace RawTree

/-- The symbol and the span of a tree. -/
def at_ : RawTree → TFToken
  | .token shifted _ => shifted
  | .rule reduced _ _ => reduced

/-- Whether a tree is an extra; only tokens are. -/
def extra : RawTree → Bool
  | .token _ extra => extra
  | .rule _ _ _ => false

/-- The production that built a tree; a token was built by none. -/
def productionId : RawTree → Nat
  | .token _ _ => 0
  | .rule _ productionId _ => productionId

/-- The children of a tree. -/
def children : RawTree → List RawTree
  | .token _ _ => []
  | .rule _ _ children => children

/-- The node a tree stands on the stack as, with a value. -/
def node {V : Type} (self : RawTree) (value : Option V) : TFNode V :=
  self.at_.node self.extra value

/-- The tree of a reduction whose values are its children's trees. -/
def ofReduction (reduction : TFReduction RawTree) : RawTree :=
  .rule reduction.span reduction.productionId
    (reduction.children.filterMap TFNode.value)

/-- The sink that keeps everything it is handed. -/
def sink : TFSink Unit RawTree where
  onShift :=
    some (fun shifted extra _ heap =>
      (some (.token shifted extra), (), heap))
  onReduce :=
    some (fun reduction _ heap => (some (ofReduction reduction), (), heap))
  onDiscard := none

end RawTree

/-! ## Two sinks on one sequence -/

namespace TFParser

/-- How far a reduction pops depends on which cells are extra only. -/
theorem scanPop_congr {V V' : Type}
    (childCount : Nat)
    {cells : List (TFCell V)}
    {cells' : List (TFCell V')}
    (same :
      cells.map (fun cell => cell.node.extra) =
        cells'.map (fun cell => cell.node.extra))
    (structural taken trailing : Nat) :
    scanPop childCount cells structural taken trailing =
      scanPop childCount cells' structural taken trailing := by
  induction cells generalizing cells' structural taken trailing with
  | nil =>
      cases cells' with
      | nil =>
          simp [scanPop]
      | cons cell' below' =>
          simp at same
  | cons cell below inductionHypothesis =>
      cases cells' with
      | nil =>
          simp at same
      | cons cell' below' =>
          simp only [List.map_cons, List.cons.injEq] at same
          have later := inductionHypothesis same.2
          simp only [scanPop, same.1, later]

/-- A pop stays within the cells and leaves its trailing extras in it. -/
theorem scanPop_bounds {V : Type}
    {childCount : Nat}
    {cells : List (TFCell V)}
    {structural taken trailing poppedCount trailingCount : Nat}
    (ordered : trailing ≤ taken)
    (scanned :
      scanPop childCount cells structural taken trailing =
        some (poppedCount, trailingCount)) :
    trailingCount ≤ poppedCount ∧ poppedCount ≤ taken + cells.length := by
  induction cells generalizing structural taken trailing with
  | nil =>
      simp only [scanPop] at scanned
      split at scanned
      · cases scanned
      · cases scanned
        exact ⟨ordered, by simp⟩
  | cons cell below inductionHypothesis =>
      simp only [scanPop] at scanned
      split_ifs at scanned
      · have later := inductionHypothesis (by omega) scanned
        simp only [List.length_cons]
        omega
      · have later := inductionHypothesis (by omega) scanned
        simp only [List.length_cons]
        omega
      · have later := inductionHypothesis (by omega) scanned
        simp only [List.length_cons]
        omega
      · cases scanned
        simp only [List.length_cons]
        omega

/-- The cells a pop counts as trailing are extras. -/
theorem extra_of_scanPop {V : Type}
    {childCount : Nat}
    {cells : List (TFCell V)}
    {structural taken trailing poppedCount trailingCount : Nat}
    (scanned :
      scanPop childCount cells structural taken trailing =
        some (poppedCount, trailingCount)) :
    trailing ≤ trailingCount ∧
      (structural ≠ 0 → trailingCount = trailing) ∧
      ∀ cell ∈ cells.take (trailingCount - trailing),
        cell.node.extra = true := by
  induction cells generalizing structural taken trailing with
  | nil =>
      simp only [scanPop] at scanned
      split at scanned
      · cases scanned
      · cases scanned
        simp
  | cons first below inductionHypothesis =>
      simp only [scanPop] at scanned
      split_ifs at scanned with more structuralFirst atTop
      · obtain ⟨_, unchanged, _⟩ := inductionHypothesis scanned
        have same := unchanged (by omega)
        simp [same]
      · obtain ⟨atLeast, _, extras⟩ := inductionHypothesis scanned
        refine ⟨by omega, fun notTop => absurd atTop notTop, ?_⟩
        have split :
            trailingCount - trailing =
              trailingCount - (trailing + 1) + 1 := by
          omega
        rw [split, List.take_succ_cons]
        intro cell member
        rcases List.mem_cons.mp member with isFirst | inBelow
        · subst isFirst
          simpa using structuralFirst
        · exact extras cell inBelow
      · obtain ⟨_, unchanged, _⟩ := inductionHypothesis scanned
        have same := unchanged atTop
        simp [same]
      · cases scanned
        simp

/-- The cells above a reduction's children are extras. -/
theorem extra_of_popped {V : Type}
    {cells : List (TFCell V)}
    {childCount : Nat}
    {cut : Popped V}
    (cuts : popped cells childCount = some cut) :
    ∀ cell ∈ cut.trailing, cell.node.extra = true := by
  simp only [popped, Option.map_eq_some_iff] at cuts
  obtain ⟨counts, scanned, rfl⟩ := cuts
  obtain ⟨_, _, extras⟩ := extra_of_scanPop scanned
  intro cell member
  refine extras cell ?_
  rw [Nat.sub_zero, List.take_reverse]
  exact List.mem_reverse.mpr member

/-- The three parts of a cut make up the stack. -/
theorem cells_of_popped {V : Type}
    {cells : List (TFCell V)}
    {childCount : Nat}
    {cut : Popped V}
    (cuts : popped cells childCount = some cut) :
    cells = cut.below ++ cut.children ++ cut.trailing := by
  simp only [popped, Option.map_eq_some_iff] at cuts
  obtain ⟨⟨poppedCount, trailingCount⟩, scanned, rfl⟩ := cuts
  have bounds := scanPop_bounds (Nat.le_refl 0) scanned
  have below :
      cells.length - poppedCount ≤ cells.length - trailingCount := by
    omega
  have front :
      cells.take (cells.length - poppedCount) ++
          (cells.take (cells.length - trailingCount)).drop
            (cells.length - poppedCount) =
        cells.take (cells.length - trailingCount) := by
    conv_rhs =>
      rw [← List.take_append_drop (cells.length - poppedCount)
        (cells.take (cells.length - trailingCount))]
    rw [List.take_take, Nat.min_eq_left below]
  simp only [front, List.take_append_drop]

/-- Two stacks with the same extras are cut in the same places. -/
theorem popped_congr {V V' : Type}
    {cells : List (TFCell V)}
    {cells' : List (TFCell V')}
    (same :
      cells.map (fun cell => cell.node.extra) =
        cells'.map (fun cell => cell.node.extra))
    {childCount : Nat}
    {cut : Popped V}
    (cuts : popped cells childCount = some cut) :
    ∃ cut',
      popped cells' childCount = some cut' ∧
        cut'.below.length = cut.below.length ∧
        cut'.children.length = cut.children.length ∧
        cut'.trailing.length = cut.trailing.length := by
  have lengths : cells.length = cells'.length := by
    simpa using congrArg List.length same
  have reversed :
      cells.reverse.map (fun cell => cell.node.extra) =
        cells'.reverse.map (fun cell => cell.node.extra) := by
    simp only [List.map_reverse, same]
  simp only [popped, Option.map_eq_some_iff] at cuts
  obtain ⟨counts, scanned, rfl⟩ := cuts
  rw [scanPop_congr childCount reversed] at scanned
  simp only [popped, scanned, Option.map_some]
  refine ⟨_, rfl, ?_⟩
  simp [lengths]

/-- The parts of a cut stand for the parts of what the stack stands for. -/
theorem popped_map {α V : Type}
    {cells : List (TFCell V)}
    {childCount : Nat}
    {cut : Popped V}
    (cuts : popped cells childCount = some cut)
    {labels : List α}
    {label : α → TFNode V}
    (stand : cells.map TFCell.node = labels.map label)
    {below children trailing : List α}
    (parts : labels = below ++ children ++ trailing)
    (belowLength : below.length = cut.below.length)
    (childrenLength : children.length = cut.children.length) :
    cut.below.map TFCell.node = below.map label ∧
      cut.children.map TFCell.node = children.map label ∧
      cut.trailing.map TFCell.node = trailing.map label := by
  rw [cells_of_popped cuts, parts] at stand
  simp only [List.map_append] at stand
  have front :=
    List.append_inj stand (by simp [belowLength, childrenLength])
  have back := List.append_inj front.1 (by simp [belowLength])
  exact ⟨back.1, back.2, front.2⟩

end TFParser

/-! ## The tree a sequence builds -/

namespace RawTree

/-- The trees that the cells of a stack of whole trees stand for. -/
def Stands (trees : List RawTree) (stack : RawStack Unit RawTree) : Prop :=
  stack.cells.map TFCell.node =
    trees.map (fun tree => tree.node (some tree))

namespace Stands

/-- A shifted token stands for itself. -/
theorem shift
    {trees : List RawTree}
    {stack stack' : RawStack Unit RawTree}
    (stands : Stands trees stack)
    {shifted : TFToken}
    {extra : Bool}
    {state : TSStateId}
    (stepped :
      stack.step sink (.shift shifted extra state) = some stack') :
    Stands (trees ++ [.token shifted extra]) stack' := by
  simp only [RawStack.step, TFSink.callShift, sink,
    Option.some.injEq] at stepped
  subst stepped
  simp only [Stands, List.map_append] at stands ⊢
  rw [stands]
  rfl

/-- The values of a list of cells are the trees they stand for. -/
theorem values
    {cells : List (TFCell RawTree)}
    {trees : List RawTree}
    (stand :
      cells.map TFCell.node = trees.map (fun tree => tree.node (some tree))) :
    (cells.map TFCell.node).filterMap TFNode.value = trees := by
  rw [stand, List.filterMap_map]
  exact List.filterMap_some

/-- A stack stands for one list of trees only. -/
theorem unique
    {trees other : List RawTree}
    {stack : RawStack Unit RawTree}
    (stands : Stands trees stack)
    (standsOther : Stands other stack) :
    trees = other := by
  rw [← values stands, values standsOther]

/-- A cut of the cells cuts the trees they stand for. -/
theorem split
    {trees : List RawTree}
    {stack : RawStack Unit RawTree}
    (stands : Stands trees stack)
    {childCount : Nat}
    {cut : TFParser.Popped RawTree}
    (cuts : TFParser.popped stack.cells childCount = some cut) :
    ∃ below children trailing,
      trees = below ++ children ++ trailing ∧
        below.length = cut.below.length ∧
        children.length = cut.children.length := by
  have lengths : trees.length = stack.cells.length := by
    simpa using (congrArg List.length stands).symm
  have parts := congrArg List.length (TFParser.cells_of_popped cuts)
  simp only [List.length_append] at parts
  refine
    ⟨trees.take cut.below.length,
      (trees.drop cut.below.length).take cut.children.length,
      (trees.drop cut.below.length).drop cut.children.length, ?_, ?_, ?_⟩
  · rw [List.append_assoc, List.take_append_drop, List.take_append_drop]
  · simp only [List.length_take]
    omega
  · simp only [List.length_take, List.length_drop]
    omega

/-- The trees above a reduction's children are extras. -/
theorem extra_of_trailing
    {trees : List RawTree}
    {stack : RawStack Unit RawTree}
    (stands : Stands trees stack)
    {childCount : Nat}
    {cut : TFParser.Popped RawTree}
    (cuts : TFParser.popped stack.cells childCount = some cut)
    {below children trailing : List RawTree}
    (parts : trees = below ++ children ++ trailing)
    (belowLength : below.length = cut.below.length)
    (childrenLength : children.length = cut.children.length) :
    ∀ tree ∈ trailing, tree.extra = true := by
  intro tree member
  have nodes :=
    (TFParser.popped_map cuts stands parts belowLength childrenLength).2.2
  have inNodes :
      tree.node (some tree) ∈ cut.trailing.map TFCell.node := by
    rw [nodes]
    exact List.mem_map_of_mem member
  obtain ⟨cell, cellMember, cellNode⟩ := List.mem_map.mp inNodes
  have isExtra := TFParser.extra_of_popped cuts cell cellMember
  rw [cellNode] at isExtra
  exact isExtra

/-- A reduction puts the tree of its children in their place. -/
theorem reduce
    {trees : List RawTree}
    {stack stack' : RawStack Unit RawTree}
    (stands : Stands trees stack)
    {symbol : TSSymbol}
    {childCount productionId : Nat}
    {state : TSStateId}
    (stepped :
      stack.step sink (.reduce symbol childCount productionId state) =
        some stack') :
    ∃ cut,
      TFParser.popped stack.cells childCount = some cut ∧
        ∀ below children trailing,
          trees = below ++ children ++ trailing →
          below.length = cut.below.length →
          children.length = cut.children.length →
          Stands
            (below ++
              [.rule
                (TFParser.reductionOf stack.cells cut.children symbol
                  childCount productionId).span
                productionId children] ++
              trailing)
            stack' := by
  simp only [RawStack.step] at stepped
  split at stepped
  · cases stepped
  rename_i cut cuts
  refine ⟨cut, cuts, ?_⟩
  intro below children trailing parts belowLength childrenLength
  obtain ⟨standBelow, standChildren, standTrailing⟩ :=
    TFParser.popped_map cuts stands parts belowLength childrenLength
  simp only [TFSink.callReduce, sink, Option.some.injEq] at stepped
  subst stepped
  simp only [Stands, RawStack.placed, List.map_append, standBelow,
    List.map_cons, List.map_nil, List.map_map]
  congr 1
  congr 1
  simp only [List.cons.injEq, and_true]
  have tree :
      ofReduction
          (TFParser.reductionOf stack.cells cut.children symbol childCount
            productionId) =
        .rule
          (TFParser.reductionOf stack.cells cut.children symbol childCount
            productionId).span
          productionId children := by
    rw [ofReduction]
    congr 1
    exact values standChildren
  rw [tree]
  rfl

/-- The root's tree takes every tree of the stack and the end token. -/
theorem close
    {trees : List RawTree}
    {stack : RawStack Unit RawTree}
    (stands : Stands trees stack)
    {symbol : TSSymbol}
    {childCount productionId : Nat}
    {endToken : TFToken}
    {tree : Option RawTree}
    {rest : Unit × Heap}
    (closed :
      stack.close sink symbol childCount productionId endToken =
        some (tree, rest)) :
    ∃ cut,
      TFParser.popped stack.cells childCount = some cut ∧
        tree =
          some (.rule
            (TFParser.rootReduction stack.cells
              (TFParser.reductionOf stack.cells cut.children symbol
                childCount productionId)
              endToken none).span
            productionId (trees ++ [.token endToken true])) := by
  simp only [RawStack.close] at closed
  split at closed
  · cases closed
  rename_i cut cuts
  refine ⟨cut, cuts, ?_⟩
  simp only [TFSink.callReduce, TFSink.callShift, sink,
    Option.some.injEq, Prod.mk.injEq] at closed
  rw [← closed.1, ofReduction]
  congr 2
  simp only [TFParser.rootReduction, List.filterMap_append]
  congr 1
  exact values stands

end Stands

end RawTree

/-- The tree a parse builds. -/
def RawParse.tree (self : RawParse) : Option RawTree :=
  (self.run RawTree.sink () .reliable).bind Prod.fst

end TreeFeller
