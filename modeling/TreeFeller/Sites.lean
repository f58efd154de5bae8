import TreeFeller.Columns
import TreeFeller.Frames
import TreeFeller.Graphs

/-!
# The positions in a graph

A split's graph copies positions and computes none: of the cells it unrolls,
of the tokens it shifts, and of the trees and nodes it has.  So when what it
starts from lies on the path of the source, all of it does.

The point of an accepted root is the one exception that is used with another
byte: the end token made for it stands at the end of the input.  A finished
root therefore has to end there.
-/

namespace TreeFeller

open StatefulProgram
open TFLexer

/-- A token whose start and end lie on the path of a source. -/
structure TFToken.Placed (source : List UInt8) (token : TFToken) : Prop where
  start : OnPath source (token.startByte, token.startPoint)
  ending : OnPath source (token.endByte, token.endPoint)

/-- A terminal on the path, at the end of the input if it is the end token. -/
structure TFToken.Sound
    (lang : TFLanguage)
    (source : List UInt8)
    (token : TFToken) : Prop where
  placed : token.Placed source
  terminal : token.symbol < lang.ts.tokenCount
  ends : token.symbol = tsBuiltinSymEnd → token.endByte = source.length

/-- A node of the parse stack whose start and end lie on the path. -/
structure TFNode.Placed {V : Type}
    (source : List UInt8)
    (node : TFNode V) : Prop where
  start : OnPath source (node.startByte, node.startPoint)
  ending : OnPath source (node.endByte, node.endPoint)

/-- The start of a buffer is on its path. -/
theorem onPath_origin (source : List UInt8) :
    OnPath source (0, .origin) :=
  onPath_init source

/-- A zeroed token is on the path. -/
theorem placed_default (source : List UInt8) :
    (default : TFToken).Placed source :=
  ⟨onPath_origin source, onPath_origin source⟩

/-- A stack of placed cells ends on the path. -/
theorem onPath_top {V : Type}
    {source : List UInt8}
    {cells : List (TFCell V)}
    (placed : ∀ cell ∈ cells, cell.node.Placed source) :
    OnPath source (topByte cells, topPoint cells) := by
  unfold topByte topPoint
  cases last : cells.getLast? with
  | none =>
      exact onPath_origin source
  | some cell =>
      exact (placed cell (List.mem_of_getLast? last)).ending

/-- What stays of a tree: its token, and whether it is an extra. -/
def TFSpecTree.sight (self : TFSpecTree) : TFToken × Bool :=
  (self.token, self.extra)

/-- Where a node of the graph stands. -/
def TFSpecNode.place (self : TFSpecNode) : Nat × TFPoint :=
  (self.byte, self.point)

namespace TFSpec

open Program

/--
A graph all of whose positions lie on the path of a source.  Some of its trees
may be marked, by what stays of them.
-/
structure Sited
    (lang : TFLanguage)
    (source : List UInt8)
    (marks : List (Nat × TFToken × Bool))
    (graph : TFSpec) : Prop where
  sights :
    ∀ sight ∈ graph.trees.map TFSpecTree.sight, sight.1.Placed source
  marked :
    ∀ mark ∈ marks,
      (graph.trees.map TFSpecTree.sight)[mark.1]? = some mark.2
  places : ∀ place ∈ graph.nodes.map TFSpecNode.place, OnPath source place
  cells : ∀ cell ∈ graph.owner.cells, cell.node.Placed source
  cached : graph.cached.Sound lang source
  keyword :
    graph.cachedKeyword = true →
      lang.ts.keywordCaptureToken ≠ tsBuiltinSymEnd
  error : OnPath source (graph.errorByte, graph.errorPoint)
  finished :
    ∀ root, graph.finished = some root →
      ∃ sight,
        (graph.trees.map TFSpecTree.sight)[root]? = some sight ∧
          sight.1.endByte = source.length

/-- The positions in a graph, and what they belong to. -/
structure Positions where
  sights : List (TFToken × Bool)
  places : List (Nat × TFPoint)
  owner : TFSpecOwner
  cached : TFToken
  cachedKeyword : Bool
  error : Nat × TFPoint
  finished : Option Nat

/-- The positions in a graph. -/
def positions (self : TFSpec) : Positions where
  sights := self.trees.map TFSpecTree.sight
  places := self.nodes.map TFSpecNode.place
  owner := self.owner
  cached := self.cached
  cachedKeyword := self.cachedKeyword
  error := (self.errorByte, self.errorPoint)
  finished := self.finished

/-- The positions in a graph, its slices, and how many heads it has. -/
def outline (self : TFSpec) : Positions × List TFSpecSlice × Nat :=
  (self.positions, self.slices, self.heads.length)

/-- Changing an entry of a list leaves what the change leaves. -/
theorem map_modify_same {α β : Type}
    {project : α → β}
    {change : α → α}
    (same : ∀ entry, project (change entry) = project entry)
    (index : Nat)
    (entries : List α) :
    (entries.modify index change).map project = entries.map project := by
  apply List.ext_getElem?
  intro at_
  rw [List.getElem?_map, List.getElem?_map, List.getElem?_modify]
  split
  · cases entries[at_]? with
    | none => rfl
    | some entry => exact congrArg some (same entry)
  · cases entries[at_]? <;> rfl

section Placing

variable {lang : TFLanguage}
variable {source : List UInt8}
variable {marks : List (Nat × TFToken × Bool)}
variable {before after self : TFSpec}

/-- Positions are all that is asked for. -/
theorem Sited.aside
    (sited : before.Sited lang source marks)
    (same : after.positions = before.positions) :
    after.Sited lang source marks := by
  obtain ⟨sights, places, owner, cached, keyword, error, finished⟩ :=
    Positions.mk.inj same
  refine ⟨?_, ?_, ?_, ?_, ?_, ?_, ?_, ?_⟩
  · rw [sights]
    exact sited.sights
  · rw [sights]
    exact sited.marked
  · rw [places]
    exact sited.places
  · rw [owner]
    exact sited.cells
  · rw [cached]
    exact sited.cached
  · rw [keyword]
    exact sited.keyword
  · rw [error]
    exact sited.error
  · rw [finished, sights]
    exact sited.finished

/-- A tree stands on the path. -/
theorem Sited.tree
    (sited : self.Sited lang source marks)
    (index : Nat) :
    (self.tree index).token.Placed source := by
  unfold TFSpec.tree
  rw [List.getD_eq_getElem?_getD]
  cases found : self.trees[index]? with
  | none =>
      exact placed_default source
  | some tree =>
      exact sited.sights _
        (List.mem_map_of_mem (List.mem_of_getElem? found))

/-- A node stands on the path. -/
theorem Sited.node
    (sited : self.Sited lang source marks)
    (index : Nat) :
    OnPath source ((self.node index).byte, (self.node index).point) := by
  unfold TFSpec.node
  rw [List.getD_eq_getElem?_getD]
  cases found : self.nodes[index]? with
  | none =>
      exact onPath_origin source
  | some node =>
      exact sited.places _
        (List.mem_map_of_mem (List.mem_of_getElem? found))

/-- A cell of the owner's stack stands on the path. -/
theorem Sited.cell
    (sited : self.Sited lang source marks)
    (index : Nat) :
    (self.owner.cells.getD index default).node.Placed source := by
  rw [List.getD_eq_getElem?_getD]
  cases found : self.owner.cells[index]? with
  | none =>
      exact ⟨onPath_origin source, onPath_origin source⟩
  | some cell =>
      exact sited.cells _ (List.mem_of_getElem? found)

/-- A finished root ends at the end of the input. -/
theorem Sited.root
    (sited : self.Sited lang source marks)
    {root : Nat}
    (finished : self.finished = some root) :
    (self.tree root).token.endByte = source.length := by
  obtain ⟨sight, found, ends⟩ := sited.finished root finished
  rw [List.getElem?_map] at found
  obtain ⟨tree, there, rfl⟩ := Option.map_eq_some_iff.mp found
  unfold TFSpec.tree
  rw [List.getD_eq_getElem?_getD, there]
  exact ends

/-- Adding a tree that stands on the path. -/
theorem Sited.addTree
    (sited : self.Sited lang source marks)
    {tree : TFSpecTree}
    (placed : tree.token.Placed source) :
    Sited lang source marks { self with trees := self.trees ++ [tree] } where
  sights := by
    intro sight member
    rw [List.map_append] at member
    rcases List.mem_append.mp member with old | isNew
    · exact sited.sights sight old
    · rw [List.map_singleton] at isNew
      rw [List.mem_singleton.mp isNew]
      exact placed
  marked := by
    intro mark isMarked
    have found := sited.marked mark isMarked
    have inRange := (List.getElem?_eq_some_iff.mp found).1
    rw [List.map_append, List.getElem?_append_left inRange]
    exact found
  places := sited.places
  cells := sited.cells
  cached := sited.cached
  keyword := sited.keyword
  error := sited.error
  finished := by
    intro root finished
    obtain ⟨sight, found, ends⟩ := sited.finished root finished
    refine ⟨sight, ?_, ends⟩
    have inRange := (List.getElem?_eq_some_iff.mp found).1
    rw [List.map_append, List.getElem?_append_left inRange]
    exact found

/-- A marked tree is where it was marked. -/
theorem Sited.tree_marked
    (sited : self.Sited lang source marks)
    {mark : Nat × TFToken × Bool}
    (isMarked : mark ∈ marks) :
    (self.tree mark.1).sight = mark.2 := by
  have found := sited.marked mark isMarked
  rw [List.getElem?_map] at found
  obtain ⟨tree, there, same⟩ := Option.map_eq_some_iff.mp found
  unfold TFSpec.tree
  rw [List.getD_eq_getElem?_getD, there]
  exact same

/-- Marking a tree of the graph, and forgetting other marks. -/
theorem Sited.remark
    (sited : self.Sited lang source marks)
    {others : List (Nat × TFToken × Bool)}
    (there :
      ∀ mark ∈ others,
        mark ∈ marks ∨
          (self.trees.map TFSpecTree.sight)[mark.1]? = some mark.2) :
    self.Sited lang source others where
  sights := sited.sights
  marked := by
    intro mark isMarked
    rcases there mark isMarked with old | isNew
    · exact sited.marked mark old
    · exact isNew
  places := sited.places
  cells := sited.cells
  cached := sited.cached
  keyword := sited.keyword
  error := sited.error
  finished := sited.finished

/-- Adding a node that stands on the path. -/
theorem Sited.addNode
    (sited : self.Sited lang source marks)
    {node : TFSpecNode}
    (placed : OnPath source node.place) :
    Sited lang source marks { self with nodes := self.nodes ++ [node] } where
  sights := sited.sights
  marked := sited.marked
  places := by
    intro place member
    rw [List.map_append] at member
    rcases List.mem_append.mp member with old | isNew
    · exact sited.places place old
    · rw [List.map_singleton] at isNew
      rw [List.mem_singleton.mp isNew]
      exact placed
  cells := sited.cells
  cached := sited.cached
  keyword := sited.keyword
  error := sited.error
  finished := sited.finished

/-- The tree of a reduction stands on the path. -/
theorem Sited.parentTree
    (sited : self.Sited lang source marks)
    (symbol : TSSymbol)
    (production structural : Nat)
    (children : List Nat)
    (base : Nat) :
    (self.parentTree symbol production structural children
      base).token.Placed source := by
  unfold TFSpec.parentTree
  refine ⟨?_, ?_⟩
  · cases children.head? with
    | none => exact sited.node base
    | some first => exact (sited.tree first).start
  · cases children.getLast? with
    | none => exact sited.node base
    | some last => exact (sited.tree last).ending

/-- Changing a node but not its place changes no position. -/
theorem outline_modifyNode
    (self : TFSpec)
    (index : Nat)
    {change : TFSpecNode → TFSpecNode}
    (same : ∀ node, (change node).place = node.place) :
    (self.modifyNode index change).outline = self.outline := by
  unfold outline positions TFSpec.modifyNode
  rw [map_modify_same same]

/-- Changing a tree but not what stays of it changes no position. -/
theorem outline_modifyTree
    (self : TFSpec)
    (index : Nat)
    {change : TFSpecTree → TFSpecTree}
    (same : ∀ tree, (change tree).sight = tree.sight) :
    (self.modifyTree index change).outline = self.outline := by
  unfold outline positions TFSpec.modifyTree
  rw [map_modify_same same]

/-- Resolving a shape changes no position. -/
theorem outline_resolve
    (self : TFSpec)
    (k : Nat) :
    (self.resolve k).outline = self.outline := by
  unfold TFSpec.resolve
  exact outline_modifyTree self _ (fun _ => rfl)

/-- Recording a failure at a position on the path. -/
theorem Sited.recordError
    (sited : self.Sited lang source marks)
    {byte : Nat}
    {point : TFPoint}
    (onPath : OnPath source (byte, point))
    (state : TSStateId)
    (symbol : TSSymbol)
    (isLex : Bool) :
    Sited lang source marks
      (self.recordError byte point state symbol isLex) := by
  unfold TFSpec.recordError
  split
  · exact sited
  · exact
      { sights := sited.sights
        marked := sited.marked
        places := sited.places
        cells := sited.cells
        cached := sited.cached
        keyword := sited.keyword
        error := onPath
        finished := sited.finished }

/-- Unrolling one cell changes neither slices nor heads. -/
theorem slices_unrolled
    (self : TFSpec) :
    self.unrolled.slices = self.slices ∧
      self.unrolled.heads = self.heads := by
  unfold TFSpec.unrolled
  dsimp only
  split <;> exact ⟨rfl, rfl⟩

/-- Unrolling one cell keeps the positions on the path. -/
theorem Sited.unrolled
    (sited : self.Sited lang source marks) :
    self.unrolled.Sited lang source marks := by
  have cell := sited.cell (self.prefixLeft - 1)
  have below :
      ∀ cell ∈ self.owner.cells.take (self.prefixLeft - 1),
        cell.node.Placed source :=
    fun cell member => sited.cells cell (List.mem_of_mem_take member)
  have grown :
      Sited lang source marks
        { self with
          trees := self.trees ++
            [inheritedTree
              (self.owner.cells.getD (self.prefixLeft - 1) default).node
              (topByte (self.owner.cells.take (self.prefixLeft - 1)))] } :=
    sited.addTree ⟨cell.start, cell.ending⟩
  have bottom :
      OnPath source
        (TFSpecNode.place {
          state := stateAt self.owner.cells (self.prefixLeft - 1)
          byte := topByte (self.owner.cells.take (self.prefixLeft - 1))
          point := topPoint (self.owner.cells.take (self.prefixLeft - 1))
          precedence := 0
          links := []
          linkCapacity := 0 }) :=
    onPath_top below
  have linked :
      ∀ node : TFSpecNode,
        TFSpecNode.place
            { node with
              links := [⟨self.nodes.length, self.trees.length⟩]
              linkCapacity := 1 } =
          node.place :=
    fun _ => rfl
  have joined :=
    (grown.addNode bottom).aside
      (congrArg Prod.fst (outline_modifyNode _ self.frontier linked))
  unfold TFSpec.unrolled
  dsimp only
  split
  · exact joined.aside
      (congrArg Prod.fst (outline_resolve _ self.prefixTree.length))
  · exact joined.aside rfl

end Placing

end TFSpec

end TreeFeller
