import TreeFeller.StackEdits

namespace TreeFeller

open StatefulProgram

/-!
# The real stack under a graph of LR stacks

Unrolling a cell gives the frontier the link that the driver's own push of that
cell stands for.  Recovering shapes adds trees that no reduction of the graph
built, and fills in the children of inherited trees only.
-/

/-- The byte above a cell is the cell's end. -/
theorem topByte_take_succ {V : Type}
    {cells : List (TFCell V)}
    {index : Nat}
    {cell : TFCell V}
    (isCell : cells[index]? = some cell) :
    topByte (cells.take (index + 1)) = cell.node.endByte := by
  unfold topByte
  rw [List.take_add_one, isCell]
  simp

/-- The state above a cell is the cell's. -/
theorem stateAt_succ {V : Type}
    {cells : List (TFCell V)}
    {index : Nat}
    {cell : TFCell V}
    (isCell : cells[index]? = some cell) :
    stateAt cells (index + 1) = cell.state := by
  change ((cells[index]?).map TFCell.state).getD 0 = cell.state
  rw [isCell]
  rfl

/-- No cell of a stack ends beyond the one on top. -/
theorem LrStack.topByte_take_le {V : Type}
    {lang : TFLanguage}
    {cells : List (TFCell V)}
    (stack : LrStack lang cells)
    (count : Nat) :
    topByte (cells.take count) ≤ topByte cells := by
  have next :
      ∀ index,
        topByte (cells.take index) ≤ topByte (cells.take (index + 1)) := by
    intro index
    cases isCell : cells[index]? with
    | none =>
        have outside := List.getElem?_eq_none_iff.mp isCell
        refine Nat.le_of_eq (congrArg topByte ?_)
        rw [List.take_of_length_le outside,
          List.take_of_length_le (Nat.le_succ_of_le outside)]
    | some cell =>
        rw [topByte_take_succ isCell]
        exact Nat.le_of_lt (stack.bytes index cell isCell)
  have later :
      ∀ more,
        topByte (cells.take count) ≤ topByte (cells.take (count + more)) := by
    intro more
    induction more with
    | zero =>
        exact Nat.le_refl _
    | succ more inductionHypothesis =>
        exact Nat.le_trans inductionHypothesis (next _)
  have whole := later cells.length
  rw [List.take_of_length_le (Nat.le_add_left _ _)] at whole
  exact whole

namespace TFSpec

open Program

section Unrolled

variable {lang : TFLanguage}
variable {ends roots : Nat → Prop}

/-- The node that unrolling adds, below the cell. -/
def bottomNode (self : TFSpec) : TFSpecNode where
  state := stateAt self.owner.cells (self.prefixLeft - 1)
  byte := topByte (self.owner.cells.take (self.prefixLeft - 1))
  point := topPoint (self.owner.cells.take (self.prefixLeft - 1))
  precedence := 0
  links := []
  linkCapacity := 0

/-- The tree that unrolling adds, for the cell. -/
def cellTree (self : TFSpec) : TFSpecTree :=
  inheritedTree
    (self.owner.cells.getD (self.prefixLeft - 1) default).node
    (topByte (self.owner.cells.take (self.prefixLeft - 1)))

/-- What unrolling leaves beside nodes and trees. -/
theorem rest_unrolled (self : TFSpec) :
    self.unrolled.owner = self.owner ∧
      self.unrolled.frontier = self.nodes.length ∧
      self.unrolled.prefixLeft = self.prefixLeft - 1 ∧
      self.unrolled.heads = self.heads := by
  unfold unrolled
  dsimp only
  split
  · exact ⟨rfl, rfl, rfl, rfl⟩
  · exact ⟨rfl, rfl, rfl, rfl⟩

/-- The nodes after unrolling. -/
theorem node_unrolled
    (self : TFSpec)
    (within : self.frontier < self.nodes.length)
    (index : Nat) :
    self.unrolled.node index =
      if index = self.frontier then
        { self.node self.frontier with
          links := [⟨self.nodes.length, self.trees.length⟩]
          linkCapacity := 1 }
      else if index = self.nodes.length then
        self.bottomNode
      else
        self.node index := by
  have nodes :
      self.unrolled.nodes =
        (self.nodes ++ [self.bottomNode]).modify self.frontier (fun node =>
          { node with
            links := [⟨self.nodes.length, self.trees.length⟩]
            linkCapacity := 1 }) := by
    unfold unrolled
    dsimp only
    split
    · rfl
    · rfl
  have appended := node_append self self.bottomNode index
  unfold TFSpec.node at appended ⊢
  rw [nodes, List.getD_eq_getElem?_getD, List.getElem?_modify]
  dsimp only at appended
  rw [List.getD_eq_getElem?_getD] at appended
  by_cases here : index = self.frontier
  · subst here
    rw [List.getElem?_append_left within, List.getElem?_eq_getElem within,
      List.getD_eq_getElem _ _ within]
    simp
  · have elsewhere : self.frontier ≠ index := fun same => here same.symm
    rw [if_neg here, ← appended]
    simp [elsewhere]

/-- The tree that unrolling adds, with its shape or without. -/
theorem cellTree_unrolled
    (self : TFSpec) :
    SameTree self.cellTree (self.unrolled.tree self.trees.length) := by
  have added :
      ∀ {graph : TFSpec},
        graph.trees = self.trees ++ [self.cellTree] →
          graph.tree self.trees.length = self.cellTree := by
    intro graph trees
    rw [tree_append trees, if_pos rfl]
  unfold unrolled
  dsimp only
  split
  · unfold resolve
    dsimp only
    rw [tree_modifyTree]
    split
    · rw [added rfl]
      exact ⟨rfl, rfl, rfl, rfl, rfl, rfl, nofun⟩
    · rw [added rfl]
      exact .refl _
  · rw [added rfl]
    exact .refl _

/-- Unrolling changes no node's state or byte. -/
theorem evolves_unrolled
    (self : TFSpec)
    (within : self.frontier < self.nodes.length) :
    Evolves self self.unrolled := by
  have unrolls := unrolls_unrolled self
  have length := unrolls.length
  have trees := unrolls.trees.1
  refine ⟨by omega, by omega, ?_, ?_, ?_, (rest_unrolled self).1⟩
  · intro index indexWithin
    rw [node_unrolled self within]
    split
    · rename_i here
      rw [here]
    · rw [if_neg (by omega)]
  · intro index indexWithin
    rw [node_unrolled self within]
    split
    · rename_i here
      rw [here]
    · rw [if_neg (by omega)]
  · intro tree treeWithin
    rw [trees_unrolled tree treeWithin]
    exact .refl _

/-- Unrolling a cell gives the frontier a link that fits. -/
theorem Stacked.unrolled
    {before : TFSpec}
    (stacked : Stacked lang ends roots before)
    (left : before.prefixLeft ≠ 0) :
    Stays lang ends roots before before.unrolled := by
  have unrolling := stacked.unrolling
  have within := unrolling.frontier
  have evolves := evolves_unrolled before within
  have unrolls := unrolls_unrolled before
  have length := unrolls.length
  have treesLength := unrolls.trees.1
  obtain ⟨owner, frontier, prefixLeft, heads⟩ := rest_unrolled before
  obtain ⟨_, _, prefixTree, _⟩ := fields_unrolled before
  have inStack : before.prefixLeft - 1 < before.owner.cells.length := by
    have := unrolling.left
    omega
  have succ : before.prefixLeft = before.prefixLeft - 1 + 1 := by omega
  obtain ⟨cell, isCell⟩ :
      ∃ cell, before.owner.cells[before.prefixLeft - 1]? = some cell :=
    ⟨_, List.getElem?_eq_getElem inStack⟩
  have tree := cellTree_unrolled before
  have isNode : before.cellTree =
      inheritedTree cell.node
        (topByte (before.owner.cells.take (before.prefixLeft - 1))) := by
    unfold cellTree
    rw [List.getD_eq_getElem?_getD, isCell]
    rfl
  rw [isNode] at tree
  have bottom :
      before.unrolled.node before.nodes.length = before.bottomNode := by
    rw [node_unrolled before within, if_neg (by omega), if_pos rfl]
  have fresh : ¬ ends before.nodes.length := by
    intro isEnd
    exact Nat.lt_irrefl _ (stacked.ended _ isEnd).2.1
  have top :
      before.unrolled.node before.frontier =
        { before.node before.frontier with
          links := [⟨before.nodes.length, before.trees.length⟩]
          linkCapacity := 1 } := by
    rw [node_unrolled before within, if_pos rfl]
  have state : (before.node before.frontier).state = cell.state := by
    rw [unrolling.state, succ, stateAt_succ isCell]
  have byte :
      (before.node before.frontier).byte = cell.node.endByte := by
    rw [unrolling.byte, succ, topByte_take_succ isCell]
  have spans := unrolling.stack.bytes _ cell isCell
  have grown :
      Replayable before.unrolled
        (topByte (before.owner.cells.take (before.prefixLeft - 1)))
        [before.trees.length] cell.node.endByte := by
    have ends_ :
        (before.unrolled.tree before.trees.length).token.endByte =
          cell.node.endByte := by
      rw [tree.token]
      rfl
    have lower := unrolling.stack.topByte_take_le (before.prefixLeft - 1 + 1)
    rw [topByte_take_succ isCell] at lower
    refine .inherited ?_ tree.paddingStart ?_ tree.inherited
      tree.structuralCount ?_ ?_
    · rw [treesLength]
      exact Nat.lt_succ_self _
    · rw [ends_]
      exact spans
    · rw [ends_, owner]
      exact lower
    · rw [ends_]
      exact .nil _
  refine ⟨stacked.later evolves (robust_sealed.unrolled stacked.isSealed)
    ⟨?_, ?_, ?_, ?_, ?_, ?_, ?_⟩ ?_ ?_ ?_ ?_ ?_ ?_, evolves⟩
  · rw [owner]
    exact unrolling.stack
  · rw [frontier]
    omega
  · rw [frontier]
    exact fresh
  · rw [prefixLeft, owner]
    omega
  · rw [frontier, bottom, owner, prefixLeft]
    rfl
  · rw [frontier, bottom, owner, prefixLeft]
    rfl
  · rw [prefixTree]
    intro slot member
    rcases List.mem_append.mp member with old | new
    · obtain ⟨slotWithin, isInherited⟩ := unrolling.slots slot old
      rw [trees_unrolled slot slotWithin]
      exact ⟨by omega, isInherited⟩
    · rw [List.mem_singleton.mp new, tree.inherited]
      exact ⟨by omega, rfl⟩
  · intro index link isLink
    by_cases here : index = before.frontier
    · subst here
      rw [top] at isLink
      rw [List.mem_singleton.mp isLink]
      refine Or.inr ⟨?_, ?_, fresh, ?_⟩
      · rw [length]
        exact Nat.lt_succ_self _
      · rw [treesLength]
        exact Nat.lt_succ_self _
      · refine ⟨unrolling.ordinary, ?_, ?_, ?_, ?_, ?_⟩
        · unfold stateOver
          rw [top, tree.extra, tree.token, bottom]
          exact state.trans (unrolling.stack.states _ cell isCell)
        · rw [top, tree.token]
          exact byte
        · rw [tree.paddingStart, bottom]
          rfl
        · rw [top, bottom]
          show topByte _ < (before.node before.frontier).byte
          rw [byte]
          exact spans
        · rw [top, bottom]
          show Replayable _ (topByte _) _ (before.node before.frontier).byte
          rw [byte]
          exact grown
    · rw [node_unrolled before within, if_neg here] at isLink
      split at isLink
      · cases isLink
      · exact Or.inl isLink
  · intro index
    rw [node_unrolled before within]
    split
    · exact ⟨Nat.le_refl _, (by decide : 1 ≤ tfSpecLinks)⟩
    · split
      · exact ⟨Nat.le_refl _, Nat.zero_le _⟩
      · exact stacked.room index
  · intro index indexWithin elsewhere links
    rw [node_unrolled before within, if_neg elsewhere, if_neg (by omega)]
    exact links
  · intro index indexWithin elsewhere isNew
    rw [frontier] at elsewhere
    have isFrontier : index = before.frontier := by omega
    rw [isFrontier, top]
    exact List.cons_ne_nil _ _
  · intro index new reduced
    have indexWithin := reduced.within
    have last : index = before.trees.length := by omega
    have own := reduced.own
    rw [last, tree.inherited] at own
    cases own
  · intro head member
    rw [heads] at member
    obtain ⟨headWithin, ordinary⟩ := stacked.ownHeads head member
    exact ⟨by omega, ordinary⟩

/-- Unrolling one cell. -/
theorem extend_stays
    {before after : TFSpecState}
    (stacked : Stacked lang ends roots before.spec)
    (left : before.spec.prefixLeft ≠ 0)
    (ran : extend before = .ok ((), after)) :
    Stays lang ends roots before.spec after.spec := by
  obtain ⟨capacity, heap, rfl⟩ := extend_eq_ok ran
  have stays := stacked.unrolled left
  refine Stays.trans (stays.stacked.beside ?_ rfl) stays.evolves
  exact ⟨rfl, rfl, rfl, rfl, rfl, rfl, rfl, rfl, rfl⟩

/-- Unrolling below a node. -/
theorem unroll_stays
    {node : Nat}
    {before after : TFSpecState}
    (stacked : Stacked lang ends roots before.spec)
    (ran : unroll node before = .ok ((), after)) :
    Stays lang ends roots before.spec after.spec := by
  unfold unroll at ran
  obtain ⟨atFrontier, _, asked, ran⟩ := Program.bind_eq_ok.mp ran
  cases asked
  split at ran
  · rename_i here
    simp only [Bool.and_eq_true, decide_eq_true_eq] at here
    exact extend_stays stacked here.2 ran
  · cases ran
    exact .start stacked

end Unrolled

/-! ## Recovering shapes -/

/-- What a private replay adds to a graph counts no children. -/
structure Unstructured (before after : TFSpec) : Prop where
  prefixTree : after.prefixTree = before.prefixTree
  trees :
    ∀ tree, before.trees.length ≤ tree →
      (after.tree tree).structuralCount = 0

section Collecting

variable {before : TFSpec}

/-- Nothing is added yet. -/
theorem Unstructured.start
    {after : TFSpec}
    (prefixTree : after.prefixTree = before.prefixTree)
    (trees : after.trees = before.trees) :
    Unstructured before after := by
  refine ⟨prefixTree, ?_⟩
  intro tree outside
  unfold TFSpec.tree
  rw [trees, List.getD_eq_default _ _ outside]
  rfl

/-- Collecting a tree that counts no children. -/
theorem unstructured_newTree
    {tree : TFSpecTree}
    (none_ : tree.structuralCount = 0) :
    Maintains (fun state : TFSpecState => Unstructured before state.spec)
      (newTree tree) := by
  intro start value after known ran
  obtain ⟨capacity, heap, rfl, rfl⟩ := newTree_ran ran
  refine ⟨known.prefixTree, ?_⟩
  intro index outside
  rw [tree_append rfl]
  split
  · exact none_
  · exact known.trees index outside

/-- Collecting a reduction. -/
theorem unstructured_captureReduce
    (reduction : TFReduction Nat) :
    Maintains (fun state : TFSpecState => Unstructured before state.spec)
      (captureReduce reduction) := by
  intro start value after known ran
  unfold captureReduce at ran
  obtain ⟨used, _, asked, ran⟩ := Program.bind_eq_ok.mp ran
  cases asked
  obtain ⟨_, _, room, ran⟩ := Program.bind_eq_ok.mp ran
  obtain ⟨capacity, heap, rfl⟩ := reserve_eq_ok room
  obtain ⟨_, _, counted, ran⟩ := Program.bind_eq_ok.mp ran
  cases counted
  refine unstructured_newTree (by rfl) _ _ _ ?_ ran
  exact ⟨known.prefixTree, known.trees⟩

/-- Collecting by a program that adds such trees. -/
theorem unstructured_collect
    {program : SpecM Nat}
    (adds :
      Maintains (fun state : TFSpecState => Unstructured before state.spec)
        program)
    {self : TFSpec}
    {heap : Heap}
    (known : Unstructured before self) :
    Unstructured before (collect program self heap).2.1 := by
  unfold collect
  split
  · exact known
  · split
    · rename_i id state ran
      exact adds _ _ _ known ran
    · exact ⟨known.prefixTree, known.trees⟩

/-- The collector's callbacks. -/
theorem unstructured_captureSink :
    captureSink.Leaves (Unstructured before) where
  shift := by
    intro onShift isShift token extra payload heap known
    cases isShift
    exact unstructured_collect (unstructured_newTree rfl) known
  reduce := by
    intro onReduce isReduce reduction payload heap known
    cases isReduce
    exact unstructured_collect (unstructured_captureReduce reduction) known
  discard := nofun

/-- Resolving a shape counts no more children. -/
theorem structuralCount_resolve
    (self : TFSpec)
    (k tree : Nat) :
    ((self.resolve k).tree tree).structuralCount =
      (self.tree tree).structuralCount := by
  unfold resolve
  dsimp only
  rw [tree_modifyTree]
  split
  · rfl
  · rfl

/-- Reaching the fork. -/
theorem unstructured_captureHook
    (cells : List (TFCell Nat))
    (splits : Nat)
    (token : TFToken)
    (self : TFSpec)
    (heap : Heap)
    (known : Unstructured before self) :
    Unstructured before (captureHook cells splits token self heap).2.1 := by
  have resolves :
      ∀ (places : List Nat) (graph : TFSpec),
        Unstructured before graph →
          Unstructured before (places.foldl resolve graph) := by
    intro places
    induction places with
    | nil =>
        exact fun _ known => known
    | cons place rest inductionHypothesis =>
        intro graph known
        refine inductionHypothesis (graph.resolve place)
          ⟨known.prefixTree, ?_⟩
        intro tree outside
        rw [structuralCount_resolve]
        exact known.trees tree outside
  unfold captureHook
  split
  · exact known
  · split
    · split
      · rename_i answer state reserved
        obtain ⟨capacity, heap, rfl⟩ := reserve_eq_ok reserved
        exact resolves _ _ ⟨known.prefixTree, known.trees⟩
      · exact ⟨known.prefixTree, known.trees⟩
    · exact known

end Collecting

/-- Recovering the shapes adds trees that count no children. -/
theorem materialize_unstructured
    {lang : TFLanguage}
    {fuel : Nat}
    {before after : TFSpecState}
    (ran : materialize lang fuel before = .ok ((), after)) :
    Unstructured before.spec after.spec := by
  cases fuel with
  | zero =>
      cases ran
  | succ fuel =>
      unfold materialize materializeWith at ran
      obtain ⟨known, _, asked, ran⟩ := Program.bind_eq_ok.mp ran
      cases asked
      split at ran
      · cases ran
        exact .start rfl rfl
      · obtain ⟨_, _, marked, ran⟩ := Program.bind_eq_ok.mp ran
        cases marked
        obtain ⟨state, _, got, ran⟩ := Program.bind_eq_ok.mp ran
        cases got
        let env : TFRunEnv TFSpec Nat := {
          lang := lang
          sink := captureSink
          hook := captureHook
          materialize := materialize lang fuel
          fuel := fuel
        }
        cases replayed :
            TFParser.run env before.lexer.source
              { before.spec with materialized := true } before.heap with
        | none =>
            rw [replayed] at ran
            cases ran
        | some result =>
            rw [replayed] at ran
            have ended :
                Unstructured before.spec result.parser.payload :=
              TFParser.payload_run unstructured_captureSink
                unstructured_captureHook replayed (.start rfl rfl)
            obtain ⟨_, stored, updated, ran⟩ := Program.bind_eq_ok.mp ran
            cases updated
            cases captured : result.parser.payload.captured with
            | false =>
                rw [captured] at ran
                cases ran
            | true =>
                rw [captured] at ran
                cases ran
                exact ended

/-- Shapes are recovered of inherited trees only. -/
theorem materialize_stays
    {lang : TFLanguage}
    {ends roots : Nat → Prop}
    {fuel : Nat}
    {before after : TFSpecState}
    (stacked : Stacked lang ends roots before.spec)
    (ran : materialize lang fuel before = .ok ((), after)) :
    Stays lang ends roots before.spec after.spec := by
  obtain ⟨recovers, isSealed, _⟩ :=
    materialize_recovers stacked.isSealed ran
  have unstructured := materialize_unstructured ran
  have node :
      ∀ index, after.spec.node index = before.spec.node index := by
    intro index
    unfold TFSpec.node
    rw [recovers.nodes]
  have evolves : Evolves before.spec after.spec := by
    refine ⟨Nat.le_of_eq (congrArg List.length recovers.nodes.symm),
      recovers.length, ?_, ?_, ?_, recovers.owner⟩
    · intro index _
      rw [node]
    · intro index _
      rw [node]
    · intro tree within
      cases recovers.trees tree within with
      | same same =>
          rw [same]
          exact .refl _
      | known children unknown shape =>
          rw [shape]
          refine ⟨rfl, rfl, rfl, rfl, rfl, rfl, ?_⟩
          intro own
          have slot := (stacked.isSealed.known tree unknown).1
          rw [(stacked.unrolling.slots tree slot).2] at own
          cases own
  refine ⟨stacked.later evolves isSealed
    (stacked.unrolling.evolves evolves recovers.owner recovers.frontier
      recovers.prefixLeft unstructured.prefixTree) ?_ ?_ ?_ ?_ ?_ ?_,
    evolves⟩
  · intro index link isLink
    rw [node] at isLink
    exact Or.inl isLink
  · intro index
    rw [node]
    exact stacked.room index
  · intro index _ _ links
    rw [node]
    exact links
  · intro index within elsewhere _
    rw [node]
    rw [recovers.nodes] at within
    rw [recovers.frontier] at elsewhere
    exact stacked.rooted index within elsewhere
  · intro tree new reduced
    exact absurd (unstructured.trees tree new) reduced.counts
  · intro head member
    rw [recovers.heads] at member
    rw [recovers.nodes]
    exact stacked.ownHeads head member

end TFSpec

end TreeFeller
