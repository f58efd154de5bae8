import TreeFeller.Frames
import TreeFeller.PopChains
import Mathlib.Data.List.InsertIdx

namespace TreeFeller

open StatefulProgram

/-!
# The graphs a split can reach

Every operation of a split, in whatever order and with whatever arguments,
leaves a graph whose links and heads lead into it.  A lower bound on the nodes
and trees is carried along, because an index once handed out stays good.
-/

namespace TFSpec

open Program

/--
A linked graph of at least so many nodes and trees, with a node to start from.
-/
structure Roomy (nodes trees : Nat) (state : TFSpecState) : Prop where
  linked : state.spec.Linked
  nodes : nodes ≤ state.spec.nodes.length
  trees : trees ≤ state.spec.trees.length
  started : 0 < state.spec.nodes.length

namespace Roomy

variable {nodes trees : Nat}
variable {before after : TFSpecState}

/-- Smaller bounds hold as well. -/
theorem weaken
    (roomy : Roomy nodes trees before)
    {nodes' trees' : Nat}
    (fewerNodes : nodes' ≤ nodes)
    (fewerTrees : trees' ≤ trees) :
    Roomy nodes' trees' before :=
  ⟨roomy.linked, Nat.le_trans fewerNodes roomy.nodes,
    Nat.le_trans fewerTrees roomy.trees, roomy.started⟩

/-- The graph's own sizes are the best bounds. -/
theorem exact
    (roomy : Roomy nodes trees before) :
    Roomy before.spec.nodes.length before.spec.trees.length before :=
  ⟨roomy.linked, Nat.le_refl _, Nat.le_refl _, roomy.started⟩

/-- Every head stands at a node, and so does one that is not there. -/
theorem head
    (roomy : Roomy nodes trees before)
    (version : Nat) :
    (before.spec.head version).node < before.spec.nodes.length := by
  by_cases inRange : version < before.spec.heads.length
  · exact roomy.linked.head inRange
  · unfold TFSpec.head
    rw [List.getD_eq_default _ _ (Nat.le_of_not_lt inRange)]
    exact roomy.started

/-- A graph with the same nodes and no fewer trees, and no new heads. -/
theorem of_same
    (roomy : Roomy nodes trees before)
    (sameNodes : after.spec.nodes = before.spec.nodes)
    (moreTrees : before.spec.trees.length ≤ after.spec.trees.length)
    (noHeads :
      ∀ head ∈ after.spec.heads, head.node < before.spec.nodes.length) :
    Roomy nodes trees after where
  linked := by
    refine ⟨?_, ?_⟩
    · rw [sameNodes]
      intro node member link isLink
      obtain ⟨nodeRange, treeRange⟩ :=
        roomy.linked.links node member link isLink
      exact ⟨nodeRange, Nat.lt_of_lt_of_le treeRange moreTrees⟩
    · rw [sameNodes]
      exact noHeads
  nodes := by
    rw [sameNodes]
    exact roomy.nodes
  trees := Nat.le_trans roomy.trees moreTrees
  started := by
    rw [sameNodes]
    exact roomy.started

/-- A graph whose nodes keep good links is as good. -/
theorem modifyNode
    (roomy : Roomy nodes trees before)
    {index : Nat}
    {change : TFSpecNode → TFSpecNode}
    (good :
      ∀ node ∈ before.spec.nodes, ∀ link ∈ (change node).links,
        link.node < before.spec.nodes.length ∧
          link.tree < before.spec.trees.length) :
    Roomy nodes trees
      { before with spec := before.spec.modifyNode index change } where
  linked := by
    refine ⟨?_, ?_⟩
    · intro node member link isLink
      simp only [TFSpec.modifyNode, List.length_modify] at member ⊢
      obtain ⟨place, inRange, rfl⟩ := List.mem_iff_getElem.mp member
      rw [List.getElem_modify] at isLink
      split at isLink
      · exact good _ (List.getElem_mem _) link isLink
      · exact roomy.linked.links _ (List.getElem_mem _) link isLink
    · intro head member
      simp only [TFSpec.modifyNode, List.length_modify]
      exact roomy.linked.heads head member
  nodes := by
    simp only [TFSpec.modifyNode, List.length_modify]
    exact roomy.nodes
  trees := roomy.trees
  started := by
    simp only [TFSpec.modifyNode, List.length_modify]
    exact roomy.started

end Roomy

section Rooms

variable {nodes trees : Nat}

/-- Updating neither nodes, trees nor heads. -/
theorem rooms_update
    {change : TFSpec → TFSpec}
    (sameNodes : ∀ spec, (change spec).nodes = spec.nodes)
    (sameTrees : ∀ spec, (change spec).trees.length = spec.trees.length)
    (sameHeads : ∀ spec, (change spec).heads = spec.heads) :
    Maintains (Roomy nodes trees) (update change) := by
  intro before value after roomy ran
  cases ran
  refine roomy.of_same (sameNodes _) (Nat.le_of_eq (sameTrees _).symm) ?_
  intro head member
  exact roomy.linked.heads head ((sameHeads _) ▸ member)

/-- Reading the graph. -/
theorem rooms_asks
    {α : Type}
    {project : TFSpec → α} :
    Maintains (Roomy nodes trees) (asks project) := by
  intro before value after roomy ran
  cases ran
  exact roomy

/-- Reserving. -/
theorem rooms_reserve
    (arena : TFSpecArena)
    (needed : Nat) :
    Maintains (Roomy nodes trees) (reserve arena needed) := by
  intro before value after roomy ran
  obtain ⟨capacity, heap, rfl⟩ := reserve_eq_ok ran
  exact roomy.of_same rfl (Nat.le_refl _) roomy.linked.heads

/-- A new tree may be used from then on. -/
theorem rooms_newTree
    (tree : TFSpecTree) :
    Ensures (Roomy nodes trees) (newTree tree)
      (fun id => Roomy nodes (max trees (id + 1))) := by
  intro before value after roomy ran
  obtain ⟨capacity, heap, rfl, rfl⟩ := newTree_ran ran
  have grown :
      before.spec.trees.length ≤ (before.spec.trees ++ [tree]).length := by
    simp
  have kept :
      Roomy nodes trees
        { before with
          spec := { before.spec with
            trees := before.spec.trees ++ [tree]
            capacity := capacity }
          heap := heap } :=
    roomy.of_same rfl grown roomy.linked.heads
  refine ⟨kept.linked, kept.nodes, ?_, kept.started⟩
  have enough := roomy.trees
  simp only [List.length_append, List.length_singleton]
  omega

/-- Changing the heads for others at nodes of the graph. -/
theorem rooms_heads
    {change : TFSpec → List TFSpecHead}
    (known :
      ∀ spec : TFSpec, ∀ head ∈ change spec,
        head.node < nodes ∨ head.node = 0 ∨
          ∃ old ∈ spec.heads, head.node = old.node) :
    Maintains (Roomy nodes trees)
      (update (fun spec => { spec with heads := change spec })) := by
  intro before value after roomy ran
  cases ran
  refine roomy.of_same rfl (Nat.le_refl _) ?_
  intro head member
  rcases known _ head member with low | first | ⟨old, isOld, same⟩
  · exact Nat.lt_of_lt_of_le low roomy.nodes
  · rw [first]
    exact roomy.started
  · rw [same]
    exact roomy.linked.heads old isOld

/-- Removing a head. -/
theorem rooms_removeHead
    (version : Nat) :
    Maintains (Roomy nodes trees) (removeHead version) :=
  rooms_heads
    (fun _ head member =>
      Or.inr (Or.inr ⟨head, List.mem_of_mem_eraseIdx member, rfl⟩))

/-- Changing a head where it stands, or to another node of the graph. -/
theorem rooms_modifyHead
    {version : Nat}
    {change : TFSpec → TFSpecHead → TFSpecHead}
    (known :
      ∀ (spec : TFSpec) (head : TFSpecHead),
        (change spec head).node < nodes ∨ (change spec head).node = 0 ∨
          ((change spec head).node = head.node ∨
            ∃ old ∈ spec.heads, (change spec head).node = old.node)) :
    Maintains (Roomy nodes trees)
      (update (fun spec => spec.modifyHead version (change spec))) := by
  refine rooms_heads ?_
  intro spec head member
  obtain ⟨place, inRange, rfl⟩ := List.mem_iff_getElem.mp member
  rw [List.length_modify] at inRange
  rw [List.getElem_modify]
  have old := List.getElem_mem inRange
  split
  · rcases known spec spec.heads[place] with low | first | same | other
    · exact Or.inl low
    · exact Or.inr (Or.inl first)
    · exact Or.inr (Or.inr ⟨_, old, same⟩)
    · exact Or.inr (Or.inr other)
  · exact Or.inr (Or.inr ⟨_, old, rfl⟩)

/-- Taking link slots. -/
theorem rooms_newLinks
    (count : Nat) :
    Maintains (Roomy nodes trees) (newLinks count) := by
  intro before value after roomy ran
  obtain ⟨capacity, heap, rfl⟩ := newLinks_eq_ok ran
  exact roomy.of_same rfl (Nat.le_refl _) roomy.linked.heads

/-- A node whose links lead into the graph. -/
theorem rooms_addNode
    {node : TFSpecNode}
    (good : ∀ link ∈ node.links, link.node < nodes ∧ link.tree < trees) :
    Ensures (Roomy nodes trees) (addNode node)
      (fun added => Roomy (max nodes (added + 1)) trees) := by
  intro before value after roomy ran
  unfold addNode at ran
  obtain ⟨count, _, asked, ran⟩ := Program.bind_eq_ok.mp ran
  simp only [asks, Program.gets_apply, Except.ok.injEq,
    Prod.mk.injEq] at asked
  obtain ⟨rfl, rfl⟩ := asked
  obtain ⟨_, _, added, ran⟩ := Program.bind_eq_ok.mp ran
  cases added
  cases ran
  have enough := roomy.nodes
  refine ⟨⟨?_, ?_⟩, ?_, roomy.trees, ?_⟩
  · intro node' member link isLink
    simp only [List.length_append, List.length_singleton]
    rcases List.mem_append.mp member with old | new
    · obtain ⟨nodeRange, treeRange⟩ :=
        roomy.linked.links node' old link isLink
      exact ⟨Nat.lt_succ_of_lt nodeRange, treeRange⟩
    · rw [List.mem_singleton.mp new] at isLink
      obtain ⟨nodeRange, treeRange⟩ := good link isLink
      have := roomy.trees
      exact ⟨by omega, by omega⟩
  · intro head member
    simp only [List.length_append, List.length_singleton]
    exact Nat.lt_succ_of_lt (roomy.linked.heads head member)
  · simp only [List.length_append, List.length_singleton]
    omega
  · simp

/-- Pushing a tree of the graph on a node of the graph. -/
theorem rooms_push
    {previous tree : Nat}
    (state : TSStateId)
    (previousKnown : previous < nodes)
    (treeKnown : tree < trees) :
    Ensures (Roomy nodes trees) (push previous tree state)
      (fun top => Roomy (max nodes (top + 1)) trees) := by
  unfold push
  refine Ensures.bind rooms_asks (fun count => ?_)
  refine Ensures.bind (rooms_reserve _ _) (fun _ => ?_)
  refine Ensures.bind (rooms_newLinks _) (fun _ => ?_)
  intro before value after roomy ran
  obtain ⟨node, _, asked, ran⟩ := Program.bind_eq_ok.mp ran
  simp only [asks, Program.gets_apply, Except.ok.injEq,
    Prod.mk.injEq] at asked
  obtain ⟨rfl, rfl⟩ := asked
  refine rooms_addNode ?_ _ _ _ roomy ran
  intro link member
  rw [List.mem_singleton.mp member]
  exact ⟨previousKnown, treeKnown⟩

/-- Unrolling one cell. -/
theorem rooms_extend :
    Maintains (Roomy nodes trees) extend := by
  intro before value after roomy ran
  have unrolls := extend_unrolls ran
  have := unrolls.length
  have := unrolls.trees.1
  have := roomy.nodes
  have := roomy.trees
  exact ⟨unrolls.linked roomy.linked, by omega, by omega, by omega⟩

/-- Unrolling below a node. -/
theorem rooms_unroll
    (node : Nat) :
    Maintains (Roomy nodes trees) (unroll node) := by
  unfold unroll
  refine Maintains.bind rooms_asks (fun atFrontier => ?_)
  exact Maintains.ite rooms_extend Maintains.pure

/-! ### Shapes -/

/-- Collecting a tree only adds trees. -/
theorem collect_grows
    {program : SpecM Nat}
    {kept : List TFSpecNode × List TFSpecHead}
    (rooms :
      ∀ count, Maintains
        (fun state : TFSpecState =>
          (state.spec.nodes, state.spec.heads) = kept ∧
            count ≤ state.spec.trees.length)
        program)
    {count : Nat}
    {self : TFSpec}
    {heap : Heap}
    (before : (self.nodes, self.heads) = kept ∧ count ≤ self.trees.length) :
    ((collect program self heap).2.1.nodes,
          (collect program self heap).2.1.heads) = kept ∧
      count ≤ (collect program self heap).2.1.trees.length := by
  unfold collect
  split
  · exact before
  · split
    · rename_i id state ran
      exact rooms count _ _ _ before ran
    · exact before

/-- A tree the collector adds is one more. -/
theorem newTree_grows
    {kept : List TFSpecNode × List TFSpecHead}
    (tree : TFSpecTree)
    (count : Nat) :
    Maintains
      (fun state : TFSpecState =>
        (state.spec.nodes, state.spec.heads) = kept ∧
          count ≤ state.spec.trees.length)
      (newTree tree) := by
  intro before value after grown ran
  obtain ⟨capacity, heap, rfl, rfl⟩ := newTree_ran ran
  refine ⟨grown.1, Nat.le_trans grown.2 ?_⟩
  simp

/-- A reduction the collector adds is one more tree. -/
theorem captureReduce_grows
    {kept : List TFSpecNode × List TFSpecHead}
    (reduction : TFReduction Nat)
    (count : Nat) :
    Maintains
      (fun state : TFSpecState =>
        (state.spec.nodes, state.spec.heads) = kept ∧
          count ≤ state.spec.trees.length)
      (captureReduce reduction) := by
  intro before value after grown ran
  unfold captureReduce at ran
  obtain ⟨used, _, asked, ran⟩ := Program.bind_eq_ok.mp ran
  cases asked
  obtain ⟨_, _, room, ran⟩ := Program.bind_eq_ok.mp ran
  obtain ⟨capacity, heap, rfl⟩ := reserve_eq_ok room
  obtain ⟨_, _, counted, ran⟩ := Program.bind_eq_ok.mp ran
  cases counted
  refine newTree_grows _ count _ _ _ ?_ ran
  exact grown

/-- The collector's callbacks only add trees. -/
theorem captureSink_grows
    (kept : List TFSpecNode × List TFSpecHead)
    (count : Nat) :
    captureSink.Leaves
      (fun self =>
        (self.nodes, self.heads) = kept ∧ count ≤ self.trees.length) where
  shift := by
    intro onShift known token extra payload heap before
    cases known
    exact collect_grows (newTree_grows _) before
  reduce := by
    intro onReduce known reduction payload heap before
    cases known
    exact collect_grows (captureReduce_grows _) before
  discard := nofun

/-- Recording the trees below the fork adds and drops none. -/
theorem captureCells_grows
    (self : TFSpec)
    (cells : List (TFCell Nat)) :
    (self.captureCells cells).nodes = self.nodes ∧
      (self.captureCells cells).heads = self.heads ∧
      (self.captureCells cells).trees.length = self.trees.length := by
  have resolves :
      ∀ (places : List Nat) (spec : TFSpec),
        (places.foldl resolve spec).nodes = spec.nodes ∧
          (places.foldl resolve spec).heads = spec.heads ∧
          (places.foldl resolve spec).trees.length = spec.trees.length := by
    intro places
    induction places with
    | nil =>
        intro spec
        exact ⟨rfl, rfl, rfl⟩
    | cons place rest inductionHypothesis =>
        intro spec
        obtain ⟨sameNodes, sameHeads, sameTrees⟩ :=
          inductionHypothesis (spec.resolve place)
        refine ⟨sameNodes, sameHeads, sameTrees.trans ?_⟩
        simp [resolve, modifyTree]
  exact resolves _ _

/-- Reaching the fork adds and drops no tree. -/
theorem captureHook_grows
    {kept : List TFSpecNode × List TFSpecHead}
    {count : Nat}
    (cells : List (TFCell Nat))
    (splits : Nat)
    (token : TFToken)
    (self : TFSpec)
    (heap : Heap)
    (before : (self.nodes, self.heads) = kept ∧ count ≤ self.trees.length) :
    ((captureHook cells splits token self heap).2.1.nodes,
          (captureHook cells splits token self heap).2.1.heads) = kept ∧
      count ≤ (captureHook cells splits token self heap).2.1.trees.length := by
  unfold captureHook
  split
  · exact before
  · split
    · split
      · rename_i answer state reserved
        obtain ⟨capacity, heap, rfl⟩ := reserve_eq_ok reserved
        obtain ⟨sameNodes, sameHeads, sameTrees⟩ :=
          captureCells_grows (self.withCapacity capacity) cells
        dsimp only
        rw [sameNodes, sameHeads, sameTrees]
        exact before
      · exact before
    · exact before

/-- Recovering shapes by a replay that only adds trees. -/
theorem rooms_materializeWith
    {replay : List UInt8 → TFSpec → Heap → Option (TFResult TFSpec Nat)}
    (grows :
      ∀ source spec heap result,
        replay source spec heap = some result →
          (result.parser.payload.nodes, result.parser.payload.heads) =
              (spec.nodes, spec.heads) ∧
            spec.trees.length ≤ result.parser.payload.trees.length) :
    Maintains (Roomy nodes trees) (materializeWith replay) := by
  unfold materializeWith
  refine Maintains.bind rooms_asks (fun known => ?_)
  refine Maintains.ite Maintains.pure ?_
  refine Maintains.bind
    (rooms_update (fun _ => rfl) (fun _ => rfl) (fun _ => rfl))
    (fun _ => ?_)
  intro before value after roomy ran
  obtain ⟨state, read, asked, ran⟩ := Program.bind_eq_ok.mp ran
  cases asked
  cases replayed :
      replay before.lexer.source before.spec before.heap with
  | none =>
      rw [replayed] at ran
      cases ran
  | some result =>
      rw [replayed] at ran
      obtain ⟨same, more⟩ := grows _ _ _ _ replayed
      obtain ⟨sameNodes, sameHeads⟩ := Prod.mk.inj same
      obtain ⟨_, stored, updated, ran⟩ := Program.bind_eq_ok.mp ran
      cases updated
      have kept :
          Roomy nodes trees
            { before with
              spec := result.parser.payload
              heap := result.parser.heap } := by
        refine roomy.of_same sameNodes more ?_
        dsimp only
        rw [sameHeads]
        exact roomy.linked.heads
      split at ran
      · cases ran
      · cases ran
        exact kept

/-- Recovering the inherited shapes only adds trees. -/
theorem rooms_materialize
    (lang : TFLanguage)
    (fuel : Nat) :
    Maintains (Roomy nodes trees) (materialize lang fuel) := by
  cases fuel with
  | zero =>
      exact Ensures.stop
  | succ fuel =>
      refine rooms_materializeWith ?_
      intro source spec heap result replayed
      have leaves :=
        captureSink_grows (spec.nodes, spec.heads) spec.trees.length
      have unchanged :
          (spec.nodes, spec.heads) = (spec.nodes, spec.heads) ∧
            spec.trees.length ≤ spec.trees.length :=
        ⟨rfl, Nat.le_refl _⟩
      exact TFParser.payload_run leaves captureHook_grows replayed unchanged

/-! ### Merging -/

section Merging

variable {materialize : SpecM Unit}
variable
  (rooms :
    ∀ {nodes trees}, Maintains (Roomy nodes trees) materialize)

include rooms

/-- Comparing trees. -/
theorem rooms_equivalent
    (a b : Nat) :
    Maintains (Roomy nodes trees) (equivalent materialize a b) := by
  unfold equivalent
  refine Maintains.ite Maintains.pure ?_
  refine Maintains.bind rooms_asks (fun x => ?_)
  refine Maintains.bind rooms_asks (fun y => ?_)
  refine Maintains.ite Maintains.pure ?_
  exact Maintains.ite
    (Maintains.bind rooms (fun _ => rooms_asks)) rooms_asks

/-- The link that takes another in is one of those looked through. -/
theorem rooms_findLink
    (link : TFSpecLink)
    (index : Nat)
    (links : List TFSpecLink) :
    Ensures (Roomy nodes trees) (findLink materialize link index links)
      (fun found state =>
        Roomy nodes trees state ∧
          ∀ place existing,
            found = some (place, existing) → existing ∈ links) := by
  induction links generalizing index with
  | nil =>
      intro before value after roomy ran
      cases ran
      exact ⟨roomy, nofun⟩
  | cons first rest inductionHypothesis =>
      have further :
          Ensures (Roomy nodes trees)
            (findLink materialize link (index + 1) rest)
            (fun found state =>
              Roomy nodes trees state ∧
                ∀ place existing,
                  found = some (place, existing) →
                    existing ∈ first :: rest) := by
        refine (inductionHypothesis (index + 1)).weaken ?_
        intro found state known
        exact ⟨known.1, fun place existing isFound =>
          List.mem_cons_of_mem _ (known.2 place existing isFound)⟩
      unfold findLink
      refine Ensures.bind (rooms_equivalent rooms _ _) (fun same => ?_)
      split
      · exact further
      · refine Ensures.bind rooms_asks (fun merges => ?_)
        split
        · intro before value after roomy ran
          cases ran
          refine ⟨roomy, ?_⟩
          intro place existing isFound
          cases isFound
          exact List.mem_cons_self ..
        · exact further

omit rooms in
/-- Raising a precedence. -/
theorem rooms_raisePrecedence
    (target : Nat)
    (link : TFSpecLink) :
    Maintains (Roomy nodes trees)
      (update (fun spec => spec.raisePrecedence target link)) := by
  intro before value after roomy ran
  cases ran
  refine roomy.modifyNode ?_
  intro node member old isLink
  exact roomy.linked.links node member old isLink

omit rooms in
/-- Appending a link into the graph. -/
theorem rooms_appendLink
    {target : Nat}
    {link : TFSpecLink}
    (nodeKnown : link.node < nodes)
    (treeKnown : link.tree < trees) :
    Maintains (Roomy nodes trees) (appendLink target link) := by
  have same :
      ∀ {change : TFSpecNode → TFSpecNode},
        (∀ node, (change node).links = node.links) →
          Maintains (Roomy nodes trees)
            (update (fun spec => spec.modifyNode target change)) := by
    intro change sameLinks before value after roomy ran
    cases ran
    refine roomy.modifyNode ?_
    intro node member old isLink
    rw [sameLinks] at isLink
    exact roomy.linked.links node member old isLink
  have appends :
      Maintains (Roomy nodes trees) (do
        update (fun spec =>
          spec.modifyNode target (fun node =>
            { node with links := node.links ++ [link] }))
        update (fun spec => spec.raisePrecedence target link)) := by
    refine Maintains.bind ?_ (fun _ => rooms_raisePrecedence _ _)
    intro before value after roomy ran
    cases ran
    refine roomy.modifyNode ?_
    intro node member other isLink
    rcases List.mem_append.mp isLink with old | new
    · exact roomy.linked.links node member other old
    · rw [List.mem_singleton.mp new]
      exact ⟨Nat.lt_of_lt_of_le nodeKnown roomy.nodes,
        Nat.lt_of_lt_of_le treeKnown roomy.trees⟩
  unfold appendLink
  refine Maintains.bind rooms_asks (fun node => ?_)
  refine Maintains.ite
    (rooms_update (fun _ => rfl) (fun _ => rfl) (fun _ => rfl)) ?_
  refine Maintains.ite ?_ appends
  refine Maintains.bind (rooms_newLinks _) (fun _ => ?_)
  exact Maintains.bind (same (fun _ => rfl)) (fun _ => appends)

omit rooms in
/-- Keeping the better tree on a link. -/
theorem rooms_replaceTree
    {target index : Nat}
    {existing link : TFSpecLink}
    (nodeKnown : existing.node < nodes)
    (treeKnown : link.tree < trees) :
    Maintains (Roomy nodes trees)
      (update (fun spec =>
        spec.replaceTree target index existing link)) := by
  intro before value after roomy ran
  cases ran
  unfold replaceTree
  dsimp only
  split
  · refine roomy.modifyNode ?_
    intro node member other isLink
    rcases List.mem_or_eq_of_mem_set isLink with old | new
    · exact roomy.linked.links node member other old
    · rw [new]
      exact ⟨Nat.lt_of_lt_of_le nodeKnown roomy.nodes,
        Nat.lt_of_lt_of_le treeKnown roomy.trees⟩
  · exact roomy

/-- Adding a link into the graph. -/
theorem rooms_addLink
    {fuel target : Nat}
    {link : TFSpecLink}
    (nodeKnown : link.node < nodes)
    (treeKnown : link.tree < trees) :
    Maintains (Roomy nodes trees)
      (addLink materialize fuel target link) := by
  induction fuel generalizing target link nodes trees with
  | zero =>
      exact Ensures.stop
  | succ fuel inductionHypothesis =>
      unfold addLink
      refine Maintains.ite Maintains.pure ?_
      refine Maintains.bind (rooms_unroll _) (fun _ => ?_)
      intro before value after roomy ran
      obtain ⟨links, _, asked, ran⟩ := Program.bind_eq_ok.mp ran
      simp only [asks, Program.gets_apply, Except.ok.injEq,
        Prod.mk.injEq] at asked
      obtain ⟨isLinks, rfl⟩ := asked
      obtain ⟨found, middle, looked, ran⟩ := Program.bind_eq_ok.mp ran
      obtain ⟨roomyMiddle, known⟩ :=
        rooms_findLink rooms _ _ _ _ _ _ roomy.exact looked
      have nodeHere := Nat.lt_of_lt_of_le nodeKnown roomy.nodes
      have treeHere := Nat.lt_of_lt_of_le treeKnown roomy.trees
      suffices settled :
          Roomy before.spec.nodes.length before.spec.trees.length after from
        settled.weaken roomy.nodes roomy.trees
      cases found with
      | none =>
          exact rooms_appendLink nodeHere treeHere _ _ _ roomyMiddle ran
      | some place =>
          obtain ⟨index, existing⟩ := place
          have isLink := known index existing rfl
          rw [← isLinks] at isLink
          obtain ⟨existingKnown, _⟩ := roomy.linked.link isLink
          dsimp only at ran
          split at ran
          · exact rooms_replaceTree existingKnown treeHere _ _ _
              roomyMiddle ran
          · obtain ⟨_, absorbed, absorbs, ran⟩ :=
              Program.bind_eq_ok.mp ran
            refine rooms_raisePrecedence _ _ _ _ _ ?_ ran
            obtain ⟨sources, _, asked, absorbs⟩ :=
              Program.bind_eq_ok.mp absorbs
            simp only [asks, Program.gets_apply, Except.ok.injEq,
              Prod.mk.injEq] at asked
            obtain ⟨isSources, rfl⟩ := asked
            have each :
                Maintains
                  (Roomy middle.spec.nodes.length
                    middle.spec.trees.length)
                  (Program.forEach
                    (addLink materialize fuel existing.node) sources) := by
              refine Ensures.forEach ?_
              intro source member
              rw [← isSources] at member
              obtain ⟨sourceNode, sourceTree⟩ :=
                roomyMiddle.linked.link member
              exact inductionHypothesis sourceNode sourceTree
            exact (each _ _ _ roomyMiddle.exact absorbs).weaken
              roomyMiddle.nodes roomyMiddle.trees

/-- Merging two heads. -/
theorem rooms_merge
    (fuel a b : Nat) :
    Maintains (Roomy nodes trees) (merge materialize fuel a b) := by
  unfold merge
  refine Maintains.bind rooms_asks (fun agrees => ?_)
  refine Maintains.ite ?_ Maintains.pure
  refine Maintains.bind rooms_asks (fun into => ?_)
  refine Maintains.bind rooms_asks (fun source => ?_)
  refine Maintains.bind ?_ (fun _ => ?_)
  · intro before value after roomy ran
    unfold absorb absorbWith at ran
    obtain ⟨sources, _, asked, ran⟩ := Program.bind_eq_ok.mp ran
    simp only [asks, Program.gets_apply, Except.ok.injEq,
      Prod.mk.injEq] at asked
    obtain ⟨isSources, rfl⟩ := asked
    have each :
        Maintains
          (Roomy before.spec.nodes.length before.spec.trees.length)
          (Program.forEach (addLink materialize fuel into) sources) := by
      refine Ensures.forEach ?_
      intro link member
      rw [← isSources] at member
      obtain ⟨nodeKnown, treeKnown⟩ := roomy.linked.link member
      exact rooms_addLink rooms nodeKnown treeKnown
    exact (each _ _ _ roomy.exact ran).weaken roomy.nodes roomy.trees
  · exact Maintains.bind (rooms_removeHead _) (fun _ => Maintains.pure)

/-- Comparing shapes. -/
theorem rooms_preferShapes
    (fuel : Nat)
    (pairs : List (Nat × Nat)) :
    Maintains (Roomy nodes trees) (preferShapes materialize fuel pairs) := by
  unfold preferShapes
  refine Maintains.iterate ?_ fuel pairs
  intro pairs
  cases pairs with
  | nil =>
      exact Maintains.pure
  | cons pair rest =>
      refine Maintains.ite Maintains.pure ?_
      refine Maintains.bind rooms_asks (fun x => ?_)
      refine Maintains.bind rooms_asks (fun y => ?_)
      refine Maintains.ite Maintains.pure ?_
      have compares :
          Maintains (Roomy nodes trees) (do
            let x ← asks (fun s => s.tree pair.1)
            let y ← asks (fun s => s.tree pair.2)
            if x.children.length ≠ y.children.length then
              pure (.inr
                (decide (y.children.length < x.children.length)))
            else
              reserve .scratch
                (2 * rest.length + 2 * x.children.length)
              pure (.inl (x.children.zip y.children ++ rest)) :
                SpecM (List (Nat × Nat) ⊕ Bool)) := by
        refine Maintains.bind rooms_asks (fun x => ?_)
        refine Maintains.bind rooms_asks (fun y => ?_)
        refine Maintains.ite Maintains.pure ?_
        exact Maintains.bind (rooms_reserve _ _) (fun _ => Maintains.pure)
      exact Maintains.ite
        (Maintains.bind rooms (fun _ => compares)) compares

/-- Choosing between two trees. -/
theorem rooms_prefer
    (fuel : Nat)
    (a : Option Nat)
    (b : Nat) :
    Maintains (Roomy nodes trees) (prefer materialize fuel a b) := by
  unfold prefer
  cases a with
  | none =>
      exact Maintains.pure
  | some a =>
      refine Maintains.bind rooms_asks (fun x => ?_)
      refine Maintains.bind rooms_asks (fun y => ?_)
      refine Maintains.ite Maintains.pure ?_
      exact Maintains.bind (rooms_reserve _ _)
        (fun _ => rooms_preferShapes rooms _ _)

end Merging

/-! ### Popping -/

/-- The graph of a pop under way, with slices and iterators that lead into it. -/
structure Paved
    (nodes trees : Nat)
    (iterators : List TFSpecIterator)
    (state : TFSpecState) : Prop where
  roomy : Roomy nodes trees state
  slices :
    ∀ slice ∈ state.spec.slices, ∀ tree ∈ slice.children,
      tree < state.spec.trees.length
  iterators :
    ∀ iterator ∈ iterators,
      iterator.node < state.spec.nodes.length ∧
        ∀ tree ∈ iterator.path, tree < state.spec.trees.length

namespace Paved

variable {iterators others : List TFSpecIterator}
variable {before after : TFSpecState}

/-- Iterators may be left out. -/
theorem only
    (paved : Paved nodes trees iterators before)
    (fewer : others ⊆ iterators) :
    Paved nodes trees others before :=
  ⟨paved.roomy, paved.slices,
    fun iterator member => paved.iterators iterator (fewer member)⟩

/-- A larger graph with the same slices serves as well. -/
theorem grow
    (paved : Paved nodes trees iterators before)
    (roomy :
      Roomy before.spec.nodes.length before.spec.trees.length after)
    (same : after.spec.slices = before.spec.slices) :
    Paved nodes trees iterators after where
  roomy := roomy.weaken paved.roomy.nodes paved.roomy.trees
  slices := by
    rw [same]
    intro slice member tree isChild
    exact Nat.lt_of_lt_of_le (paved.slices slice member tree isChild)
      roomy.trees
  iterators := by
    intro iterator member
    obtain ⟨node, path⟩ := paved.iterators iterator member
    exact ⟨Nat.lt_of_lt_of_le node roomy.nodes,
      fun tree isPath => Nat.lt_of_lt_of_le (path tree isPath) roomy.trees⟩

/-- A walk may go on over a link of the graph. -/
theorem step
    (paved : Paved nodes trees iterators before)
    {current : TFSpecIterator}
    {link : TFSpecLink}
    (known : current ∈ iterators)
    (isLink : link ∈ (before.spec.node current.node).links) :
    Paved nodes trees
      (before.spec.stepIterator current link :: iterators) before := by
  refine ⟨paved.roomy, paved.slices, ?_⟩
  intro iterator member
  rcases List.mem_cons.mp member with rfl | old
  · obtain ⟨nodeKnown, treeKnown⟩ := paved.roomy.linked.link isLink
    refine ⟨nodeKnown, ?_⟩
    intro tree isPath
    rcases List.mem_cons.mp isPath with rfl | old
    · exact treeKnown
    · exact (paved.iterators current known).2 tree old
  · exact paved.iterators iterator old

end Paved

/-- Settling a node unrolls at most. -/
theorem paved_settleFor
    {goal : Option Nat}
    {current : TFSpecIterator}
    {iterators : List TFSpecIterator}
    {before after : TFSpecState}
    (paved : Paved nodes trees iterators before)
    (ran : settleFor goal current before = .ok ((), after)) :
    Paved nodes trees iterators after := by
  have slices : after.spec.slices = before.spec.slices := by
    unfold settleFor unroll at ran
    split at ran
    · obtain ⟨_, _, asked, ran⟩ := Program.bind_eq_ok.mp ran
      cases asked
      split at ran
      · exact (extend_unrolls ran).slices
      · cases ran
        rfl
    · cases ran
      rfl
  refine paved.grow ?_ slices
  unfold settleFor at ran
  split at ran
  · exact rooms_unroll _ _ _ _ paved.roomy.exact ran
  · cases ran
    exact paved.roomy.exact

/-- Recording a path records trees of the graph. -/
theorem paved_addSlice
    {current : TFSpecIterator}
    {iterators : List TFSpecIterator}
    {before after : TFSpecState}
    (paved : Paved nodes trees iterators before)
    (known : current ∈ iterators)
    (ran : addSlice current before = .ok ((), after)) :
    Paved nodes trees iterators after := by
  obtain ⟨nodeKnown, pathKnown⟩ := paved.iterators current known
  obtain ⟨same, keepsLinked⟩ := addSlice_sameNodes ran
  have linked := keepsLinked nodeKnown paved.roomy.linked
  have slices :
      ∀ slice ∈ after.spec.slices,
        slice ∈ before.spec.slices ∨ slice.children = current.path := by
    unfold addSlice at ran
    obtain ⟨count, _, asked, ran⟩ := Program.bind_eq_ok.mp ran
    cases asked
    obtain ⟨_, roomyState, room, ran⟩ := Program.bind_eq_ok.mp ran
    have sameSlices := (reserveSlice_same room).slices
    obtain ⟨found, _, asked, ran⟩ := Program.bind_eq_ok.mp ran
    simp only [asks, Program.gets_apply, Except.ok.injEq,
      Prod.mk.injEq] at asked
    obtain ⟨_, rfl⟩ := asked
    cases found with
    | some place =>
        cases ran
        intro slice member
        rw [← sameSlices]
        rcases List.eq_or_mem_of_mem_insertIdx member with rfl | old
        · exact Or.inr rfl
        · exact Or.inl old
    | none =>
        obtain ⟨version, _, made, ran⟩ := Program.bind_eq_ok.mp ran
        obtain ⟨capacity, heap, rfl, rfl⟩ := newHead_eq_ok made
        cases ran
        intro slice member
        rw [← sameSlices]
        rcases List.mem_append.mp member with old | new
        · exact Or.inl old
        · rw [List.mem_singleton.mp new]
          exact Or.inr rfl
  refine ⟨⟨linked, ?_, ?_, ?_⟩, ?_, ?_⟩
  · rw [same.nodes]
    exact paved.roomy.nodes
  · rw [same.trees]
    exact paved.roomy.trees
  · rw [same.nodes]
    exact paved.roomy.started
  · rw [same.trees]
    intro slice member
    rcases slices slice member with old | new
    · exact paved.slices slice old
    · rw [new]
      exact pathKnown
  · rw [same.nodes, same.trees]
    exact paved.iterators

/-- Following a link of the graph. -/
theorem paved_followLink
    {current moved : TFSpecIterator}
    {link : TFSpecLink}
    {iterators : List TFSpecIterator}
    {before after : TFSpecState}
    (paved : Paved nodes trees iterators before)
    (known : current ∈ iterators)
    (isLink : link ∈ (before.spec.node current.node).links)
    (ran : followLink current link before = .ok (moved, after)) :
    Paved nodes trees (moved :: iterators) after ∧
      after.spec.nodes = before.spec.nodes := by
  obtain ⟨rfl, same⟩ := followLink_eq_ok ran
  have onward := paved.step known isLink
  refine ⟨onward.grow ?_ same.slices, same.nodes⟩
  refine paved.roomy.exact.of_same same.nodes
    (Nat.le_of_eq (congrArg List.length same.trees).symm) ?_
  rw [same.heads]
  exact paved.roomy.linked.heads

/-- Forking over links of the graph, within the limit or not. -/
theorem paved_forkIterators
    {current : TFSpecIterator}
    {count : Nat}
    {links : List TFSpecLink}
    {iterators appended forked : List TFSpecIterator}
    {before after : TFSpecState}
    (paved : Paved nodes trees (iterators ++ appended) before)
    (known : current ∈ iterators)
    (isLinks :
      ∀ link ∈ links, link ∈ (before.spec.node current.node).links)
    (ran :
      forkIterators current count links appended before =
        .ok (forked, after)) :
    Paved nodes trees (iterators ++ forked) after ∧
      after.spec.nodes = before.spec.nodes := by
  induction links generalizing appended before with
  | nil =>
      cases ran
      exact ⟨paved, rfl⟩
  | cons link rest inductionHypothesis =>
      have further :
          ∀ other ∈ rest,
            other ∈ (before.spec.node current.node).links :=
        fun other member => isLinks other (List.mem_cons_of_mem _ member)
      unfold forkIterators at ran
      split at ran
      · obtain ⟨_, _, flagged, ran⟩ := Program.bind_eq_ok.mp ran
        cases flagged
        have flaggedPaved :
            Paved nodes trees (iterators ++ appended)
              { before with spec := before.spec.limit } :=
          paved.grow
            (paved.roomy.exact.of_same rfl (Nat.le_refl _)
              paved.roomy.linked.heads)
            rfl
        have onward := inductionHypothesis flaggedPaved
        exact onward further ran
      · obtain ⟨moved, forkedState, followed, ran⟩ :=
          Program.bind_eq_ok.mp ran
        obtain ⟨pavedMoved, sameNodes⟩ :=
          paved_followLink paved (List.mem_append_left _ known)
            (isLinks link (List.mem_cons_self ..)) followed
        have sameNode :
            ∀ node, forkedState.spec.node node = before.spec.node node := by
          intro node
          unfold TFSpec.node
          rw [sameNodes]
        obtain ⟨pavedRest, sameRest⟩ :=
          inductionHypothesis
            (pavedMoved.only (by
              intro iterator member
              simp only [List.mem_append, List.mem_cons] at member ⊢
              tauto))
            (by
              intro other member
              rw [sameNode]
              exact further other member)
            ran
        exact ⟨pavedRest, sameRest.trans sameNodes⟩

/-- A round keeps to the graph. -/
theorem paved_popRound
    {goal : Option Nat}
    {todo done appended next : List TFSpecIterator}
    {before after : TFSpecState}
    (paved : Paved nodes trees (todo ++ (done ++ appended)) before)
    (ran : popRound goal todo done appended before = .ok (next, after)) :
    Paved nodes trees next after := by
  induction todo generalizing done appended before with
  | nil =>
      cases ran
      exact paved
  | cons current todo inductionHypothesis =>
      rw [popRound_cons] at ran
      obtain ⟨_, read, settled, ran⟩ := Program.bind_eq_ok.mp ran
      have pavedRead := paved_settleFor paved settled
      unfold walkFrom at ran
      obtain ⟨links, _, asked, ran⟩ := Program.bind_eq_ok.mp ran
      simp only [asks, Program.gets_apply, Except.ok.injEq,
        Prod.mk.injEq] at asked
      obtain ⟨isLinks, rfl⟩ := asked
      obtain ⟨ends, _, asked, ran⟩ := Program.bind_eq_ok.mp ran
      cases asked
      split at ran
      · obtain ⟨_, recorded, added, ran⟩ := Program.bind_eq_ok.mp ran
        have pavedAdded :=
          paved_addSlice pavedRead (List.mem_cons_self ..) added
        exact inductionHypothesis
          (pavedAdded.only (List.subset_cons_self _ _)) ran
      · cases links with
        | nil =>
            exact inductionHypothesis
              (pavedRead.only (List.subset_cons_self _ _)) ran
        | cons first further =>
            have all :
                ∀ link ∈ first :: further,
                  link ∈ (read.spec.node current.node).links := by
              intro link member
              rw [isLinks]
              exact member
            have pavedHere :
                Paved nodes trees ((current :: (todo ++ done)) ++ appended)
                  read := by
              refine pavedRead.only ?_
              intro iterator member
              simp only [List.mem_append, List.mem_cons] at member ⊢
              tauto
            obtain ⟨forked, forkedState, forks, ran⟩ :=
              Program.bind_eq_ok.mp ran
            obtain ⟨moved, movedState, moves, ran⟩ :=
              Program.bind_eq_ok.mp ran
            obtain ⟨pavedForked, sameForked⟩ :=
              paved_forkIterators pavedHere (List.mem_cons_self ..)
                (fun link member =>
                  all link (List.mem_cons_of_mem _ member))
                forks
            have stillFirst :
                first ∈ (forkedState.spec.node current.node).links := by
              unfold TFSpec.node
              rw [sameForked]
              exact all first (List.mem_cons_self ..)
            obtain ⟨pavedMoved, _⟩ :=
              paved_followLink pavedForked
                (List.mem_append_left _ (List.mem_cons_self ..))
                stillFirst moves
            refine inductionHypothesis (pavedMoved.only ?_) ran
            intro iterator member
            simp only [List.mem_append, List.mem_cons, List.not_mem_nil,
              or_false] at member ⊢
            tauto

/-- The breadth-first walk keeps to the graph. -/
theorem paved_popTurns
    {goal : Option Nat}
    {fuel : Nat}
    {iterators : List TFSpecIterator}
    {before after : TFSpecState}
    (paved : Paved nodes trees iterators before)
    (ran :
      Program.iterate .stuck (popTurn goal) fuel iterators before =
        .ok ((), after)) :
    Paved nodes trees [] after := by
  induction fuel generalizing iterators before with
  | zero =>
      cases ran
  | succ fuel inductionHypothesis =>
      obtain ⟨outcome, _, turned, ran⟩ := Program.bind_eq_ok.mp ran
      cases iterators with
      | nil =>
          cases turned
          cases ran
          exact paved
      | cons first rest =>
          obtain ⟨next, _, rounded, ended⟩ := Program.bind_eq_ok.mp turned
          cases ended
          refine inductionHypothesis (paved_popRound ?_ rounded) ran
          simpa using paved

/-- The walk down a chain keeps to the graph. -/
theorem paved_chainTurns
    {goal : Option Nat}
    {fuel : Nat}
    {current : TFSpecIterator}
    {answer : Bool}
    {before after : TFSpecState}
    (paved : Paved nodes trees [current] before)
    (ran :
      Program.iterate .stuck (chainTurn goal) fuel current before =
        .ok (answer, after)) :
    Paved nodes trees [] after := by
  induction fuel generalizing current before with
  | zero =>
      cases ran
  | succ fuel inductionHypothesis =>
      obtain ⟨outcome, turnedState, turned, ran⟩ :=
        Program.bind_eq_ok.mp ran
      cases goes : before.spec.popEnds goal current.node current.count with
      | true =>
          obtain ⟨nodeKnown, pathKnown⟩ :=
            paved.iterators current (List.mem_singleton_self _)
          obtain ⟨rfl, capacity, heap, rfl⟩ := chainTurn_ends goes turned
          cases ran
          refine ⟨paved.roomy.of_same rfl (Nat.le_refl _) ?_, ?_, nofun⟩
          · intro head member
            rcases List.mem_append.mp member with old | new
            · exact paved.roomy.linked.heads head old
            · rw [List.mem_singleton.mp new]
              exact nodeKnown
          · intro slice member
            rw [List.mem_singleton.mp member]
            exact pathKnown
      | false =>
          rw [chainTurn_goes goes] at turned
          obtain ⟨_, read, settled, turned⟩ := Program.bind_eq_ok.mp turned
          have pavedRead := paved_settleFor paved settled
          cases outcome with
          | inl onward =>
              obtain ⟨rfl, link, links, rfl⟩ := chainOn_goes turned
              have isLink :
                  link ∈ (turnedState.spec.node current.node).links := by
                rw [links]
                exact List.mem_singleton_self _
              have stepped :=
                pavedRead.step (List.mem_singleton_self _) isLink
              refine inductionHypothesis (stepped.only ?_) ran
              exact List.cons_subset_cons _ (List.nil_subset _)
          | inr answer =>
              have same : turnedState = read := by
                unfold chainOn at turned
                obtain ⟨links, _, asked, turned⟩ :=
                  Program.bind_eq_ok.mp turned
                simp only [asks, Program.gets_apply, Except.ok.injEq,
                  Prod.mk.injEq] at asked
                obtain ⟨_, rfl⟩ := asked
                split at turned
                · cases turned
                · cases turned
                  rfl
              cases ran
              rw [same]
              exact pavedRead.only (List.nil_subset _)

/-- A pop leaves slices of trees of the graph. -/
theorem paved_pop
    {fuel version : Nat}
    {goal : Option Nat}
    {before after : TFSpecState}
    (roomy : Roomy nodes trees before)
    (ran : pop fuel version goal before = .ok ((), after)) :
    Paved nodes trees [] after := by
  unfold pop at ran
  obtain ⟨_, start, cleared, ran⟩ := Program.bind_eq_ok.mp ran
  cases cleared
  have lone :
      ∀ {state : TFSpecState},
        Paved nodes trees [] state →
          Paved nodes trees
            [⟨(state.spec.head version).node, 0, []⟩] state := by
    intro state paved
    refine ⟨paved.roomy, paved.slices, ?_⟩
    intro iterator member
    rw [List.mem_singleton.mp member]
    exact ⟨paved.roomy.head version, nofun⟩
  have begun :
      Paved nodes trees []
        { before with
          spec := { before.spec with slices := [], edgeCount := 0 } } :=
    ⟨roomy.of_same rfl (Nat.le_refl _) roomy.linked.heads, nofun, nofun⟩
  obtain ⟨answer, chainedState, chained, ran⟩ := Program.bind_eq_ok.mp ran
  rw [popChain_eq] at chained
  obtain ⟨head, _, asked, chained⟩ := Program.bind_eq_ok.mp chained
  simp only [asks, Program.gets_apply, Except.ok.injEq,
    Prod.mk.injEq] at asked
  obtain ⟨rfl, rfl⟩ := asked
  have pavedChain := paved_chainTurns (lone begun) chained
  cases answer with
  | true =>
      cases ran
      exact pavedChain
  | false =>
      rw [if_neg Bool.false_ne_true, popPaths_eq] at ran
      obtain ⟨head, _, asked, ran⟩ := Program.bind_eq_ok.mp ran
      simp only [asks, Program.gets_apply, Except.ok.injEq,
        Prod.mk.injEq] at asked
      obtain ⟨rfl, rfl⟩ := asked
      exact paved_popTurns (lone pavedChain) ran

/-! ### Reducing, shifting and accepting -/

/-- The trees a reduction leaves on top come from its path. -/
theorem rooms_pushExtras
    (state : TSStateId)
    {extras : List Nat}
    {top : Nat}
    (topKnown : top < nodes)
    (extrasKnown : ∀ tree ∈ extras, tree < trees) :
    Ensures (Roomy nodes trees) (pushExtras state extras top)
      (fun last state' =>
        Roomy nodes trees state' ∧ last < state'.spec.nodes.length) := by
  induction extras generalizing top nodes with
  | nil =>
      intro before value after roomy ran
      cases ran
      exact ⟨roomy, Nat.lt_of_lt_of_le topKnown roomy.nodes⟩
  | cons tree rest inductionHypothesis =>
      unfold pushExtras
      refine Ensures.bind
        (rooms_push state topKnown (extrasKnown tree (List.mem_cons_self ..)))
        (fun pushed => ?_)
      have pushedKnown : pushed < max nodes (pushed + 1) := by
        omega
      have later :=
        inductionHypothesis pushedKnown
          (fun other member =>
            extrasKnown other (List.mem_cons_of_mem _ member))
      exact later.weaken
        (fun last state' known =>
          ⟨known.1.weaken (by omega) (Nat.le_refl _), known.2⟩)

/-- Adding the tree of a reduction. -/
theorem rooms_parent
    (symbol : TSSymbol)
    (production structural : Nat)
    (children : List Nat)
    (base : Nat) :
    Ensures (Roomy nodes trees)
      (parent symbol production structural children base)
      (fun id => Roomy nodes (max trees (id + 1))) := by
  unfold parent
  exact Ensures.bind rooms_asks (fun tree => rooms_newTree tree)

section Turns

variable {env : TFSpecEnv}
variable
  (rooms :
    ∀ {nodes trees}, Maintains (Roomy nodes trees) env.materialize)

include rooms

/-- Choosing a parent adds it, and leaves trees of one path. -/
theorem rooms_selectParent
    {symbol : TSSymbol}
    {childCount productionId base : Nat}
    {paths : List (List Nat)}
    {chosen : Option (Nat × List Nat)}
    (pathsKnown : ∀ path ∈ paths, ∀ tree ∈ path, tree < trees)
    (chosenKnown :
      ∀ tree trailing, chosen = some (tree, trailing) →
        tree < trees ∧ ∀ other ∈ trailing, other < trees) :
    Ensures (Roomy nodes trees)
      (selectParent env symbol childCount productionId base paths chosen)
      (fun answer state =>
        Roomy nodes trees state ∧
          ∀ tree trailing, answer = some (tree, trailing) →
            tree < state.spec.trees.length ∧
              ∀ other ∈ trailing, other < state.spec.trees.length) := by
  induction paths generalizing chosen trees with
  | nil =>
      intro before value after roomy ran
      cases ran
      refine ⟨roomy, ?_⟩
      intro tree trailing isChosen
      obtain ⟨treeKnown, trailingKnown⟩ :=
        chosenKnown tree trailing isChosen
      exact ⟨Nat.lt_of_lt_of_le treeKnown roomy.trees,
        fun other member =>
          Nat.lt_of_lt_of_le (trailingKnown other member) roomy.trees⟩
  | cons path rest inductionHypothesis =>
      unfold selectParent
      refine Ensures.bind rooms_asks (fun trimmed => ?_)
      refine Ensures.bind (rooms_parent _ _ _ _ _) (fun candidate => ?_)
      refine Ensures.bind (rooms_prefer rooms _ _ _) (fun better => ?_)
      have larger :
          ∀ {tree}, tree < trees → tree < max trees (candidate + 1) := by
        intro tree known
        omega
      have restKnown :
          ∀ other ∈ rest, ∀ tree ∈ other,
            tree < max trees (candidate + 1) :=
        fun other member tree isTree =>
          larger
            (pathsKnown other (List.mem_cons_of_mem _ member) tree isTree)
      split
      · refine (inductionHypothesis restKnown ?_).weaken
          (fun answer state known =>
            ⟨known.1.weaken (Nat.le_refl _) (by omega), known.2⟩)
        intro tree trailing isChosen
        cases isChosen
        refine ⟨by omega, ?_⟩
        intro other member
        exact larger
          (pathsKnown path (List.mem_cons_self ..) other
            (List.mem_of_mem_drop member))
      · refine (inductionHypothesis restKnown ?_).weaken
          (fun answer state known =>
            ⟨known.1.weaken (Nat.le_refl _) (by omega), known.2⟩)
        intro tree trailing isChosen
        obtain ⟨treeKnown, trailingKnown⟩ :=
          chosenKnown tree trailing isChosen
        exact ⟨larger treeKnown,
          fun other member => larger (trailingKnown other member)⟩

/-- Merging a new head below. -/
theorem rooms_mergeBelow
    (version created : Nat)
    (others : List Nat) :
    Maintains (Roomy nodes trees)
      (mergeBelow env version created others) := by
  induction others with
  | nil =>
      exact Maintains.pure
  | cons other rest inductionHypothesis =>
      unfold mergeBelow
      refine Maintains.ite inductionHypothesis ?_
      refine Maintains.bind (rooms_merge rooms _ _ _) (fun merged => ?_)
      exact Maintains.ite Maintains.pure inductionHypothesis

/-- The reduction over the paths to one base. -/
theorem rooms_reduceGroup
    {version created : Nat}
    {symbol : TSSymbol}
    {childCount productionId : Nat}
    {dynamicPrecedence : Int}
    {paths : List (List Nat)}
    (pathsKnown : ∀ path ∈ paths, ∀ tree ∈ path, tree < trees) :
    Maintains (Roomy nodes trees)
      (reduceGroup env version created symbol childCount productionId
        dynamicPrecedence paths) := by
  intro before value after roomy ran
  unfold reduceGroup at ran
  obtain ⟨head, _, asked, ran⟩ := Program.bind_eq_ok.mp ran
  simp only [asks, Program.gets_apply, Except.ok.injEq,
    Prod.mk.injEq] at asked
  obtain ⟨rfl, rfl⟩ := asked
  have baseKnown := roomy.head created
  obtain ⟨chosen, selected, selects, ran⟩ := Program.bind_eq_ok.mp ran
  have larger :
      ∀ path ∈ paths, ∀ tree ∈ path, tree < before.spec.trees.length :=
    fun path member tree isTree =>
      Nat.lt_of_lt_of_le (pathsKnown path member tree isTree) roomy.trees
  obtain ⟨roomySelected, known⟩ :=
    rooms_selectParent rooms larger
      (by
        intro tree trailing isChosen
        cases isChosen)
      _ _ _ roomy.exact selects
  cases chosen with
  | none =>
      cases ran
  | some chosen =>
      obtain ⟨tree, trailing⟩ := chosen
      obtain ⟨treeKnown, trailingKnown⟩ := known tree trailing rfl
      suffices
          Roomy before.spec.nodes.length before.spec.trees.length after from
        this.weaken roomy.nodes roomy.trees
      have nodesStill := roomySelected.nodes
      have treesStill := roomySelected.trees
      suffices
          Roomy selected.spec.nodes.length selected.spec.trees.length
            after from
        this.weaken nodesStill treesStill
      obtain ⟨_, raised, modified, ran⟩ := Program.bind_eq_ok.mp ran
      have raises :
          Maintains
            (Roomy selected.spec.nodes.length selected.spec.trees.length)
            (update (fun spec =>
              spec.modifyTree tree (fun parent =>
                { parent with
                  precedence := parent.precedence + dynamicPrecedence }))) :=
        rooms_update (fun _ => rfl) (by simp [modifyTree]) (fun _ => rfl)
      have roomyRaised := raises _ _ _ roomySelected.exact modified
      obtain ⟨state, _, asked, ran⟩ := Program.bind_eq_ok.mp ran
      simp only [asks, Program.gets_apply, Except.ok.injEq,
        Prod.mk.injEq] at asked
      obtain ⟨rfl, rfl⟩ := asked
      obtain ⟨pushed, pushedState, pushes, ran⟩ := Program.bind_eq_ok.mp ran
      have roomyPushed :=
        rooms_push _ (Nat.lt_of_lt_of_le baseKnown nodesStill) treeKnown
          _ _ _ roomyRaised pushes
      obtain ⟨top, extraState, extras, ran⟩ := Program.bind_eq_ok.mp ran
      obtain ⟨roomyExtras, topKnown⟩ :=
        rooms_pushExtras _ (by omega) trailingKnown _ _ _ roomyPushed extras
      obtain ⟨_, movedState, moved, ran⟩ := Program.bind_eq_ok.mp ran
      have moves :
          Maintains
            (Roomy extraState.spec.nodes.length extraState.spec.trees.length)
            (update (fun spec =>
              spec.modifyHead created (fun head =>
                { head with node := top }))) :=
        rooms_modifyHead (fun _ _ => Or.inl topKnown)
      have roomyMoved := moves _ _ _ roomyExtras.exact moved
      have merged :=
        rooms_mergeBelow rooms version created (List.range created)
          _ _ _ roomyMoved ran
      have := roomyExtras.nodes
      have := roomyExtras.trees
      exact merged.weaken (by omega) (by omega)

/-- The reduction over every group of slices. -/
theorem rooms_reduceGroups
    {version halted : Nat}
    {symbol : TSSymbol}
    {childCount productionId : Nat}
    {dynamicPrecedence : Int}
    {groups : List (Nat × List (List Nat))}
    {removed : Nat}
    (groupsKnown :
      ∀ group ∈ groups, ∀ path ∈ group.2, ∀ tree ∈ path, tree < trees) :
    Maintains (Roomy nodes trees)
      (reduceGroups env version halted symbol childCount productionId
        dynamicPrecedence groups removed) := by
  induction groups generalizing removed with
  | nil =>
      exact Maintains.pure
  | cons group rest inductionHypothesis =>
      have restKnown :
          ∀ other ∈ rest, ∀ path ∈ other.2, ∀ tree ∈ path, tree < trees :=
        fun other member => groupsKnown other (List.mem_cons_of_mem _ member)
      obtain ⟨slice, paths⟩ := group
      unfold reduceGroups
      refine Maintains.ite ?_ ?_
      · refine Maintains.bind (rooms_removeHead _) (fun _ => ?_)
        refine Maintains.bind
          (rooms_update (fun _ => rfl) (fun _ => rfl) (fun _ => rfl))
          (fun _ => ?_)
        exact inductionHypothesis restKnown
      · refine Maintains.bind ?_ (fun merged => ?_)
        · exact rooms_reduceGroup rooms
            (groupsKnown _ (List.mem_cons_self ..))
        · exact inductionHypothesis restKnown

omit rooms in
/-- The paths of the groups are those of the slices. -/
theorem sliceGroups_children
    {slices : List TFSpecSlice}
    {group : Nat × List (List Nat)}
    (isGroup : group ∈ sliceGroups slices)
    {path : List Nat}
    (isPath : path ∈ group.2) :
    ∃ slice ∈ slices, slice.children = path := by
  induction slices generalizing group with
  | nil =>
      cases isGroup
  | cons slice rest inductionHypothesis =>
      have behind :
          ∀ {other : Nat × List (List Nat)},
            other ∈ sliceGroups rest → path ∈ other.2 →
              ∃ known ∈ slice :: rest, known.children = path := by
        intro other isOther inOther
        obtain ⟨known, member, same⟩ := inductionHypothesis isOther inOther
        exact ⟨known, List.mem_cons_of_mem _ member, same⟩
      unfold sliceGroups at isGroup
      cases groups : sliceGroups rest with
      | nil =>
          rw [groups] at isGroup
          rw [List.mem_singleton.mp isGroup] at isPath
          rw [List.mem_singleton.mp isPath]
          exact ⟨slice, List.mem_cons_self .., rfl⟩
      | cons first others =>
          obtain ⟨version, paths⟩ := first
          rw [groups] at isGroup behind
          dsimp only at isGroup
          split at isGroup
          · rcases List.mem_cons.mp isGroup with rfl | old
            · rcases List.mem_cons.mp isPath with rfl | older
              · exact ⟨slice, List.mem_cons_self .., rfl⟩
              · exact behind (List.mem_cons_self ..) older
            · exact behind (List.mem_cons_of_mem _ old) isPath
          · rcases List.mem_cons.mp isGroup with rfl | old
            · rw [List.mem_singleton.mp isPath]
              exact ⟨slice, List.mem_cons_self .., rfl⟩
            · exact behind old isPath

/-- Reducing a head. -/
theorem rooms_reduce
    (version childCount : Nat)
    (symbol : TSSymbol)
    (dynamicPrecedence : Int)
    (productionId : Nat) :
    Maintains (Roomy nodes trees)
      (reduce env version childCount symbol dynamicPrecedence
        productionId) := by
  unfold reduce
  refine Maintains.bind rooms_asks (fun initial => ?_)
  refine Maintains.bind rooms_asks (fun halted => ?_)
  intro before value after roomy ran
  obtain ⟨_, popped, pops, ran⟩ := Program.bind_eq_ok.mp ran
  have paved := paved_pop roomy.exact pops
  obtain ⟨slices, _, asked, ran⟩ := Program.bind_eq_ok.mp ran
  simp only [asks, Program.gets_apply, Except.ok.injEq,
    Prod.mk.injEq] at asked
  obtain ⟨rfl, rfl⟩ := asked
  obtain ⟨_, reduced, reduces, ran⟩ := Program.bind_eq_ok.mp ran
  have groupsKnown :
      ∀ group ∈ sliceGroups popped.spec.slices, ∀ path ∈ group.2,
        ∀ tree ∈ path, tree < popped.spec.trees.length := by
    intro group isGroup path isPath
    obtain ⟨slice, member, rfl⟩ := sliceGroups_children isGroup isPath
    exact paved.slices slice member
  have roomyReduced :=
    rooms_reduceGroups rooms groupsKnown _ _ _ paved.roomy.exact reduces
  obtain ⟨left, _, asked, ran⟩ := Program.bind_eq_ok.mp ran
  simp only [asks, Program.gets_apply, Except.ok.injEq,
    Prod.mk.injEq] at asked
  obtain ⟨rfl, rfl⟩ := asked
  suffices same : after = reduced by
    rw [same]
    have := paved.roomy.nodes
    have := paved.roomy.trees
    have := roomy.nodes
    have := roomy.trees
    exact roomyReduced.weaken (by omega) (by omega)
  split at ran
  · cases ran
    rfl
  · cases ran
    rfl

omit rooms in
/-- Shifting a token on a head. -/
theorem rooms_shift
    (version : Nat)
    (token : TFToken)
    (state : TSStateId)
    (extra : Bool) :
    Maintains (Roomy nodes trees) (shift version token state extra) := by
  intro before value after roomy ran
  unfold shift at ran
  obtain ⟨head, _, asked, ran⟩ := Program.bind_eq_ok.mp ran
  simp only [asks, Program.gets_apply, Except.ok.injEq,
    Prod.mk.injEq] at asked
  obtain ⟨rfl, rfl⟩ := asked
  obtain ⟨byte, _, asked, ran⟩ := Program.bind_eq_ok.mp ran
  simp only [asks, Program.gets_apply, Except.ok.injEq,
    Prod.mk.injEq] at asked
  obtain ⟨rfl, rfl⟩ := asked
  obtain ⟨leaf, leafState, made, ran⟩ := Program.bind_eq_ok.mp ran
  have roomyLeaf := rooms_newTree _ _ _ _ roomy.exact made
  obtain ⟨node, nodeState, pushes, ran⟩ := Program.bind_eq_ok.mp ran
  have roomyNode :=
    rooms_push state (roomy.head version) (by omega) _ _ _ roomyLeaf pushes
  have moves :
      Maintains
        (Roomy (max before.spec.nodes.length (node + 1))
          (max before.spec.trees.length (leaf + 1)))
        (update (fun spec =>
          spec.modifyHead version (fun head => { head with node := node }))) :=
    rooms_modifyHead
      (fun _ _ => Or.inl (show node < _ from by omega))
  have := roomy.nodes
  have := roomy.trees
  exact (moves _ _ _ roomyNode ran).weaken (by omega) (by omega)

omit rooms in
/-- Lexing leaves the graph alone. -/
theorem rooms_lex
    (node : Nat) :
    Maintains (Roomy nodes trees) (lex env node) := by
  have noted :
      ∀ {α : Type} {change : TFSpecState → α × TFSpecState},
        (∀ state,
          (change state).2.spec.nodes = state.spec.nodes ∧
            (change state).2.spec.trees = state.spec.trees ∧
            (change state).2.spec.heads = state.spec.heads) →
          Maintains (Roomy nodes trees)
            (Program.modifyGet change : SpecM α) := by
    intro α change same before value after roomy ran
    have reached : (change before).2 = after := by
      simp only [Program.modifyGet_apply, Except.ok.injEq] at ran
      rw [ran]
    obtain ⟨sameNodes, sameTrees, sameHeads⟩ := same before
    rw [reached] at sameNodes sameTrees sameHeads
    refine roomy.of_same sameNodes
      (Nat.le_of_eq (congrArg List.length sameTrees).symm) ?_
    rw [sameHeads]
    exact roomy.linked.heads
  unfold lex
  refine Maintains.bind rooms_asks (fun at_ => ?_)
  refine Maintains.bind rooms_asks (fun reuse => ?_)
  refine Maintains.ite rooms_asks ?_
  refine Maintains.bind (noted (fun _ => ⟨rfl, rfl, rfl⟩)) (fun found => ?_)
  cases found with
  | none =>
      refine Maintains.bind ?_ (fun _ => Maintains.pure)
      intro before value after roomy ran
      cases ran
      have same :
          ∀ self : TFSpec, ∀ byte point state symbol isLex,
            (self.recordError byte point state symbol isLex).nodes =
                self.nodes ∧
              (self.recordError byte point state symbol isLex).trees =
                self.trees ∧
              (self.recordError byte point state symbol isLex).heads =
                self.heads := by
        intro self byte point state symbol isLex
        unfold recordError
        split
        · exact ⟨rfl, rfl, rfl⟩
        · exact ⟨rfl, rfl, rfl⟩
      obtain ⟨sameNodes, sameTrees, sameHeads⟩ :=
        same before.spec before.lexer.byte before.lexer.point at_.state 0 true
      refine roomy.of_same sameNodes
        (Nat.le_of_eq (congrArg List.length sameTrees).symm) ?_
      dsimp only
      rw [sameHeads]
      exact roomy.linked.heads
  | some token =>
      exact noted (fun _ => ⟨rfl, rfl, rfl⟩)

/-- Rebuilding a root adds a tree. -/
theorem rooms_acceptPath
    (path : List Nat) :
    Maintains (Roomy nodes trees) (acceptPath env path) := by
  have rebuilds :
      ∀ index, Maintains (Roomy nodes trees) (do
        let root ← asks (fun s => s.tree (path.getD index 0))
        let children :=
          path.take index ++ root.children ++ path.drop (index + 1)
        reserve .children ((← asks TFSpec.childCount) + children.length)
        update (fun s =>
          { s with childCount := s.childCount + children.length })
        let candidate ←
          parent root.token.symbol root.productionId root.structuralCount
            children 0
        if ← prefer env.materialize env.fuel (← asks TFSpec.finished)
            candidate then
          update (fun s => { s with finished := some candidate })) := by
    intro index
    refine Maintains.bind rooms_asks (fun root => ?_)
    refine Maintains.bind rooms_asks (fun count => ?_)
    refine Maintains.bind (rooms_reserve _ _) (fun _ => ?_)
    refine Maintains.bind
      (rooms_update (fun _ => rfl) (fun _ => rfl) (fun _ => rfl))
      (fun _ => ?_)
    refine Maintains.bind ?_ (fun candidate => ?_)
    · exact (rooms_parent _ _ _ _ _).weaken
        (fun id state known => known.weaken (Nat.le_refl _) (by omega))
    · refine Maintains.bind rooms_asks (fun finished => ?_)
      refine Maintains.bind (rooms_prefer rooms _ _ _) (fun better => ?_)
      exact Maintains.ite
        (rooms_update (fun _ => rfl) (fun _ => rfl) (fun _ => rfl))
        Maintains.pure
  unfold acceptPath
  refine Maintains.bind rooms_asks (fun found => ?_)
  cases found with
  | none =>
      exact Maintains.pure
  | some index =>
      refine Maintains.bind rooms_asks (fun unknown => ?_)
      exact Maintains.ite
        (Maintains.bind rooms (fun _ => rebuilds index)) (rebuilds index)

end Turns

end Rooms

/-! ### Whole explorations -/

/-- What a driver's splits are given, that of a private replay included. -/
def splitEnv (lang : TFLanguage) (fuel : Nat) : TFSpecEnv where
  lang := lang
  materialize := materialize lang fuel
  fuel := fuel

/--
The programs a split runs on its graph, one after another.  Accepting first
unrolls the stack and then shifts the end token.
-/
inductive Turn (env : TFSpecEnv) : {α : Type} → SpecM α → Prop where
  | extend : Turn env extend
  | lex (node : Nat) : Turn env (lex env node)
  | shift
      (version : Nat)
      (token : TFToken)
      (state : TSStateId)
      (extra : Bool) :
      Turn env (shift version token state extra)
  | reduce
      (version childCount : Nat)
      (symbol : TSSymbol)
      (dynamicPrecedence : Int)
      (productionId : Nat) :
      Turn env
        (reduce env version childCount symbol dynamicPrecedence productionId)
  | pop (fuel version : Nat) (goal : Option Nat) :
      Turn env (pop fuel version goal)
  | acceptPath (path : List Nat) : Turn env (acceptPath env path)
  | merge (fuel a b : Nat) : Turn env (merge env.materialize fuel a b)
  | halt (version : Nat) (errored : Bool) : Turn env (halt version errored)
  | removeHead (version : Nat) : Turn env (removeHead version)
  | follow (version last : Nat) :
      Turn env
        (update (fun s => s.modifyHead version (fun _ => s.head last)))
  | recordError
      (byte : Nat)
      (point : TFPoint)
      (state : TSStateId)
      (symbol : TSSymbol)
      (isLex : Bool) :
      Turn env
        (update (fun s => s.recordError byte point state symbol isLex))
  | swap (i j : Nat) :
      Turn env
        (update (fun s =>
          { s with heads := (s.heads.set i (s.head j)).set j (s.head i) }))
  | cut :
      Turn env
        (update (fun s => { s with heads := s.heads.take tfSpecVersions }))
  /-- The flag is not the source's, and no program reads it. -/
  | flag (limited : Bool) :
      Turn env (update (fun s => { s with limited := limited }))

/-- The graphs that splits reach. -/
inductive Reached (lang : TFLanguage) (fuel : Nat) : TFSpecState → Prop where
  | begun
      {self : TFSpec}
      {owner : TFSpecOwner}
      {token : TFToken}
      {lexState : TSStateId}
      {keyword : Bool}
      {lexer : TFLexer}
      {heap : Heap}
      {top version : Nat}
      {reserved placed after : TFSpecState}
      (room :
        reserve .nodes 1
            ⟨self.begin owner token lexState keyword, lexer, heap⟩ =
          .ok ((), reserved))
      (node :
        addNode (forkNode reserved.spec.owner) reserved = .ok (top, placed))
      (head : newHead top placed = .ok (version, after)) :
      Reached lang fuel after
  | turn
      {α : Type}
      {program : SpecM α}
      {value : α}
      {before after : TFSpecState}
      (earlier : Reached lang fuel before)
      (turn : Turn (splitEnv lang fuel) program)
      (ran : program before = .ok (value, after)) :
      Reached lang fuel after

/-- Every program of a split keeps to the graph. -/
theorem Turn.rooms
    {lang : TFLanguage}
    {fuel nodes trees : Nat}
    {α : Type}
    {program : SpecM α}
    (turn : Turn (splitEnv lang fuel) program) :
    Maintains (Roomy nodes trees) program := by
  have recovers :
      ∀ {nodes trees},
        Maintains (Roomy nodes trees) (splitEnv lang fuel).materialize :=
    rooms_materialize lang fuel
  cases turn with
  | extend =>
      exact rooms_extend
  | lex node =>
      exact rooms_lex node
  | shift version token state extra =>
      exact rooms_shift version token state extra
  | reduce version childCount symbol dynamicPrecedence productionId =>
      exact rooms_reduce recovers version childCount symbol
        dynamicPrecedence productionId
  | pop fuel' version goal =>
      intro before value after roomy ran
      exact (paved_pop roomy ran).roomy
  | acceptPath path =>
      exact rooms_acceptPath recovers path
  | merge fuel' a b =>
      exact rooms_merge recovers fuel' a b
  | halt version errored =>
      exact rooms_modifyHead (fun _ _ => Or.inr (Or.inr (Or.inl rfl)))
  | removeHead version =>
      exact rooms_removeHead version
  | follow version last =>
      refine rooms_modifyHead ?_
      intro spec head
      by_cases inRange : last < spec.heads.length
      · refine Or.inr (Or.inr (Or.inr ⟨spec.head last, ?_, rfl⟩))
        unfold TFSpec.head
        rw [List.getD_eq_getElem _ _ inRange]
        exact List.getElem_mem inRange
      · refine Or.inr (Or.inl ?_)
        unfold TFSpec.head
        rw [List.getD_eq_default _ _ (Nat.le_of_not_lt inRange)]
        rfl
  | recordError byte point state symbol isLex =>
      refine rooms_update ?_ ?_ ?_
      all_goals
        intro spec
        unfold TFSpec.recordError
        split
        · rfl
        · rfl
  | swap i j =>
      refine rooms_heads ?_
      intro spec head member
      have known :
          ∀ version,
            (spec.head version).node = 0 ∨
              ∃ old ∈ spec.heads, (spec.head version).node = old.node := by
        intro version
        unfold TFSpec.head
        by_cases inRange : version < spec.heads.length
        · rw [List.getD_eq_getElem _ _ inRange]
          exact Or.inr ⟨_, List.getElem_mem inRange, rfl⟩
        · rw [List.getD_eq_default _ _ (Nat.le_of_not_lt inRange)]
          exact Or.inl rfl
      rcases List.mem_or_eq_of_mem_set member with within | rfl
      · rcases List.mem_or_eq_of_mem_set within with old | rfl
        · exact Or.inr (Or.inr ⟨head, old, rfl⟩)
        · exact Or.inr (known j)
      · exact Or.inr (known i)
  | cut =>
      exact rooms_heads
        (fun _ head member =>
          Or.inr (Or.inr ⟨head, List.mem_of_mem_take member, rfl⟩))
  | flag limited =>
      exact rooms_update (fun _ => rfl) (fun _ => rfl) (fun _ => rfl)

/-- The first graph of a split has its node and its head. -/
theorem Reached.roomy
    {lang : TFLanguage}
    {fuel : Nat}
    {state : TFSpecState}
    (reached : Reached lang fuel state) :
    Roomy 0 0 state := by
  induction reached with
  | begun room node head =>
      obtain ⟨capacity, heap, rfl⟩ := reserve_eq_ok room
      unfold addNode at node
      obtain ⟨count, _, asked, node⟩ := Program.bind_eq_ok.mp node
      cases asked
      obtain ⟨_, _, added, node⟩ := Program.bind_eq_ok.mp node
      cases added
      cases node
      obtain ⟨capacity, heap, rfl, rfl⟩ := newHead_eq_ok head
      refine ⟨⟨?_, ?_⟩, Nat.zero_le _, Nat.zero_le _, ?_⟩
      · intro node member link isLink
        rw [List.mem_singleton.mp member] at isLink
        cases isLink
      · intro head member
        rw [List.mem_singleton.mp member]
        exact Nat.zero_lt_one
      · exact Nat.zero_lt_one
  | turn earlier turn ran inductionHypothesis =>
      exact turn.rooms _ _ _ inductionHypothesis ran

end TFSpec

end TreeFeller
