import TreeFeller.Graphs
import TreeFeller.Library.Rounds

namespace TreeFeller

open StatefulProgram

/-!
# The paths of a graph

A path goes down from a node, over links and over the inherited cells that have
not been unrolled yet.  Nodes and trees are numbered in the order in which they
are made, so it is known beforehand which numbers those of the cells will have,
and unrolling a cell changes none of the steps that a path can take.
-/

namespace TFSpec

open Program BreadthFirst

/-- A step down: the place of its link, and the node and tree it leads to. -/
structure Hop where
  place : Nat
  node : Nat
  tree : Nat
  extra : Bool
  deriving Repr, DecidableEq

/-- The steps over the links that a node has. -/
def linkHops (self : TFSpec) (node : Nat) : List Hop :=
  (self.node node).links.mapIdx
    (fun place link =>
      ⟨place, link.node, link.tree, (self.tree link.tree).extra⟩)

/--
How many inherited cells are still to be unrolled below a node.  The nodes of
those cells come behind the nodes there are.
-/
def cellsBelow (self : TFSpec) (node : Nat) : Nat :=
  if node = self.frontier then
    self.prefixLeft
  else if node < self.nodes.length then
    0
  else
    self.prefixLeft - 1 - (node - self.nodes.length)

/-- The step over the inherited cell that has so many others below it. -/
def cellHop (self : TFSpec) (others : Nat) : Hop where
  place := 0
  node := self.nodes.length + (self.prefixLeft - 1 - others)
  tree := self.trees.length + (self.prefixLeft - 1 - others)
  extra := (self.owner.cells.getD others default).node.extra

/--
The steps down from a node.  A pop of the whole stack takes the graph as it is;
any other goes on over the cells below it.
-/
def hops (self : TFSpec) (goal : Option Nat) (node : Nat) : List Hop :=
  match goal, self.cellsBelow node with
  | some _, others + 1 => [self.cellHop others]
  | _, _ => self.linkHops node

/-- The node that steps down lead to. -/
def endOf (start : Nat) (path : List Hop) : Nat :=
  (path.getLast?.map Hop.node).getD start

/-- How many of the trees passed are not extras. -/
def structuralCount (path : List Hop) : Nat :=
  path.countP (fun hop => !hop.extra)

/-- The trees passed, in the order of the source. -/
def treesOf (path : List Hop) : List Nat :=
  (path.map Hop.tree).reverse

/-- What is recorded of a path: where it ends, and its trees. -/
def entryOf (start : Nat) (path : List Hop) : Nat × List Nat :=
  (endOf start path, treesOf path)

/-- Whether a path has come to its end: at its goal, or where nothing is. -/
def arrived
    (self : TFSpec)
    (goal : Option Nat)
    (start : Nat)
    (path : List Hop) :
    Bool :=
  match goal with
  | some goal => structuralCount path == goal
  | none => (self.linkHops (endOf start path)).isEmpty

/-- A path from a node down to where it first comes to its end. -/
structure IsPath
    (spec : TFSpec)
    (goal : Option Nat)
    (start : Nat)
    (path : List Hop) : Prop where
  hops :
    ∀ front hop, front ++ [hop] <+: path →
      hop ∈ spec.hops goal (endOf start front)
  arrives : spec.arrived goal start path = true
  first :
    ∀ front, front <+: path → spec.arrived goal start front = true →
      front = path

/-- The steps that may follow a path under way. -/
def steps
    (self : TFSpec)
    (goal : Option Nat)
    (start : Nat)
    (path : List Hop) :
    List Hop :=
  if self.arrived goal start path then
    []
  else
    self.hops goal (endOf start path)

/-- Cells that are still to be unrolled come before links. -/
theorem hops_some
    (self : TFSpec)
    (goal node : Nat) :
    self.hops (some goal) node =
      match self.cellsBelow node with
      | 0 => self.linkHops node
      | others + 1 => [self.cellHop others] := by
  unfold hops
  cases self.cellsBelow node <;> rfl

@[simp] theorem endOf_concat
    (start : Nat)
    (path : List Hop)
    (hop : Hop) :
    endOf start (path ++ [hop]) = hop.node := by
  simp [endOf]

@[simp] theorem structuralCount_concat
    (path : List Hop)
    (hop : Hop) :
    structuralCount (path ++ [hop]) =
      structuralCount path + if hop.extra then 0 else 1 := by
  cases kind : hop.extra <;>
    simp [structuralCount, List.countP_append, kind]

@[simp] theorem treesOf_concat
    (path : List Hop)
    (hop : Hop) :
    treesOf (path ++ [hop]) = hop.tree :: treesOf path := by
  simp [treesOf]

section Paths

variable {self : TFSpec}
variable {goal : Option Nat}
variable {start : Nat}
variable {path : List Hop}

/-- The paths are the lists of steps that may follow, down to an end. -/
theorem isPath_iff :
    self.IsPath goal start path ↔
      Follows (self.steps goal start) path ∧
        self.arrived goal start path = true := by
  constructor
  · intro isPath
    refine ⟨?_, isPath.arrives⟩
    intro front hop isPrefix
    have goes : ¬ self.arrived goal start front = true := by
      intro ends
      have whole :=
        isPath.first front ((List.prefix_append _ _).trans isPrefix) ends
      subst whole
      have shorter := isPrefix.length_le
      rw [List.length_append, List.length_singleton] at shorter
      omega
    rw [steps, if_neg goes]
    exact isPath.hops front hop isPrefix
  · rintro ⟨follows, ends⟩
    refine ⟨?_, ends, ?_⟩
    · intro front hop isPrefix
      have may := follows front hop isPrefix
      unfold steps at may
      split at may
      · cases may
      · exact may
    · rintro front ⟨rest, rfl⟩ early
      cases rest with
      | nil =>
          exact (List.append_nil _).symm
      | cons hop rest =>
          have may := follows front hop ⟨rest, by simp⟩
          rw [steps, if_pos early] at may
          cases may

/-- No step down from a node is there twice. -/
theorem nodup_hops
    (self : TFSpec)
    (goal : Option Nat)
    (node : Nat) :
    (self.hops goal node).Nodup := by
  have links : (self.linkHops node).Nodup := by
    unfold linkHops
    rw [List.nodup_iff_injective_getElem]
    intro first second same
    have places := congrArg Hop.place same
    simp only [List.getElem_mapIdx] at places
    exact Fin.ext places
  unfold hops
  split
  · exact List.nodup_singleton _
  · exact links

/-- No step that may follow a path is there twice. -/
theorem nodup_steps
    (self : TFSpec)
    (goal : Option Nat)
    (start : Nat)
    (path : List Hop) :
    (self.steps goal start path).Nodup := by
  unfold steps
  split
  · exact List.nodup_nil
  · exact nodup_hops _ _ _

end Paths

/-! ### Unrolling changes no step -/

/-- The tree of a cell that is unrolled is an extra if the cell's was. -/
theorem extra_unrolled (self : TFSpec) :
    (self.unrolled.tree self.trees.length).extra =
      (self.owner.cells.getD (self.prefixLeft - 1) default).node.extra := by
  have last :
      ∀ added : TFSpecTree,
        (self.trees ++ [added]).getD self.trees.length default = added := by
    intro added
    simp
  unfold unrolled
  dsimp only
  split
  · rw [extra_resolve]
    unfold TFSpec.tree
    rw [last]
    rfl
  · unfold TFSpec.tree
    rw [last]
    rfl

/-- Unrolling leaves the stack that it unrolls. -/
theorem owner_unrolled (self : TFSpec) :
    self.unrolled.owner = self.owner := by
  unfold unrolled
  dsimp only
  split <;> rfl

section Unrolled

variable {self : TFSpec}

/-- Unrolling leaves the steps of nodes that are settled, or not there yet. -/
theorem linkHops_unrolled
    (linked : self.Linked)
    {node : Nat}
    (apart : node ≠ self.frontier) :
    self.unrolled.linkHops node = self.linkHops node := by
  have unrolls := unrolls_unrolled self
  have links :
      (self.unrolled.node node).links = (self.node node).links := by
    by_cases within : node < self.nodes.length
    · rw [unrolls.links within, if_neg (Ne.symm apart)]
    · obtain ⟨bottom, noLinks, nodes⟩ := unrolls.nodes
      rw [links_of_not_lt within]
      unfold TFSpec.node
      rw [nodes, List.getD_eq_getElem?_getD, List.getElem?_modify]
      simp only [if_neg (Ne.symm apart), id_map']
      by_cases isBottom : node = self.nodes.length
      · subst isBottom
        simpa using noLinks
      · rw [List.getElem?_eq_none
          (by rw [List.length_append, List.length_singleton]; omega)]
        rfl
  unfold linkHops
  rw [links]
  refine List.ext_getElem (by simp) ?_
  intro place inRange _
  rw [List.getElem_mapIdx, List.getElem_mapIdx]
  have known := (linked.link (List.getElem_mem (by simpa using inRange))).2
  rw [unrolls.trees.2 _ known]

/-- The step over a cell is the same before and after it is unrolled. -/
theorem linkHops_frontier
    (within : self.frontier < self.nodes.length) :
    self.unrolled.linkHops self.frontier =
      [self.cellHop (self.prefixLeft - 1)] := by
  unfold linkHops
  rw [(unrolls_unrolled self).links within, if_pos rfl]
  simp [cellHop, extra_unrolled]

/-- Unrolling changes no step down. -/
theorem hops_unrolled
    (linked : self.Linked)
    (within : self.frontier < self.nodes.length)
    (left : self.prefixLeft ≠ 0)
    (goal node : Nat) :
    self.unrolled.hops (some goal) node = self.hops (some goal) node := by
  have unrolls := unrolls_unrolled self
  have frontier := unrolls.frontier
  have prefixLeft := unrolls.prefixLeft
  have length := unrolls.length
  by_cases atFrontier : node = self.frontier
  · have before : self.cellsBelow node = self.prefixLeft - 1 + 1 := by
      rw [cellsBelow, if_pos atFrontier]
      omega
    have after : self.unrolled.cellsBelow node = 0 := by
      rw [cellsBelow, if_neg (by omega), if_pos (by omega)]
    rw [hops_some, hops_some, before, after, atFrontier]
    exact linkHops_frontier within
  · have same : self.unrolled.cellsBelow node = self.cellsBelow node := by
      unfold cellsBelow
      rw [frontier, prefixLeft, length]
      split <;> split <;> (try split) <;> omega
    rw [hops_some, hops_some, same]
    cases found : self.cellsBelow node with
    | zero =>
        exact linkHops_unrolled linked atFrontier
    | succ others =>
        have few : others + 2 ≤ self.prefixLeft := by
          unfold cellsBelow at found
          rw [if_neg atFrontier] at found
          split at found <;> omega
        simp only [cellHop, owner_unrolled, prefixLeft, length,
          unrolls.trees.1]
        congr 2 <;> omega

end Unrolled

/-! ### What a walk changes -/

/-- The graph alone, without heads, slices and accounts. -/
def ground (self : TFSpec) : TFSpec :=
  { self with
    heads := []
    slices := []
    childCount := 0
    edgeCount := 0
    capacity := fun _ => 0
    limited := false }

/-- Unrolling does not look at heads, slices and accounts. -/
theorem ground_unrolled (self : TFSpec) :
    self.unrolled.ground = self.ground.unrolled := by
  unfold unrolled ground
  dsimp only
  split <;> rfl

/-- The graph is the one before, with more of the stack unrolled. -/
structure Unwound
    (goal : Option Nat)
    (before after : TFSpec) : Prop where
  cells :
    ∃ cells ≤ before.prefixLeft,
      after.ground = TFSpec.unrolled^[cells] before.ground
  hops : ∀ node, after.hops goal node = before.hops goal node

/-- How much of the stack is left after so many cells. -/
theorem prefixLeft_iterate
    (self : TFSpec)
    (cells : Nat) :
    (TFSpec.unrolled^[cells] self).prefixLeft = self.prefixLeft - cells := by
  induction cells with
  | zero =>
      rfl
  | succ cells inductionHypothesis =>
      rw [Function.iterate_succ_apply', (unrolls_unrolled _).prefixLeft,
        inductionHypothesis]
      omega

namespace Unwound

variable {goal : Option Nat}
variable {first second third : TFSpec}

/-- The same graph. -/
theorem of_ground
    (same : second.ground = first.ground) :
    Unwound goal first second where
  cells := ⟨0, Nat.zero_le _, same⟩
  hops := by
    intro node
    show second.ground.hops goal node = first.ground.hops goal node
    rw [same]

/-- One cell more. -/
theorem of_unrolled
    (linked : first.Linked)
    (within : first.frontier < first.nodes.length)
    (left : first.prefixLeft ≠ 0)
    (some_ : goal.isSome = true)
    (same : second.ground = first.unrolled.ground) :
    Unwound goal first second where
  cells := by
    refine ⟨1, Nat.one_le_iff_ne_zero.mpr left, ?_⟩
    rw [same, ground_unrolled]
    rfl
  hops := by
    obtain ⟨goal, rfl⟩ := Option.isSome_iff_exists.mp some_
    intro node
    show second.ground.hops (some goal) node = _
    rw [same]
    exact hops_unrolled linked within left goal node

/-- One walk after another. -/
theorem trans
    (later : Unwound goal second third)
    (earlier : Unwound goal first second) :
    Unwound goal first third where
  cells := by
    obtain ⟨cells, enough, isSecond⟩ := earlier.cells
    obtain ⟨others, enough', isThird⟩ := later.cells
    refine ⟨others + cells, ?_, ?_⟩
    · have left : second.prefixLeft = first.prefixLeft - cells := by
        show second.ground.prefixLeft = first.ground.prefixLeft - cells
        rw [isSecond, prefixLeft_iterate]
      omega
    · rw [isThird, isSecond, Function.iterate_add_apply]
  hops := fun node => (later.hops node).trans (earlier.hops node)

/-- The same links end the paths. -/
theorem arrived
    (unwound : Unwound goal first second)
    (start : Nat)
    (path : List Hop) :
    second.arrived goal start path = first.arrived goal start path := by
  cases goal with
  | none =>
      have same := unwound.hops (endOf start path)
      simp only [TFSpec.hops] at same
      unfold TFSpec.arrived
      rw [same]
  | some goal =>
      rfl

end Unwound

/-! ### What leaves the graph alone -/

/-- The graph of a split's state. -/
def groundOf (state : TFSpecState) : TFSpec :=
  state.spec.ground

/-- Making room. -/
theorem ground_reserve (arena : TFSpecArena) (needed : Nat) :
    Keeps groundOf (reserve arena needed) := by
  intro before answer after ran
  obtain ⟨capacity, heap, rfl⟩ := reserve_eq_ok ran
  rfl

/-- Taking room for a slice. -/
theorem ground_reserveSlice (length slices : Nat) :
    Keeps groundOf (reserveSlice length slices) := by
  unfold reserveSlice
  refine Keeps.bind Keeps.gets (fun used => ?_)
  refine Keeps.bind (ground_reserve _ _) (fun _ => ?_)
  exact Keeps.bind (ground_reserve _ _)
    (fun _ => Keeps.modify (fun _ => rfl))

/-- Adding a head. -/
theorem ground_newHead (node : Nat) : Keeps groundOf (newHead node) := by
  unfold newHead
  refine Keeps.bind Keeps.gets (fun count => ?_)
  refine Keeps.bind (ground_reserve _ _) (fun _ => ?_)
  exact Keeps.bind (Keeps.modify (fun _ => rfl)) (fun _ => Keeps.pure)

/-- Recording a finished path. -/
theorem ground_addSlice (current : TFSpecIterator) :
    Keeps groundOf (addSlice current) := by
  unfold addSlice
  refine Keeps.bind Keeps.gets (fun slices => ?_)
  refine Keeps.bind (ground_reserveSlice _ _) (fun _ => ?_)
  refine Keeps.bind Keeps.gets (fun slot => ?_)
  cases slot with
  | none =>
      exact Keeps.bind (ground_newHead _)
        (fun version => Keeps.modify (fun _ => rfl))
  | some place =>
      exact Keeps.modify (fun _ => rfl)

/-- Following a link. -/
theorem ground_followLink (current : TFSpecIterator) (link : TFSpecLink) :
    Keeps groundOf (followLink current link) := by
  unfold followLink
  refine Keeps.bind Keeps.gets (fun used => ?_)
  refine Keeps.bind (ground_reserve _ _) (fun _ => ?_)
  exact Keeps.bind (Keeps.modify (fun _ => rfl)) (fun _ => Keeps.gets)

/-- Forking iterators. -/
theorem ground_forkIterators
    (current : TFSpecIterator)
    (others : Nat)
    (links : List TFSpecLink)
    (appended : List TFSpecIterator) :
    Keeps groundOf (forkIterators current others links appended) := by
  induction links generalizing appended with
  | nil =>
      exact Keeps.pure
  | cons link rest inductionHypothesis =>
      apply Keeps.ite
      · exact Keeps.bind (Keeps.modify (fun _ => rfl))
          (fun _ => inductionHypothesis _)
      · exact Keeps.bind (ground_followLink _ _)
          (fun forked => inductionHypothesis _)

end TFSpec

end TreeFeller
