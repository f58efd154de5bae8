import TreeFeller.PackedTables
import TreeFeller.Recovery

/-!
# The end token in a graph

Tables that never shift the end token, and name no production after it, leave
it to the driver: it takes the end token as the last child of the root, as an
extra.  So a tree of a graph is the end token only as an extra, and no tree
that a reduction builds is: whatever trees a split is given, adds and recovers.
-/

namespace TreeFeller

open StatefulProgram

/-- Tables that keep the end token for the root. -/
structure TFLanguage.ReservesEnd (lang : TFLanguage) : Prop where
  /-- The end token is never shifted. -/
  shifts :
    ∀ state target extra repetition,
      .shift target extra repetition ∉ lang.actions state tsBuiltinSymEnd
  /-- No production is named after it. -/
  reduces :
    ∀ state symbol childCount dynamicPrecedence productionId,
      .reduce childCount tsBuiltinSymEnd dynamicPrecedence productionId ∉
        lang.actions state symbol

/-- Whether an action reduces to the end token. -/
def TSParseAction.namesEnd : TSParseAction → Bool
  | .reduce _ symbol _ _ => symbol == tsBuiltinSymEnd
  | _ => false

/-- Whether an action shifts. -/
def TSParseAction.shifts : TSParseAction → Bool
  | .shift _ _ _ => true
  | _ => false

/-- Loaded tables whose entries, one by one, keep the end token apart. -/
theorem TFLanguage.Loaded.reservesEnd
    {lang : TFLanguage}
    (loaded : lang.Loaded)
    (extent :
      lang.dense.length ≤ lang.ts.stateCount * lang.ts.symbolCount)
    (empty : entryActions lang.ts 0 = [])
    (unshifted :
      ∀ state < lang.ts.stateCount,
        ∀ action ∈
          entryActions lang.ts (lang.lookup state tsBuiltinSymEnd),
          action.shifts = false)
    (unnamed :
      ∀ index ∈ lang.dense, ∀ action ∈ entryActions lang.ts index,
        action.namesEnd = false) :
    lang.ReservesEnd where
  shifts := by
    intro state target extra repetition known
    obtain ⟨offset, entry⟩ := loaded.entry_of_action known
    have member := List.mem_of_getElem? entry
    by_cases inRange : state < lang.ts.stateCount
    · cases unshifted state inRange _ member
    · have outside : lang.lookup state tsBuiltinSymEnd = 0 := by
        unfold TFLanguage.lookup
        refine List.getD_eq_default _ _ (Nat.le_trans extent ?_)
        exact Nat.le_trans
          (Nat.mul_le_mul_right _ (Nat.le_of_not_lt inRange))
          (Nat.le_add_right _ _)
      rw [outside, empty] at member
      cases member
  reduces := by
    intro state symbol childCount dynamicPrecedence productionId known
    obtain ⟨offset, entry⟩ := loaded.entry_of_action known
    have member := List.mem_of_getElem? entry
    unfold TFLanguage.lookup at member
    by_cases inRange :
        state * lang.ts.symbolCount + symbol < lang.dense.length
    · rw [List.getD_eq_getElem _ _ inRange] at member
      cases unnamed _ (List.getElem_mem inRange) _ member
    · rw [List.getD_eq_default _ _ (Nat.le_of_not_lt inRange), empty]
        at member
      cases member

/-- A node of a stack that is the end token only as an extra. -/
def TFNode.EndsAsExtra {V : Type} (self : TFNode V) : Prop :=
  self.symbol = tsBuiltinSymEnd → self.extra = true

/-- A tree that is the end token only as an extra that nothing reduces to. -/
def TFSpecTree.EndsAsExtra (self : TFSpecTree) : Prop :=
  self.token.symbol = tsBuiltinSymEnd →
    self.extra = true ∧ (self.leaf = true ∨ self.inherited = true)

namespace TFSpec

open Program

/-- A tree that is the end token as an extra only, over so many trees. -/
structure Apt (bound : Nat) (tree : TFSpecTree) : Prop where
  ends : tree.EndsAsExtra
  children : ∀ child ∈ tree.children, child < bound

/--
A graph of at least so many trees, none of which is the end token but as an
extra; some of them may be told apart as other symbols.
-/
structure Apart
    (count : Nat)
    (roots : Nat → Prop)
    (graph : TFSpec) : Prop where
  size : count ≤ graph.trees.length
  trees :
    ∀ index < graph.trees.length,
      Apt graph.trees.length (graph.tree index)
  roots :
    ∀ root, roots root →
      root < graph.trees.length ∧
        (graph.tree root).token.symbol ≠ tsBuiltinSymEnd
  cells : ∀ cell ∈ graph.owner.cells, cell.node.EndsAsExtra
  left : graph.prefixLeft ≤ graph.owner.cells.length

section Graphs

variable {count : Nat}
variable {roots : Nat → Prop}
variable {self before after : TFSpec}

/-- A tree over fewer trees is one over more. -/
theorem Apt.grow
    {bound more : Nat}
    {tree : TFSpecTree}
    (apt : Apt bound tree)
    (larger : bound ≤ more) :
    Apt more tree :=
  ⟨apt.ends, fun child isChild =>
    Nat.lt_of_lt_of_le (apt.children child isChild) larger⟩

/-- Fewer trees may be told apart, and a lower number asked for. -/
theorem Apart.only
    (apart : self.Apart count roots)
    {fewer : Nat}
    {others : Nat → Prop}
    (low : fewer ≤ self.trees.length)
    (some_ : ∀ root, others root → roots root) :
    self.Apart fewer others where
  size := low
  trees := apart.trees
  roots := fun root isOther => apart.roots root (some_ root isOther)
  cells := apart.cells
  left := apart.left

/-- A graph with the same trees and stack, and no more cells left. -/
theorem Apart.beside
    (apart : before.Apart count roots)
    (trees : after.trees = before.trees)
    (owner : after.owner = before.owner)
    (left : after.prefixLeft ≤ before.prefixLeft) :
    after.Apart count roots := by
  have tree : ∀ index, after.tree index = before.tree index := by
    intro index
    unfold TFSpec.tree
    rw [trees]
  have length : after.trees.length = before.trees.length := by
    rw [trees]
  refine ⟨?_, ?_, ?_, ?_, ?_⟩
  · rw [length]
    exact apart.size
  · intro index within
    rw [length] at within
    rw [tree, length]
    exact apart.trees index within
  · intro root isRoot
    rw [length, tree]
    exact apart.roots root isRoot
  · rw [owner]
    exact apart.cells
  · rw [owner]
    exact Nat.le_trans left apart.left

/-- Adding a tree that suits the graph; it may be told apart as well. -/
theorem Apart.addTree
    (apart : self.Apart count roots)
    {tree : TFSpecTree}
    (apt : Apt self.trees.length tree)
    {others : Nat → Prop}
    (isOther :
      ∀ root, others root →
        roots root ∨
          root = self.trees.length ∧
            tree.token.symbol ≠ tsBuiltinSymEnd) :
    Apart count others { self with trees := self.trees ++ [tree] } := by
  have length : (self.trees ++ [tree]).length = self.trees.length + 1 := by
    simp
  refine ⟨?_, ?_, ?_, apart.cells, apart.left⟩
  · rw [length]
    exact Nat.le_succ_of_le apart.size
  · intro index within
    rw [length] at within
    rw [length, tree_append rfl]
    refine Apt.grow ?_ (Nat.le_succ _)
    split
    · exact apt
    · exact apart.trees index (by omega)
  · intro root isRoot
    rw [length, tree_append rfl]
    rcases isOther root isRoot with old | ⟨rfl, other⟩
    · obtain ⟨within, notEnd⟩ := apart.roots root old
      rw [if_neg (Nat.ne_of_lt within)]
      exact ⟨Nat.lt_succ_of_lt within, notEnd⟩
    · rw [if_pos rfl]
      exact ⟨Nat.lt_succ_self _, other⟩

/-- Changing a tree for one that suits the graph, over the same token. -/
theorem Apart.modifyTree
    (apart : self.Apart count roots)
    (index : Nat)
    {change : TFSpecTree → TFSpecTree}
    (token : ∀ tree, (change tree).token = tree.token)
    (apt :
      ∀ tree,
        Apt self.trees.length tree →
          Apt self.trees.length (change tree)) :
    (self.modifyTree index change).Apart count roots := by
  have length :
      (self.modifyTree index change).trees.length = self.trees.length := by
    simp [TFSpec.modifyTree]
  refine ⟨?_, ?_, ?_, apart.cells, apart.left⟩
  · rw [length]
    exact apart.size
  · intro other within
    rw [length] at within
    rw [length, tree_modifyTree]
    split
    · exact apt _ (apart.trees other within)
    · exact apart.trees other within
  · intro root isRoot
    rw [length, tree_modifyTree]
    obtain ⟨within, notEnd⟩ := apart.roots root isRoot
    refine ⟨within, ?_⟩
    split
    · rw [token]
      exact notEnd
    · exact notEnd

/-- A tree of the graph has children that are. -/
theorem Apart.children
    (apart : self.Apart count roots)
    (index : Nat) :
    ∀ child ∈ (self.tree index).children, child < self.trees.length := by
  by_cases within : index < self.trees.length
  · exact (apart.trees index within).children
  · unfold TFSpec.tree
    rw [List.getD_eq_default _ _ (Nat.le_of_not_lt within)]
    exact List.forall_mem_nil _

/-- Resolving a shape gives a tree the children of another. -/
theorem Apart.resolve
    (apart : self.Apart count roots)
    (k : Nat) :
    (self.resolve k).Apart count roots := by
  unfold TFSpec.resolve
  exact apart.modifyTree _ (fun _ => rfl)
    (fun tree apt => ⟨apt.ends, apart.children _⟩)

/-- Unrolling a cell adds the cell, as it stands on the stack. -/
theorem Apart.unrolled
    (apart : self.Apart count roots)
    (left : self.prefixLeft ≠ 0) :
    self.unrolled.Apart count roots := by
  have within : self.prefixLeft - 1 < self.owner.cells.length := by
    have := apart.left
    omega
  have ends :
      (self.owner.cells.getD (self.prefixLeft - 1)
        default).node.EndsAsExtra := by
    rw [List.getD_eq_getElem _ _ within]
    exact apart.cells _ (List.getElem_mem within)
  have grown :
      Apart count roots
        { self with
          trees :=
            self.trees ++
              [inheritedTree
                (self.owner.cells.getD (self.prefixLeft - 1) default).node
                (topByte (self.owner.cells.take (self.prefixLeft - 1)))] } :=
    apart.addTree
      ⟨fun isEnd => ⟨ends isEnd, Or.inr rfl⟩, List.forall_mem_nil _⟩
      (fun _ isRoot => Or.inl isRoot)
  have fewer := Nat.sub_le self.prefixLeft 1
  unfold TFSpec.unrolled
  dsimp only
  split
  · refine Apart.resolve ?_ _
    refine grown.beside rfl rfl ?_
    exact fewer
  · refine grown.beside rfl rfl ?_
    exact fewer

/-- Edits that add no tree leave the end token an extra. -/
theorem steady_apart (count : Nat) (roots : Nat → Prop) :
    Steady (Apart count roots) where
  aside := fun same apart =>
    apart.beside same.trees same.owner (Nat.le_of_eq same.prefixLeft)
  node := fun _ apart => apart.beside rfl rfl (Nat.le_refl _)
  relink := fun _ apart => apart.beside rfl rfl (Nat.le_refl _)
  reweigh := fun apart =>
    apart.modifyTree _ (fun _ => rfl)
      (fun _ apt => ⟨apt.ends, apt.children⟩)
  unrolled := fun left apart => apart.unrolled left

end Graphs

/-! ## The trees that the operations add -/

section Adding

variable {count : Nat}
variable {roots : Nat → Prop}

/-- A new tree that suits the graph. -/
theorem apart_newTree
    {tree : TFSpecTree}
    (apt : Apt count tree) :
    Maintains (fun state : TFSpecState => state.spec.Apart count roots)
      (newTree tree) := by
  intro before value after apart ran
  obtain ⟨capacity, heap, rfl, rfl⟩ := newTree_ran ran
  have added :=
    apart.addTree (apt.grow apart.size) (fun _ isRoot => Or.inl isRoot)
  exact added.beside rfl rfl (Nat.le_refl _)

/-- The tree of a reduction over trees that are there; it may be a root. -/
theorem apart_parent
    {symbol : TSSymbol}
    (other : symbol ≠ tsBuiltinSymEnd)
    (production structural : Nat)
    {children : List Nat}
    (known : ∀ child ∈ children, child < count)
    (base : Nat) :
    Ensures (fun state : TFSpecState => state.spec.Apart count roots)
      (parent symbol production structural children base)
      (fun id state =>
        state.spec.Apart count (fun root => roots root ∨ root = id)) := by
  intro before value after apart ran
  unfold parent at ran
  obtain ⟨tree, _, asked, ran⟩ := Program.bind_eq_ok.mp ran
  simp only [asks, Program.gets_apply, Except.ok.injEq,
    Prod.mk.injEq] at asked
  obtain ⟨rfl, rfl⟩ := asked
  obtain ⟨capacity, heap, rfl, rfl⟩ := newTree_ran ran
  have apt :
      Apt count
        (before.spec.parentTree symbol production structural children
          base) :=
    ⟨fun isEnd => absurd isEnd other, known⟩
  have added :
      Apart count
        (fun root => roots root ∨ root = before.spec.trees.length)
        { before.spec with
          trees :=
            before.spec.trees ++
              [before.spec.parentTree symbol production structural children
                base] } :=
    apart.addTree (apt.grow apart.size)
      (fun root isRoot => isRoot.imp_right (fun same => ⟨same, other⟩))
  exact added.beside rfl rfl (Nat.le_refl _)

variable {env : TFSpecEnv}
variable
  (recovers :
    ∀ {count roots},
      Maintains (fun state : TFSpecState => state.spec.Apart count roots)
        env.materialize)

include recovers

/-- Choosing a parent adds one for each path. -/
theorem apart_selectParent
    {symbol : TSSymbol}
    (other : symbol ≠ tsBuiltinSymEnd)
    {childCount productionId base : Nat}
    {paths : List (List Nat)}
    (known : ∀ path ∈ paths, ∀ tree ∈ path, tree < count)
    (chosen : Option (Nat × List Nat)) :
    Maintains (fun state : TFSpecState => state.spec.Apart count roots)
      (selectParent env symbol childCount productionId base paths
        chosen) := by
  induction paths generalizing chosen with
  | nil =>
      exact Maintains.pure
  | cons path rest inductionHypothesis =>
      have restKnown :
          ∀ path ∈ rest, ∀ tree ∈ path, tree < count :=
        fun path member => known path (List.mem_cons_of_mem _ member)
      intro before value after apart ran
      unfold selectParent at ran
      obtain ⟨trimmed, _, asked, ran⟩ := Program.bind_eq_ok.mp ran
      simp only [asks, Program.gets_apply, Except.ok.injEq,
        Prod.mk.injEq] at asked
      obtain ⟨rfl, rfl⟩ := asked
      have trimmedKnown :
          ∀ tree ∈ before.spec.trimExtras path, tree < count := by
        intro tree member
        unfold trimExtras at member
        have isPath := List.mem_reverse.mp
          ((List.dropWhile_sublist _).subset (List.mem_reverse.mp member))
        exact known path List.mem_cons_self tree isPath
      obtain ⟨candidate, added, adds, ran⟩ := Program.bind_eq_ok.mp ran
      have apartAdded :=
        apart_parent other _ _ trimmedKnown _ _ _ _ apart adds
      obtain ⟨better, compared, compares, ran⟩ :=
        Program.bind_eq_ok.mp ran
      have apartCompared :=
        edits_prefer (steady_apart _ _) recovers _ _ _ _ _ _ apartAdded
          compares
      have kept :=
        apartCompared.only apartCompared.size
          (fun root isRoot => Or.inl isRoot)
      split at ran
      · exact inductionHypothesis restKnown _ _ _ _ kept ran
      · exact inductionHypothesis restKnown _ _ _ _ kept ran

/-- The reduction over the paths to one base. -/
theorem apart_reduceGroup
    {symbol : TSSymbol}
    (other : symbol ≠ tsBuiltinSymEnd)
    {version created childCount productionId : Nat}
    {dynamicPrecedence : Int}
    {paths : List (List Nat)}
    (known : ∀ path ∈ paths, ∀ tree ∈ path, tree < count) :
    Maintains (fun state : TFSpecState => state.spec.Apart count roots)
      (reduceGroup env version created symbol childCount productionId
        dynamicPrecedence paths) := by
  have steady := steady_apart count roots
  unfold reduceGroup
  refine Maintains.bind edits_asks (fun head => ?_)
  refine Maintains.bind (apart_selectParent recovers other known _)
    (fun chosen => ?_)
  cases chosen with
  | none =>
      exact Ensures.stop
  | some chosen =>
      obtain ⟨tree, trailing⟩ := chosen
      refine Maintains.bind ?_ (fun _ => ?_)
      · intro before value after apart ran
        cases ran
        exact steady.reweigh apart
      · refine Maintains.bind edits_asks (fun state => ?_)
        refine Maintains.bind (edits_push steady _ _ _) (fun pushed => ?_)
        refine Maintains.bind (edits_pushExtras steady _ _ _)
          (fun top => ?_)
        refine Maintains.bind
          (edits_update steady
            (fun _ => ⟨rfl, rfl, rfl, rfl, rfl, rfl, rfl, rfl, rfl⟩))
          (fun _ => ?_)
        exact edits_mergeBelow steady recovers _ _ _

/-- The reduction over every group of slices. -/
theorem apart_reduceGroups
    {symbol : TSSymbol}
    (other : symbol ≠ tsBuiltinSymEnd)
    {version halted childCount productionId : Nat}
    {dynamicPrecedence : Int}
    {groups : List (Nat × List (List Nat))}
    (known :
      ∀ group ∈ groups, ∀ path ∈ group.2, ∀ tree ∈ path, tree < count)
    (removed : Nat) :
    Maintains (fun state : TFSpecState => state.spec.Apart count roots)
      (reduceGroups env version halted symbol childCount productionId
        dynamicPrecedence groups removed) := by
  have steady := steady_apart count roots
  induction groups generalizing removed with
  | nil =>
      exact Maintains.pure
  | cons group rest inductionHypothesis =>
      have restKnown :
          ∀ group ∈ rest, ∀ path ∈ group.2, ∀ tree ∈ path,
            tree < count :=
        fun group member => known group (List.mem_cons_of_mem _ member)
      obtain ⟨slice, paths⟩ := group
      unfold reduceGroups
      refine Maintains.ite ?_ ?_
      · refine Maintains.bind
          (edits_update steady
            (fun _ => ⟨rfl, rfl, rfl, rfl, rfl, rfl, rfl, rfl, rfl⟩))
          (fun _ => ?_)
        refine Maintains.bind
          (edits_update steady
            (fun _ => ⟨rfl, rfl, rfl, rfl, rfl, rfl, rfl, rfl, rfl⟩))
          (fun _ => ?_)
        exact inductionHypothesis restKnown _
      · exact Maintains.bind
          (apart_reduceGroup recovers other
            (known _ List.mem_cons_self))
          (fun merged => inductionHypothesis restKnown _)

end Adding

end TFSpec

end TreeFeller
