import TreeFeller.Sites
import TreeFeller.PopChains

/-!
# Positions through the operations of a split

Every operation on the graph keeps its positions on the path of the source.
Most leave the lexer, the slices and the number of heads as they are, so any
property of these may be asked besides.  The others are followed in how many
heads there are at least: a reduction makes a head for each base it finds, and
drops no more than it made.
-/

namespace TreeFeller

open StatefulProgram
open TFLexer

namespace TFSpec

open Program

/--
A graph whose positions lie on the path of the lexer's buffer, beside a lexer,
slices and a number of heads of some kind.
-/
structure Sites
    (lang : TFLanguage)
    (source : List UInt8)
    (marks : List (Nat × TFToken × Bool))
    (fine : TFLexer → List TFSpecSlice → Nat → Prop)
    (state : TFSpecState) : Prop where
  graph : state.spec.Sited lang source marks
  rest : fine state.lexer state.spec.slices state.spec.heads.length
  reads : state.lexer.source = source

/-- A lexer of some kind, beside a least number of heads. -/
def Above
    (lexes : TFLexer → Prop)
    (floor : Nat)
    (lexer : TFLexer)
    (_ : List TFSpecSlice)
    (heads : Nat) : Prop :=
  lexes lexer ∧ floor ≤ heads

/-- A lexer of some kind, beside a head more for each base of the slices. -/
def AboveSlices
    (lexes : TFLexer → Prop)
    (floor : Nat)
    (lexer : TFLexer)
    (slices : List TFSpecSlice)
    (heads : Nat) : Prop :=
  lexes lexer ∧ floor + (sliceGroups slices).length ≤ heads

section Building

variable {lang : TFLanguage}
variable {source : List UInt8}
variable {marks : List (Nat × TFToken × Bool)}
variable {fine : TFLexer → List TFSpecSlice → Nat → Prop}

/-- What is asked for besides does not look further. -/
theorem Sites.level
    {before after : TFSpecState}
    (sites : Sites lang source marks fine before)
    (same : after.spec.outline = before.spec.outline)
    (lexer : after.lexer = before.lexer) :
    Sites lang source marks fine after := by
  obtain ⟨positions, rest⟩ := Prod.mk.inj same
  obtain ⟨slices, heads⟩ := Prod.mk.inj rest
  refine ⟨sites.graph.aside positions, ?_, lexer ▸ sites.reads⟩
  rw [lexer, slices, heads]
  exact sites.rest

/-- Updating what is no position. -/
theorem sites_update
    {change : TFSpec → TFSpec}
    (same : ∀ spec, (change spec).outline = spec.outline) :
    Maintains (Sites lang source marks fine) (update change) := by
  intro before value after sites ran
  cases ran
  exact sites.level (same _) rfl

/-- Reading the graph. -/
theorem sites_asks
    {α : Type}
    {project : TFSpec → α} :
    Maintains (Sites lang source marks fine) (asks project) := by
  intro before value after sites ran
  cases ran
  exact sites

/-- Reserving. -/
theorem sites_reserve
    (arena : TFSpecArena)
    (needed : Nat) :
    Maintains (Sites lang source marks fine) (reserve arena needed) := by
  intro before value after sites ran
  obtain ⟨capacity, heap, rfl⟩ := reserve_eq_ok ran
  exact sites.level rfl rfl

/-- A new tree that stands on the path. -/
theorem sites_newTree
    {tree : TFSpecTree}
    (placed : tree.token.Placed source) :
    Maintains (Sites lang source marks fine) (newTree tree) := by
  intro before value after sites ran
  obtain ⟨capacity, heap, rfl, rfl⟩ := newTree_ran ran
  exact ⟨(sites.graph.addTree placed).aside rfl, sites.rest, sites.reads⟩

/-- A new head is one more. -/
theorem sites_newHead
    {lexes : TFLexer → Prop}
    {floor : Nat}
    (node : Nat) :
    Ensures (Sites lang source marks (Above lexes floor)) (newHead node)
      (fun _ => Sites lang source marks (Above lexes (floor + 1))) := by
  intro before value after sites ran
  obtain ⟨capacity, heap, rfl, rfl⟩ := newHead_eq_ok ran
  refine ⟨sites.graph.aside rfl, ⟨sites.rest.1, ?_⟩, sites.reads⟩
  rw [List.length_append]
  exact Nat.succ_le_succ sites.rest.2

/-- Replacing heads at the same places. -/
theorem sites_modifyHead
    {version : Nat}
    {change : TFSpec → TFSpecHead → TFSpecHead} :
    Maintains (Sites lang source marks fine)
      (update (fun spec => spec.modifyHead version (change spec))) := by
  refine sites_update (fun spec => ?_)
  unfold outline TFSpec.modifyHead
  rw [List.length_modify]
  rfl

/-- Removing a head is one less at most. -/
theorem sites_removeHead
    {lexes : TFLexer → Prop}
    {floor : Nat}
    (version : Nat) :
    Ensures (Sites lang source marks (Above lexes floor))
      (removeHead version)
      (fun _ => Sites lang source marks (Above lexes (floor - 1))) := by
  intro before value after sites ran
  cases ran
  refine ⟨sites.graph.aside rfl, ⟨sites.rest.1, ?_⟩, sites.reads⟩
  have enough := sites.rest.2
  change floor - 1 ≤ (before.spec.heads.eraseIdx version).length
  rw [List.length_eraseIdx]
  split <;> omega

/-- Removing a late head leaves the first ones. -/
theorem sites_removeHead_late
    {lexes : TFLexer → Prop}
    {floor version : Nat}
    (late : floor ≤ version) :
    Maintains (Sites lang source marks (Above lexes floor))
      (removeHead version) := by
  intro before value after sites ran
  cases ran
  refine ⟨sites.graph.aside rfl, ⟨sites.rest.1, ?_⟩, sites.reads⟩
  have enough := sites.rest.2
  change floor ≤ (before.spec.heads.eraseIdx version).length
  rw [List.length_eraseIdx]
  split <;> omega

/-- Taking link slots. -/
theorem sites_newLinks
    (count : Nat) :
    Maintains (Sites lang source marks fine) (newLinks count) := by
  intro before value after sites ran
  obtain ⟨capacity, heap, rfl⟩ := newLinks_eq_ok ran
  exact sites.level rfl rfl

/-- A new node that stands on the path. -/
theorem sites_addNode
    {node : TFSpecNode}
    (placed : OnPath source node.place) :
    Maintains (Sites lang source marks fine) (addNode node) := by
  unfold TFSpec.addNode
  refine Maintains.bind sites_asks (fun count => ?_)
  refine Maintains.bind ?_ (fun _ => Maintains.pure)
  intro before value after sites ran
  cases ran
  exact ⟨sites.graph.addNode placed, sites.rest, sites.reads⟩

/-- Pushing a tree. -/
theorem sites_push
    (previous tree : Nat)
    (state : TSStateId) :
    Maintains (Sites lang source marks fine) (push previous tree state) := by
  unfold TFSpec.push
  refine Maintains.bind sites_asks (fun count => ?_)
  refine Maintains.bind (sites_reserve _ _) (fun _ => ?_)
  refine Maintains.bind (sites_newLinks _) (fun _ => ?_)
  intro before value after sites ran
  obtain ⟨node, _, asked, ran⟩ := Program.bind_eq_ok.mp ran
  cases asked
  have placed :
      OnPath source (before.spec.pushedNode previous tree state).place :=
    (sites.graph.tree tree).ending
  exact sites_addNode placed _ _ _ sites ran

/-- Unrolling one cell. -/
theorem sites_extend :
    Maintains (Sites lang source marks fine) extend := by
  intro before value after sites ran
  obtain ⟨capacity, heap, rfl⟩ := extend_eq_ok ran
  obtain ⟨slices, heads⟩ := slices_unrolled before.spec
  refine ⟨sites.graph.unrolled.aside rfl, ?_, sites.reads⟩
  · dsimp only [TFSpec.withCapacity]
    rw [slices, heads]
    exact sites.rest

/-- Unrolling below a node. -/
theorem sites_unroll
    (node : Nat) :
    Maintains (Sites lang source marks fine) (unroll node) := by
  unfold TFSpec.unroll
  refine Maintains.bind sites_asks (fun atFrontier => ?_)
  exact Maintains.ite sites_extend Maintains.pure

/-- Changing a node but not its place. -/
theorem sites_modifyNode
    {index : Nat}
    {change : TFSpec → TFSpecNode → TFSpecNode}
    (same : ∀ spec node, (change spec node).place = node.place) :
    Maintains (Sites lang source marks fine)
      (update (fun spec => spec.modifyNode index (change spec))) :=
  sites_update (fun spec => outline_modifyNode spec index (same spec))

/-- Adding the tree of a reduction. -/
theorem sites_parent
    (symbol : TSSymbol)
    (production structural : Nat)
    (children : List Nat)
    (base : Nat) :
    Maintains (Sites lang source marks fine)
      (parent symbol production structural children base) := by
  unfold parent
  intro before value after sites ran
  obtain ⟨tree, _, asked, ran⟩ := Program.bind_eq_ok.mp ran
  cases asked
  have placed :=
    sites.graph.parentTree symbol production structural children base
  exact sites_newTree placed _ _ _ sites ran

/-- Pushing the extras a reduction leaves. -/
theorem sites_pushExtras
    (state : TSStateId)
    (extras : List Nat)
    (top : Nat) :
    Maintains (Sites lang source marks fine) (pushExtras state extras top) := by
  induction extras generalizing top with
  | nil =>
      exact Maintains.pure
  | cons tree rest inductionHypothesis =>
      unfold pushExtras
      exact Maintains.bind (sites_push _ _ _)
        (fun pushed => inductionHypothesis pushed)

/-- Shifting a token on the path. -/
theorem sites_shift
    (version : Nat)
    {token : TFToken}
    (placed : token.Placed source)
    (state : TSStateId)
    (extra : Bool) :
    Maintains (Sites lang source marks fine)
      (shift version token state extra) := by
  unfold shift
  refine Maintains.bind sites_asks (fun head => ?_)
  refine Maintains.bind sites_asks (fun byte => ?_)
  refine Maintains.bind (sites_newTree placed) (fun leaf => ?_)
  exact Maintains.bind (sites_push _ _ _) (fun node => sites_modifyHead)

end Building

/-! ## Popping -/

/-- Slices in front begin a group, or join the first one. -/
theorem length_sliceGroups
    (slice : TFSpecSlice)
    (slices : List TFSpecSlice) :
    (sliceGroups (slice :: slices)).length =
      (sliceGroups slices).length +
        if slices.head?.map TFSpecSlice.version = some slice.version then 0
        else 1 := by
  cases slices with
  | nil =>
      rfl
  | cons next rest =>
      have first :
          (sliceGroups (next :: rest)).head?.map Prod.fst =
            some next.version := by
        unfold sliceGroups
        split
        · split
          · rename_i same
            simp [same]
          · rfl
        · rfl
      rw [sliceGroups]
      cases groups : sliceGroups (next :: rest) with
      | nil =>
          rw [groups] at first
          cases first
      | cons group others =>
          obtain ⟨version, paths⟩ := group
          rw [groups] at first
          cases first
          dsimp only [List.head?_cons, Option.map_some]
          by_cases same : next.version = slice.version
          · simp [same]
          · simp [same]

/-- A slice behind the others is one group more at most. -/
theorem length_sliceGroups_append
    (slices : List TFSpecSlice)
    (slice : TFSpecSlice) :
    (sliceGroups (slices ++ [slice])).length ≤
      (sliceGroups slices).length + 1 := by
  induction slices with
  | nil =>
      exact Nat.le_refl _
  | cons first rest inductionHypothesis =>
      rw [List.cons_append, length_sliceGroups, length_sliceGroups]
      cases rest with
      | nil =>
          change 1 + (if some slice.version = some first.version then 0
            else 1) ≤ 2
          split <;> omega
      | cons next others =>
          have sameHead :
              ((next :: others) ++ [slice]).head? =
                (next :: others).head? :=
            rfl
          rw [sameHead]
          omega

/-- A slice behind one of its own head joins its group. -/
theorem length_sliceGroups_behind
    (front back : List TFSpecSlice)
    (last : TFSpecSlice)
    (children : List Nat) :
    (sliceGroups (front ++ last :: ⟨last.version, children⟩ :: back)).length =
      (sliceGroups (front ++ last :: back)).length := by
  induction front with
  | nil =>
      rw [List.nil_append, List.nil_append, length_sliceGroups,
        length_sliceGroups, length_sliceGroups]
      simp
  | cons first rest inductionHypothesis =>
      rw [List.cons_append, List.cons_append, length_sliceGroups,
        length_sliceGroups, inductionHypothesis]
      cases rest <;> rfl

section Popping

variable {lang : TFLanguage}
variable {source : List UInt8}
variable {marks : List (Nat × TFToken × Bool)}
variable {fine : TFLexer → List TFSpecSlice → Nat → Prop}

/-- Taking room for a slice. -/
theorem sites_reserveSlice
    (length slices : Nat) :
    Maintains (Sites lang source marks fine) (reserveSlice length slices) := by
  unfold reserveSlice
  refine Maintains.bind sites_asks (fun used => ?_)
  refine Maintains.bind (sites_reserve _ _) (fun _ => ?_)
  refine Maintains.bind (sites_reserve _ _) (fun _ => ?_)
  exact sites_update (fun _ => rfl)

/-- Going down a chain, one link further or to its end. -/
theorem sites_chainStep
    (current : TFSpecIterator) :
    Maintains (Sites lang source marks fine) (do
      match ← asks (fun s => (s.node current.node).links) with
      | [link] =>
          pure (.inl (← asks (fun s => s.stepIterator current link)))
      | _ => pure (.inr false) : SpecM (TFSpecIterator ⊕ Bool)) := by
  refine Maintains.bind sites_asks (fun links => ?_)
  split
  · exact Maintains.bind sites_asks (fun _ => Maintains.pure)
  · exact Maintains.pure

/-- With its slices forgotten, a graph has no fewer heads. -/
theorem Sites.unsliced
    {lexes : TFLexer → Prop}
    {floor : Nat}
    {state : TFSpecState}
    (sites : Sites lang source marks (AboveSlices lexes floor) state) :
    Sites lang source marks (Above lexes floor) state :=
  ⟨sites.graph, ⟨sites.rest.1, Nat.le_of_add_right_le sites.rest.2⟩,
    sites.reads⟩

/-- Walking a chain. -/
theorem sites_popChain
    {lexes : TFLexer → Prop}
    {floor : Nat}
    (fuel version : Nat)
    (goal : Option Nat) :
    Maintains (Sites lang source marks (AboveSlices lexes floor))
      (popChain fuel version goal) := by
  unfold popChain
  refine Maintains.bind sites_asks (fun head => ?_)
  refine Maintains.iterate (fun current => ?_) _ _
  refine Maintains.bind sites_asks (fun over_ => ?_)
  refine Maintains.ite ?_ ?_
  · refine Maintains.bind (sites_reserveSlice _ _) (fun _ => ?_)
    refine Ensures.bind
      ((sites_newHead _).strengthen (fun _ sites => sites.unsliced))
      (fun head => ?_)
    refine Ensures.bind ?_ (fun _ => Maintains.pure)
    intro before value after sites ran
    cases ran
    exact ⟨sites.graph.aside rfl, sites.rest, sites.reads⟩
  · exact Maintains.ite
      (Maintains.bind (sites_unroll _) (fun _ => sites_chainStep current))
      (sites_chainStep current)

/-- Recording a path. -/
theorem sites_addSlice
    {lexes : TFLexer → Prop}
    {floor : Nat}
    (current : TFSpecIterator) :
    Maintains (Sites lang source marks (AboveSlices lexes floor))
      (addSlice current) := by
  unfold addSlice
  refine Maintains.bind sites_asks (fun count => ?_)
  refine Maintains.bind (sites_reserveSlice _ _) (fun _ => ?_)
  intro before value after sites ran
  obtain ⟨found, _, asked, ran⟩ := Program.bind_eq_ok.mp ran
  simp only [asks, Program.gets_apply, Except.ok.injEq,
    Prod.mk.injEq] at asked
  obtain ⟨found, rfl⟩ := asked
  have enough := sites.rest.2
  cases slot : before.spec.sliceSlot current.node with
  | some place =>
      obtain ⟨slot, version⟩ := place
      rw [slot] at found
      subst found
      obtain ⟨front, last, back, slices, rfl, rfl, _⟩ :=
        sliceSlot_eq_some slot
      cases ran
      refine ⟨sites.graph.aside rfl, ⟨sites.rest.1, ?_⟩, sites.reads⟩
      dsimp only
      rw [slices, insertIdx_behind, length_sliceGroups_behind, ← slices]
      exact enough
  | none =>
      rw [slot] at found
      subst found
      obtain ⟨version, _, made, ran⟩ := Program.bind_eq_ok.mp ran
      obtain ⟨capacity, heap, rfl, rfl⟩ := newHead_eq_ok made
      cases ran
      refine ⟨sites.graph.aside rfl, ⟨sites.rest.1, ?_⟩, sites.reads⟩
      dsimp only
      have grows :=
        length_sliceGroups_append before.spec.slices
          ⟨before.spec.heads.length, current.path⟩
      rw [List.length_append]
      exact Nat.le_trans (Nat.add_le_add_left grows floor)
        (Nat.succ_le_succ enough)

/-- Following a link. -/
theorem sites_followLink
    (current : TFSpecIterator)
    (link : TFSpecLink) :
    Maintains (Sites lang source marks fine) (followLink current link) := by
  unfold followLink
  refine Maintains.bind sites_asks (fun count => ?_)
  refine Maintains.bind (sites_reserve _ _) (fun _ => ?_)
  refine Maintains.bind ?_ (fun _ => sites_asks)
  exact sites_update (fun _ => rfl)

/-- Forking an iterator. -/
theorem sites_forkIterators
    (current : TFSpecIterator)
    (others : Nat)
    (links : List TFSpecLink)
    (appended : List TFSpecIterator) :
    Maintains (Sites lang source marks fine)
      (forkIterators current others links appended) := by
  induction links generalizing appended with
  | nil =>
      exact Maintains.pure
  | cons link rest inductionHypothesis =>
      unfold forkIterators
      refine Maintains.ite ?_ ?_
      · refine Maintains.bind ?_ (fun _ => inductionHypothesis _)
        exact sites_update
          (fun _ => rfl)
      · exact Maintains.bind (sites_followLink _ _)
          (fun _ => inductionHypothesis _)

/-- One round of a pop. -/
theorem sites_popRound
    {lexes : TFLexer → Prop}
    {floor : Nat}
    (goal : Option Nat)
    (todo done appended : List TFSpecIterator) :
    Maintains (Sites lang source marks (AboveSlices lexes floor))
      (popRound goal todo done appended) := by
  induction todo generalizing done appended with
  | nil =>
      exact Maintains.pure
  | cons current rest inductionHypothesis =>
      rw [popRound_cons]
      refine Maintains.bind ?_ (fun _ => ?_)
      · unfold settleFor
        exact Maintains.ite (sites_unroll _) Maintains.pure
      · unfold walkFrom
        refine Maintains.bind sites_asks (fun links => ?_)
        refine Maintains.bind sites_asks (fun over_ => ?_)
        refine Maintains.ite ?_ ?_
        · exact Maintains.bind (sites_addSlice _)
            (fun _ => inductionHypothesis _ _)
        · cases links with
          | nil =>
              exact inductionHypothesis _ _
          | cons first further =>
              refine Maintains.bind (sites_forkIterators _ _ _ _)
                (fun forked => ?_)
              exact Maintains.bind (sites_followLink _ _)
                (fun _ => inductionHypothesis _ _)

/-- Popping makes a head for each node that a path ends at. -/
theorem sites_pop
    {lexes : TFLexer → Prop}
    {floor : Nat}
    (fuel version : Nat)
    (goal : Option Nat) :
    Ensures (Sites lang source marks (Above lexes floor))
      (pop fuel version goal)
      (fun _ => Sites lang source marks (AboveSlices lexes floor)) := by
  have clears :
      Ensures (Sites lang source marks (Above lexes floor))
        (update (fun spec => { spec with slices := [], edgeCount := 0 }))
        (fun _ => Sites lang source marks (AboveSlices lexes floor)) := by
    intro before value after sites ran
    cases ran
    exact ⟨sites.graph.aside rfl, sites.rest, sites.reads⟩
  unfold pop
  refine Ensures.bind clears (fun _ => ?_)
  refine Maintains.bind (sites_popChain _ _ _) (fun straight => ?_)
  refine Maintains.ite Maintains.pure ?_
  unfold popPaths
  refine Maintains.bind sites_asks (fun head => ?_)
  refine Maintains.iterate (fun iterators => ?_) _ _
  cases iterators with
  | nil =>
      exact Maintains.pure
  | cons first rest =>
      exact Maintains.bind (sites_popRound _ _ _ _)
        (fun _ => Maintains.pure)

/-- Looking whether a single path leads down. -/
theorem sites_unique
    (fuel node : Nat) :
    Maintains (Sites lang source marks fine) (unique fuel node) := by
  unfold unique
  refine Maintains.iterate (fun node => ?_) _ _
  refine Maintains.bind sites_asks (fun links => ?_)
  split <;> exact Maintains.pure

end Popping

/-! ## Merging, comparing and reducing -/

section Shapes

variable {lang : TFLanguage}
variable {source : List UInt8}
variable {marks : List (Nat × TFToken × Bool)}
variable {fine : TFLexer → List TFSpecSlice → Nat → Prop}
variable {materialize : SpecM Unit}
variable
  (recovers :
    ∀ {marks} {fine},
      Maintains (Sites lang source marks fine) materialize)

include recovers

/-- Comparing trees. -/
theorem sites_equivalent
    (a b : Nat) :
    Maintains (Sites lang source marks fine) (equivalent materialize a b) := by
  unfold equivalent
  refine Maintains.ite Maintains.pure ?_
  refine Maintains.bind sites_asks (fun x => ?_)
  refine Maintains.bind sites_asks (fun y => ?_)
  refine Maintains.ite Maintains.pure ?_
  exact Maintains.ite
    (Maintains.bind recovers (fun _ => sites_asks)) sites_asks

/-- Looking for a link that takes another in. -/
theorem sites_findLink
    (link : TFSpecLink)
    (index : Nat)
    (links : List TFSpecLink) :
    Maintains (Sites lang source marks fine)
      (findLink materialize link index links) := by
  induction links generalizing index with
  | nil =>
      exact Maintains.pure
  | cons first rest inductionHypothesis =>
      unfold findLink
      refine Maintains.bind (sites_equivalent recovers _ _) (fun same => ?_)
      refine Maintains.ite (inductionHypothesis _) ?_
      refine Maintains.bind sites_asks (fun merges => ?_)
      exact Maintains.ite Maintains.pure (inductionHypothesis _)

omit recovers in
/-- Appending a link. -/
theorem sites_appendLink
    (target : Nat)
    (link : TFSpecLink) :
    Maintains (Sites lang source marks fine) (appendLink target link) := by
  have appends :
      Maintains (Sites lang source marks fine) (do
        TFSpec.update (fun spec =>
          spec.modifyNode target (fun node =>
            { node with links := node.links ++ [link] }))
        TFSpec.update (fun spec => spec.raisePrecedence target link)) := by
    refine Maintains.bind ?_ (fun _ => ?_)
    · exact sites_modifyNode (fun _ _ => rfl)
    · exact sites_modifyNode (fun _ _ => rfl)
  unfold TFSpec.appendLink
  refine Maintains.bind sites_asks (fun node => ?_)
  refine Maintains.ite
    (sites_update (fun _ => rfl)) ?_
  refine Maintains.ite ?_ appends
  refine Maintains.bind (sites_newLinks _) (fun _ => ?_)
  exact Maintains.bind (sites_modifyNode (fun _ _ => rfl))
    (fun _ => appends)

omit recovers in
/-- Keeping the better tree on a link changes no position. -/
theorem outline_replaceTree
    (self : TFSpec)
    (target index : Nat)
    (existing link : TFSpecLink) :
    (self.replaceTree target index existing link).outline =
      self.outline := by
  unfold TFSpec.replaceTree
  split
  · exact outline_modifyNode self target (fun _ => rfl)
  · rfl

/-- Adding a link. -/
theorem sites_addLink
    (fuel target : Nat)
    (link : TFSpecLink) :
    Maintains (Sites lang source marks fine)
      (addLink materialize fuel target link) := by
  induction fuel generalizing target link with
  | zero =>
      exact Ensures.stop
  | succ fuel inductionHypothesis =>
      unfold TFSpec.addLink
      refine Maintains.ite Maintains.pure ?_
      refine Maintains.bind (sites_unroll _) (fun _ => ?_)
      refine Maintains.bind sites_asks (fun links => ?_)
      refine Maintains.bind (sites_findLink recovers _ _ _)
        (fun found => ?_)
      cases found with
      | none =>
          exact sites_appendLink _ _
      | some place =>
          obtain ⟨index, existing⟩ := place
          refine Maintains.ite
            (sites_update (fun _ => outline_replaceTree _ _ _ _ _)) ?_
          refine Maintains.bind ?_
            (fun _ => sites_modifyNode (fun _ _ => rfl))
          unfold absorbWith
          refine Maintains.bind sites_asks (fun sources => ?_)
          exact Ensures.forEach (fun source _ => inductionHypothesis _ _)

omit recovers in
/-- Answering whether a head was dropped. -/
theorem sites_answer
    {lexes : TFLexer → Prop}
    {floor : Nat}
    (merged : Bool) :
    Ensures
      (Sites lang source marks
        (Above lexes (if merged then floor - 1 else floor)))
      (pure merged : SpecM Bool)
      (fun merged =>
        Sites lang source marks
          (Above lexes (if merged then floor - 1 else floor))) := by
  intro before value after sites ran
  cases ran
  exact sites

/-- Merging two heads drops one at most. -/
theorem sites_merge
    {lexes : TFLexer → Prop}
    {floor : Nat}
    (fuel a b : Nat) :
    Ensures (Sites lang source marks (Above lexes floor))
      (merge materialize fuel a b)
      (fun merged =>
        Sites lang source marks
          (Above lexes (if merged then floor - 1 else floor))) := by
  unfold TFSpec.merge
  refine Ensures.bind sites_asks (fun agrees => ?_)
  cases agrees with
  | false =>
      exact sites_answer false
  | true =>
      refine Ensures.bind sites_asks (fun into => ?_)
      refine Ensures.bind sites_asks (fun merged => ?_)
      have absorbs :
          Maintains (Sites lang source marks (Above lexes floor))
            (absorb materialize fuel into merged) := by
        unfold absorb absorbWith
        refine Maintains.bind sites_asks (fun sources => ?_)
        exact Ensures.forEach
          (fun link _ => sites_addLink recovers fuel into link)
      refine Ensures.bind absorbs (fun _ => ?_)
      exact Ensures.bind (sites_removeHead b)
        (fun _ => sites_answer true)

/-- Comparing shapes. -/
theorem sites_preferShapes
    (fuel : Nat)
    (pairs : List (Nat × Nat)) :
    Maintains (Sites lang source marks fine)
      (preferShapes materialize fuel pairs) := by
  unfold TFSpec.preferShapes
  refine Maintains.iterate (fun current => ?_) fuel pairs
  cases current with
  | nil =>
      exact Maintains.pure
  | cons pair rest =>
      obtain ⟨left, right⟩ := pair
      have compares :
          Maintains (Sites lang source marks fine) (do
            let x ← asks (fun s => s.tree left)
            let y ← asks (fun s => s.tree right)
            if x.children.length ≠ y.children.length then
              pure (.inr
                (decide (y.children.length < x.children.length)))
            else
              TFSpec.reserve .scratch
                (2 * rest.length + 2 * x.children.length)
              pure (.inl (x.children.zip y.children ++ rest)) :
              SpecM (List (Nat × Nat) ⊕ Bool)) := by
        refine Maintains.bind sites_asks (fun x => ?_)
        refine Maintains.bind sites_asks (fun y => ?_)
        refine Maintains.ite Maintains.pure ?_
        exact Maintains.bind (sites_reserve _ _) (fun _ => Maintains.pure)
      refine Maintains.ite Maintains.pure ?_
      refine Maintains.bind sites_asks (fun x => ?_)
      refine Maintains.bind sites_asks (fun y => ?_)
      refine Maintains.ite Maintains.pure ?_
      exact Maintains.ite
        (Maintains.bind recovers (fun _ => compares)) compares

/-- Preferring one tree to another. -/
theorem sites_prefer
    (fuel : Nat)
    (a : Option Nat)
    (b : Nat) :
    Maintains (Sites lang source marks fine) (prefer materialize fuel a b) := by
  unfold TFSpec.prefer
  cases a with
  | none =>
      exact Maintains.pure
  | some a =>
      refine Maintains.bind sites_asks (fun x => ?_)
      refine Maintains.bind sites_asks (fun y => ?_)
      refine Maintains.ite Maintains.pure ?_
      exact Maintains.bind (sites_reserve _ _)
        (fun _ => sites_preferShapes recovers _ _)

end Shapes

section Reductions

variable {source : List UInt8}
variable {marks : List (Nat × TFToken × Bool)}
variable {fine : TFLexer → List TFSpecSlice → Nat → Prop}
variable {lexes : TFLexer → Prop}
variable {floor : Nat}
variable {env : TFSpecEnv}
variable
  (recovers :
    ∀ {marks} {fine},
      Maintains (Sites env.lang source marks fine) env.materialize)

include recovers

/-- Choosing a parent. -/
theorem sites_selectParent
    (symbol : TSSymbol)
    (childCount productionId base : Nat)
    (paths : List (List Nat))
    (chosen : Option (Nat × List Nat)) :
    Maintains (Sites env.lang source marks fine)
      (selectParent env symbol childCount productionId base paths
        chosen) := by
  induction paths generalizing chosen with
  | nil =>
      exact Maintains.pure
  | cons path rest inductionHypothesis =>
      unfold selectParent
      refine Maintains.bind sites_asks (fun trimmed => ?_)
      refine Maintains.bind (sites_parent _ _ _ _ _) (fun candidate => ?_)
      refine Maintains.bind (sites_prefer recovers _ _ _)
        (fun better => ?_)
      exact Maintains.ite (inductionHypothesis _) (inductionHypothesis _)

/-- Merging a new head below drops one at most. -/
theorem sites_mergeBelow
    (version created : Nat)
    (others : List Nat) :
    Ensures (Sites env.lang source marks (Above lexes floor))
      (mergeBelow env version created others)
      (fun merged =>
        Sites env.lang source marks
          (Above lexes (if merged then floor - 1 else floor))) := by
  induction others with
  | nil =>
      exact sites_answer false
  | cons other rest inductionHypothesis =>
      unfold mergeBelow
      split
      · exact inductionHypothesis
      · refine Ensures.bind (sites_merge recovers _ _ _) (fun merged => ?_)
        cases merged with
        | true => exact sites_answer true
        | false => exact inductionHypothesis

/-- The reduction over the paths to one base drops one head at most. -/
theorem sites_reduceGroup
    (version created : Nat)
    (symbol : TSSymbol)
    (childCount productionId : Nat)
    (dynamicPrecedence : Int)
    (paths : List (List Nat)) :
    Ensures (Sites env.lang source marks (Above lexes floor))
      (reduceGroup env version created symbol childCount productionId
        dynamicPrecedence paths)
      (fun merged =>
        Sites env.lang source marks
          (Above lexes (if merged then floor - 1 else floor))) := by
  unfold reduceGroup
  refine Ensures.bind sites_asks (fun head => ?_)
  refine Ensures.bind (sites_selectParent recovers _ _ _ _ _ _)
    (fun chosen => ?_)
  cases chosen with
  | none =>
      exact Ensures.stop
  | some chosen =>
      obtain ⟨tree, trailing⟩ := chosen
      refine Ensures.bind
        (sites_update (fun spec => outline_modifyTree spec tree
          (fun _ => rfl))) (fun _ => ?_)
      refine Ensures.bind sites_asks (fun state => ?_)
      refine Ensures.bind (sites_push _ _ _) (fun pushed => ?_)
      refine Ensures.bind (sites_pushExtras _ _ _) (fun top => ?_)
      refine Ensures.bind sites_modifyHead (fun _ => ?_)
      exact sites_mergeBelow recovers _ _ _

/-- The reduction over every group of slices drops no more heads than groups. -/
theorem sites_reduceGroups
    (version halted : Nat)
    (symbol : TSSymbol)
    (childCount productionId : Nat)
    (dynamicPrecedence : Int)
    (groups : List (Nat × List (List Nat)))
    (removed : Nat) :
    Ensures (Sites env.lang source marks (Above lexes (floor + groups.length)))
      (reduceGroups env version halted symbol childCount productionId
        dynamicPrecedence groups removed)
      (fun _ => Sites env.lang source marks (Above lexes floor)) := by
  induction groups generalizing removed with
  | nil =>
      exact Maintains.pure
  | cons group rest inductionHypothesis =>
      obtain ⟨slice, paths⟩ := group
      unfold reduceGroups
      dsimp only
      split
      · refine Ensures.bind (sites_removeHead _) (fun _ => ?_)
        exact Ensures.bind (sites_update (fun _ => rfl))
          (fun _ => inductionHypothesis _)
      · refine Ensures.bind (sites_reduceGroup recovers _ _ _ _ _ _ _)
          (fun merged => ?_)
        cases merged with
        | true =>
            exact inductionHypothesis _
        | false =>
            refine (inductionHypothesis _).strengthen ?_
            intro state sites
            exact ⟨sites.graph,
              ⟨sites.rest.1, Nat.le_trans (Nat.le_succ _) sites.rest.2⟩,
              sites.reads⟩

/-- Reducing leaves as many heads as there were, and new ones behind them. -/
theorem sites_reduce
    (version childCount : Nat)
    (symbol : TSSymbol)
    (dynamicPrecedence : Int)
    (productionId : Nat) :
    Ensures (Sites env.lang source marks (Above lexes floor))
      (reduce env version childCount symbol dynamicPrecedence productionId)
      (fun created state =>
        Sites env.lang source marks (Above lexes floor) state ∧
          ∀ head, created = some head → floor ≤ head) := by
  intro before value after sites ran
  unfold reduce at ran
  obtain ⟨initial, _, asked, ran⟩ := Program.bind_eq_ok.mp ran
  cases asked
  obtain ⟨halted, _, asked, ran⟩ := Program.bind_eq_ok.mp ran
  cases asked
  obtain ⟨_, popped, pops, ran⟩ := Program.bind_eq_ok.mp ran
  obtain ⟨slices, _, asked, ran⟩ := Program.bind_eq_ok.mp ran
  cases asked
  obtain ⟨_, reduced, reduces, ran⟩ := Program.bind_eq_ok.mp ran
  obtain ⟨left, _, asked, ran⟩ := Program.bind_eq_ok.mp ran
  cases asked
  have sliced := sites_pop _ _ _ _ _ _ sites pops
  have kept :
      Sites env.lang source marks (Above lexes floor) reduced :=
    sites_reduceGroups recovers _ _ _ _ _ _ _ _ _ _ _
      ⟨sliced.graph, sliced.rest, sliced.reads⟩ reduces
  split at ran
  · cases ran
    refine ⟨kept, ?_⟩
    intro head same
    cases same
    exact sites.rest.2
  · cases ran
    exact ⟨kept, fun head same => by cases same⟩

/-- Merging a head into one before it, or moving it. -/
theorem sites_condenseHead
    (precedence : Int)
    (i : Nat)
    (others : List Nat) :
    Maintains (Sites env.lang source marks (Above lexes 0))
      (condenseHead env precedence i others) := by
  have swaps :
      ∀ j, Maintains (Sites env.lang source marks (Above lexes 0))
        (update (fun s =>
          { s with
            heads := (s.heads.set i (s.head j)).set j (s.head i) })) := by
    intro j before value after sites ran
    cases ran
    exact ⟨sites.graph.aside rfl, ⟨sites.rest.1, Nat.zero_le _⟩,
      sites.reads⟩
  induction others with
  | nil =>
      exact Maintains.pure
  | cons j rest inductionHypothesis =>
      unfold condenseHead
      refine Ensures.bind sites_asks (fun outranks => ?_)
      have merges :
          Maintains (Sites env.lang source marks (Above lexes 0))
            (merge env.materialize env.fuel j i) :=
        (sites_merge recovers _ _ _).weaken (fun merged state sites =>
          ⟨sites.graph, ⟨sites.rest.1, Nat.zero_le _⟩, sites.reads⟩)
      refine Maintains.bind merges (fun merged => ?_)
      refine Maintains.ite Maintains.pure ?_
      exact Maintains.ite
        (Maintains.bind (swaps j) (fun _ => inductionHypothesis))
        inductionHypothesis

/-- Condensing the heads. -/
theorem sites_condense :
    Maintains (Sites env.lang source marks (Above lexes 0))
      (condense env) := by
  have cuts :
      Maintains (Sites env.lang source marks (Above lexes 0))
        (update (fun s =>
          { s with heads := s.heads.take tfSpecVersions })) := by
    intro before value after sites ran
    cases ran
    exact ⟨sites.graph.aside rfl, ⟨sites.rest.1, Nat.zero_le _⟩,
      sites.reads⟩
  unfold condense
  refine Maintains.bind ?_ (fun _ => ?_)
  · refine Maintains.iterate (fun i => ?_) _ _
    refine Maintains.bind sites_asks (fun count => ?_)
    refine Maintains.ite Maintains.pure ?_
    refine Maintains.bind sites_asks (fun head => ?_)
    refine Maintains.ite ?_ ?_
    · exact Maintains.bind (sites_removeHead_late (Nat.zero_le _))
        (fun _ => Maintains.pure)
    · refine Maintains.bind sites_asks (fun precedence => ?_)
      refine Maintains.bind (sites_condenseHead recovers _ _ _)
        (fun merged => ?_)
      exact Maintains.ite Maintains.pure Maintains.pure
  · refine Maintains.bind sites_asks (fun count => ?_)
    refine Maintains.ite ?_ Maintains.pure
    exact Maintains.bind (sites_update (fun _ => rfl)) (fun _ => cuts)

end Reductions

end TFSpec

end TreeFeller
