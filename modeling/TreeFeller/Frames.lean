import TreeFeller.Driver

namespace TreeFeller

open StatefulProgram

/-!
# What building the graph leaves alone

The graph's operations change trees, nodes, heads and slices.  The lexer, the
cached token, the recorded failure and what is known of the fork stay as they
are: only lexing and recording a failure change them.
-/

/-- The part of a split's state that is not the graph. -/
structure TFSpecControl where
  lexer : TFLexer
  owner : TFSpecOwner
  forkByte : Nat
  cached : TFToken
  cachedByte : Nat
  cachedState : TSStateId
  hasCache : Bool
  cachedKeyword : Bool
  hasError : Bool
  errorByte : Nat
  errorPoint : TFPoint
  errorState : TSStateId
  errorSymbol : TSSymbol
  errorIsLex : Bool
  deriving DecidableEq

namespace TFSpec

/-- What a graph holds beside the graph, with a lexer. -/
def controlWith (self : TFSpec) (lexer : TFLexer) : TFSpecControl where
  lexer := lexer
  owner := self.owner
  forkByte := self.forkByte
  cached := self.cached
  cachedByte := self.cachedByte
  cachedState := self.cachedState
  hasCache := self.hasCache
  cachedKeyword := self.cachedKeyword
  hasError := self.hasError
  errorByte := self.errorByte
  errorPoint := self.errorPoint
  errorState := self.errorState
  errorSymbol := self.errorSymbol
  errorIsLex := self.errorIsLex

end TFSpec

namespace TFSpecState

/-- The part of the state that is not the graph. -/
def control (self : TFSpecState) : TFSpecControl :=
  self.spec.controlWith self.lexer

end TFSpecState

namespace TFSpec

open Program TFSpecState

/-- Something read of a split beside its graph, or the root it keeps so far. -/
class Aside {γ : Type} (observe : TFSpecState → γ) : Prop where
  same :
    ∀ (state : TFSpecState) (spec : TFSpec) (heap : Heap),
      spec.controlWith state.lexer = state.spec.controlWith state.lexer →
        spec.finished = state.spec.finished →
          observe { state with spec := spec, heap := heap } = observe state

/-- What a graph holds beside the graph is so read. -/
instance : Aside control where
  same := fun _ _ _ same _ => same

/-- The root that a split keeps so far. -/
def finishedOf (state : TFSpecState) : Option Nat :=
  state.spec.finished

/-- And so is that root. -/
instance : Aside finishedOf where
  same := fun _ _ _ _ finished => finished

section Asides

variable {γ : Type}
variable {observe : TFSpecState → γ}
variable [aside : Aside observe]

/-- An update of the graph. -/
theorem keeps_update
    {change : TFSpec → TFSpec}
    (same :
      ∀ spec lexer,
        (change spec).controlWith lexer = spec.controlWith lexer ∧
          (change spec).finished = spec.finished) :
    Keeps observe (update change) :=
  Keeps.modify (fun state =>
    aside.same state _ state.heap (same state.spec state.lexer).1
      (same state.spec state.lexer).2)

omit aside in
/-- A read of the graph. -/
theorem keeps_asks
    {α : Type}
    {project : TFSpec → α} :
    Keeps observe (asks project) :=
  Keeps.gets

/-- A request to the allocator. -/
theorem keeps_allocate : Keeps observe allocate :=
  Keeps.modifyGet (fun state => aside.same state state.spec _ rfl rfl)

/-- Making room. -/
theorem keeps_reserve
    (arena : TFSpecArena)
    (needed : Nat) :
    Keeps observe (reserve arena needed) := by
  unfold reserve
  refine Keeps.bind keeps_asks (fun capacity => ?_)
  apply Keeps.ite Keeps.pure
  apply Keeps.ite Keeps.stop
  refine Keeps.bind keeps_allocate (fun served => ?_)
  exact Keeps.ite (keeps_update (fun _ _ => ⟨rfl, rfl⟩)) Keeps.stop

/-- Adding a tree. -/
theorem keeps_newTree
    (tree : TFSpecTree) :
    Keeps observe (newTree tree) := by
  unfold newTree
  refine Keeps.bind keeps_asks (fun count => ?_)
  apply Keeps.ite Keeps.stop
  refine Keeps.bind (keeps_reserve _ _) (fun _ => ?_)
  exact Keeps.bind (keeps_update (fun _ _ => ⟨rfl, rfl⟩)) (fun _ => Keeps.pure)

/-- Adding a head. -/
theorem keeps_newHead
    (node : Nat) :
    Keeps observe (newHead node) := by
  unfold newHead
  refine Keeps.bind keeps_asks (fun count => ?_)
  refine Keeps.bind (keeps_reserve _ _) (fun _ => ?_)
  exact Keeps.bind (keeps_update (fun _ _ => ⟨rfl, rfl⟩)) (fun _ => Keeps.pure)

/-- Removing a head. -/
theorem keeps_removeHead
    (version : Nat) :
    Keeps observe (removeHead version) :=
  keeps_update (fun _ _ => ⟨rfl, rfl⟩)

/-- Taking link slots. -/
theorem keeps_newLinks
    (count : Nat) :
    Keeps observe (newLinks count) := by
  unfold newLinks
  refine Keeps.bind keeps_asks (fun used => ?_)
  exact Keeps.bind (keeps_reserve _ _)
    (fun _ => keeps_update (fun _ _ => ⟨rfl, rfl⟩))

/-- Adding a node. -/
theorem keeps_addNode
    (node : TFSpecNode) :
    Keeps observe (addNode node) := by
  unfold addNode
  refine Keeps.bind keeps_asks (fun count => ?_)
  exact Keeps.bind (keeps_update (fun _ _ => ⟨rfl, rfl⟩)) (fun _ => Keeps.pure)

/-- Pushing a tree. -/
theorem keeps_push
    (previous tree : Nat)
    (state : TSStateId) :
    Keeps observe (push previous tree state) := by
  unfold push
  refine Keeps.bind keeps_asks (fun count => ?_)
  refine Keeps.bind (keeps_reserve _ _) (fun _ => ?_)
  refine Keeps.bind (keeps_newLinks _) (fun _ => ?_)
  exact Keeps.bind keeps_asks (fun node => keeps_addNode node)

omit aside in
/-- Resolving a shape. -/
theorem controlWith_resolve
    (self : TFSpec)
    (k : Nat)
    (lexer : TFLexer) :
    (self.resolve k).controlWith lexer = self.controlWith lexer :=
  rfl

/-- Turning a stack cell into a node. -/
theorem keeps_extend : Keeps observe extend := by
  unfold extend
  refine Keeps.bind keeps_asks (fun left => ?_)
  refine Keeps.bind keeps_asks (fun cells => ?_)
  refine Keeps.bind (keeps_newTree _) (fun tree => ?_)
  refine Keeps.bind keeps_asks (fun trees => ?_)
  refine Keeps.bind (keeps_reserve _ _) (fun _ => ?_)
  refine Keeps.bind keeps_asks (fun nodes => ?_)
  refine Keeps.bind (keeps_reserve _ _) (fun _ => ?_)
  refine Keeps.bind (keeps_update (fun _ _ => ⟨rfl, rfl⟩)) (fun _ => ?_)
  refine Keeps.bind (keeps_newLinks _) (fun _ => ?_)
  refine Keeps.bind (keeps_addNode _) (fun bottom => ?_)
  refine Keeps.bind (keeps_update (fun _ _ => ⟨rfl, rfl⟩)) (fun _ => ?_)
  refine Keeps.bind keeps_asks (fun known => ?_)
  exact Keeps.ite
    (keeps_update (fun spec lexer =>
      ⟨controlWith_resolve spec _ lexer, rfl⟩))
    Keeps.pure

/-- Unrolling the frontier. -/
theorem keeps_unroll
    (node : Nat) :
    Keeps observe (unroll node) := by
  unfold unroll
  refine Keeps.bind keeps_asks (fun atFrontier => ?_)
  exact Keeps.ite keeps_extend Keeps.pure

section Shapes

variable {materialize : SpecM Unit}
variable (materializes : Keeps observe materialize)

include materializes

omit aside in
/-- Comparing two trees for interchange. -/
theorem keeps_equivalent
    (a b : Nat) :
    Keeps observe (equivalent materialize a b) := by
  unfold equivalent
  apply Keeps.ite Keeps.pure
  refine Keeps.bind keeps_asks (fun x => ?_)
  refine Keeps.bind keeps_asks (fun y => ?_)
  apply Keeps.ite Keeps.pure
  exact Keeps.ite (Keeps.bind materializes (fun _ => keeps_asks))
    keeps_asks

omit aside in
/-- Looking for a link. -/
theorem keeps_findLink
    (link : TFSpecLink)
    (index : Nat)
    (links : List TFSpecLink) :
    Keeps observe (findLink materialize link index links) := by
  induction links generalizing index with
  | nil =>
      exact Keeps.pure
  | cons existing rest inductionHypothesis =>
      unfold findLink
      refine Keeps.bind (keeps_equivalent materializes _ _) (fun same => ?_)
      apply Keeps.ite (inductionHypothesis _)
      refine Keeps.bind keeps_asks (fun merges => ?_)
      exact Keeps.ite Keeps.pure (inductionHypothesis _)

omit materializes in
/-- Appending a link. -/
theorem keeps_appendLink
    (target : Nat)
    (link : TFSpecLink) :
    Keeps observe (appendLink target link) := by
  unfold appendLink
  refine Keeps.bind keeps_asks (fun node => ?_)
  refine Keeps.ite (keeps_update (fun _ _ => ⟨rfl, rfl⟩)) ?_
  have appends :
      Keeps observe (do
        update (fun s =>
          s.modifyNode target (fun node =>
            { node with links := node.links ++ [link] }))
        update (fun s => s.raisePrecedence target link)) :=
    Keeps.bind (keeps_update (fun _ _ => ⟨rfl, rfl⟩))
      (fun _ => keeps_update (fun _ _ => ⟨rfl, rfl⟩))
  refine Keeps.ite ?_ appends
  refine Keeps.bind (keeps_newLinks _) (fun _ => ?_)
  exact Keeps.bind (keeps_update (fun _ _ => ⟨rfl, rfl⟩)) (fun _ => appends)

omit aside materializes in
/-- Replacing a link's tree. -/
theorem same_replaceTree
    (self : TFSpec)
    (target index : Nat)
    (existing link : TFSpecLink)
    (lexer : TFLexer) :
    (self.replaceTree target index existing link).controlWith lexer =
        self.controlWith lexer ∧
      (self.replaceTree target index existing link).finished =
        self.finished := by
  unfold replaceTree
  split <;> exact ⟨rfl, rfl⟩

/-- Adding a link. -/
theorem keeps_addLink
    (fuel target : Nat)
    (link : TFSpecLink) :
    Keeps observe (addLink materialize fuel target link) := by
  induction fuel generalizing target link with
  | zero =>
      exact Keeps.stop
  | succ fuel inductionHypothesis =>
      unfold addLink
      apply Keeps.ite Keeps.pure
      refine Keeps.bind (keeps_unroll _) (fun _ => ?_)
      refine Keeps.bind keeps_asks (fun links => ?_)
      refine Keeps.bind (keeps_findLink materializes _ _ _) (fun found => ?_)
      cases found with
      | none =>
          exact keeps_appendLink _ _
      | some place =>
          apply Keeps.ite
          · exact keeps_update
              (fun spec lexer => same_replaceTree spec _ _ _ _ lexer)
          · refine Keeps.bind ?_ (fun _ => keeps_update (fun _ _ => ⟨rfl, rfl⟩))
            refine Keeps.bind keeps_asks (fun links => ?_)
            exact Keeps.forEach (fun link => inductionHypothesis _ _)

/-- Merging two heads. -/
theorem keeps_merge
    (fuel a b : Nat) :
    Keeps observe (merge materialize fuel a b) := by
  unfold merge
  refine Keeps.bind keeps_asks (fun mergeable => ?_)
  refine Keeps.ite ?_ Keeps.pure
  refine Keeps.bind keeps_asks (fun into => ?_)
  refine Keeps.bind keeps_asks (fun source => ?_)
  refine Keeps.bind ?_ (fun _ => ?_)
  · refine Keeps.bind keeps_asks (fun links => ?_)
    exact Keeps.forEach (fun link => keeps_addLink materializes _ _ _)
  · exact Keeps.bind (keeps_removeHead _) (fun _ => Keeps.pure)

/-- Comparing shapes. -/
theorem keeps_preferShapes
    (fuel : Nat)
    (pairs : List (Nat × Nat)) :
    Keeps observe (preferShapes materialize fuel pairs) := by
  refine Keeps.iterate (fun pairs => ?_) _ _
  cases pairs with
  | nil =>
      exact Keeps.pure
  | cons pair rest =>
      apply Keeps.ite Keeps.pure
      refine Keeps.bind keeps_asks (fun x => ?_)
      refine Keeps.bind keeps_asks (fun y => ?_)
      apply Keeps.ite Keeps.pure
      have compares :
          Keeps observe (do
            let x ← asks (fun s => s.tree pair.1)
            let y ← asks (fun s => s.tree pair.2)
            if x.children.length ≠ y.children.length then
              pure (.inr
                (decide (y.children.length < x.children.length)))
            else
              reserve .scratch
                (2 * rest.length + 2 * x.children.length)
              pure (.inl (x.children.zip y.children ++ rest)) :
            SpecM (List (Nat × Nat) ⊕ Bool)) := by
        refine Keeps.bind keeps_asks (fun x => ?_)
        refine Keeps.bind keeps_asks (fun y => ?_)
        apply Keeps.ite Keeps.pure
        exact Keeps.bind (keeps_reserve _ _) (fun _ => Keeps.pure)
      exact Keeps.ite (Keeps.bind materializes (fun _ => compares)) compares

/-- Comparing two trees for preference. -/
theorem keeps_prefer
    (fuel : Nat)
    (a : Option Nat)
    (b : Nat) :
    Keeps observe (prefer materialize fuel a b) := by
  cases a with
  | none =>
      exact Keeps.pure
  | some a =>
      refine Keeps.bind keeps_asks (fun x => ?_)
      refine Keeps.bind keeps_asks (fun y => ?_)
      apply Keeps.ite Keeps.pure
      exact Keeps.bind (keeps_reserve _ _)
        (fun _ => keeps_preferShapes materializes _ _)

end Shapes

/-- Adding a reduction's tree. -/
theorem keeps_parent
    (symbol : TSSymbol)
    (production structural : Nat)
    (children : List Nat)
    (base : Nat) :
    Keeps observe (parent symbol production structural children base) :=
  Keeps.bind keeps_asks (fun tree => keeps_newTree tree)

/-- Taking room for a slice. -/
theorem keeps_reserveSlice
    (length slices : Nat) :
    Keeps observe (reserveSlice length slices) := by
  unfold reserveSlice
  refine Keeps.bind keeps_asks (fun used => ?_)
  refine Keeps.bind (keeps_reserve _ _) (fun _ => ?_)
  exact Keeps.bind (keeps_reserve _ _)
    (fun _ => keeps_update (fun _ _ => ⟨rfl, rfl⟩))

omit aside in
/-- Going down a chain, one link further or to its end. -/
theorem keeps_chainStep
    (current : TFSpecIterator) :
    Keeps observe (do
      match ← asks (fun s => (s.node current.node).links) with
      | [link] =>
          pure (.inl (← asks (fun s => s.stepIterator current link)))
      | _ => pure (.inr false) : SpecM (TFSpecIterator ⊕ Bool)) := by
  refine Keeps.bind keeps_asks (fun links => ?_)
  split
  · exact Keeps.bind keeps_asks (fun next => Keeps.pure)
  · exact Keeps.pure

/-- Walking a chain. -/
theorem keeps_popChain
    (fuel version : Nat)
    (goal : Option Nat) :
    Keeps observe (popChain fuel version goal) := by
  unfold popChain
  refine Keeps.bind keeps_asks (fun head => ?_)
  refine Keeps.iterate (fun current => ?_) _ _
  refine Keeps.bind keeps_asks (fun ends => ?_)
  apply Keeps.ite
  · refine Keeps.bind (keeps_reserveSlice _ _) (fun _ => ?_)
    refine Keeps.bind (keeps_newHead _) (fun head => ?_)
    exact Keeps.bind (keeps_update (fun _ _ => ⟨rfl, rfl⟩)) (fun _ => Keeps.pure)
  · have follows := @keeps_chainStep γ observe current
    exact Keeps.ite (Keeps.bind (keeps_unroll _) (fun _ => follows)) follows

/-- Recording a popped path. -/
theorem keeps_addSlice
    (current : TFSpecIterator) :
    Keeps observe (addSlice current) := by
  unfold addSlice
  refine Keeps.bind keeps_asks (fun slices => ?_)
  refine Keeps.bind (keeps_reserveSlice _ _) (fun _ => ?_)
  refine Keeps.bind keeps_asks (fun slot => ?_)
  cases slot with
  | none =>
      exact Keeps.bind (keeps_newHead _)
        (fun version => keeps_update (fun _ _ => ⟨rfl, rfl⟩))
  | some place =>
      exact keeps_update (fun _ _ => ⟨rfl, rfl⟩)

/-- Following a link. -/
theorem keeps_followLink
    (current : TFSpecIterator)
    (link : TFSpecLink) :
    Keeps observe (followLink current link) := by
  unfold followLink
  refine Keeps.bind keeps_asks (fun used => ?_)
  refine Keeps.bind (keeps_reserve _ _) (fun _ => ?_)
  exact Keeps.bind (keeps_update (fun _ _ => ⟨rfl, rfl⟩)) (fun _ => keeps_asks)

/-- Forking iterators. -/
theorem keeps_forkIterators
    (current : TFSpecIterator)
    (others : Nat)
    (links : List TFSpecLink)
    (appended : List TFSpecIterator) :
    Keeps observe (forkIterators current others links appended) := by
  induction links generalizing appended with
  | nil =>
      exact Keeps.pure
  | cons link rest inductionHypothesis =>
      apply Keeps.ite
      · exact Keeps.bind (keeps_update (fun _ _ => ⟨rfl, rfl⟩))
          (fun _ => inductionHypothesis _)
      · exact Keeps.bind (keeps_followLink _ _)
          (fun forked => inductionHypothesis _)

/-- Going on from one iterator, and from the others after it. -/
theorem keeps_popStep
    {goal : Option Nat}
    {rest : List TFSpecIterator}
    (current : TFSpecIterator)
    (done appended : List TFSpecIterator)
    (later :
      ∀ done appended, Keeps observe (popRound goal rest done appended)) :
    Keeps observe (do
      let links ← asks (fun s => (s.node current.node).links)
      if ← asks (fun s => s.popEnds goal current.node current.count) then
        addSlice current
        popRound goal rest done appended
      else
        match links with
        | [] => popRound goal rest done appended
        | first :: further => do
            let appended ←
              forkIterators current (done.length + 1 + rest.length) further
                appended
            let moved ← followLink current first
            popRound goal rest (done ++ [moved]) appended) := by
  refine Keeps.bind keeps_asks (fun links => ?_)
  refine Keeps.bind keeps_asks (fun ends => ?_)
  apply Keeps.ite
  · exact Keeps.bind (keeps_addSlice _) (fun _ => later _ _)
  · cases links with
    | nil =>
        exact later _ _
    | cons first further =>
        refine Keeps.bind (keeps_forkIterators _ _ _ _) (fun appended => ?_)
        exact Keeps.bind (keeps_followLink _ _) (fun moved => later _ _)

/-- A round of a pop. -/
theorem keeps_popRound
    (goal : Option Nat)
    (todo done appended : List TFSpecIterator) :
    Keeps observe (popRound goal todo done appended) := by
  induction todo generalizing done appended with
  | nil =>
      exact Keeps.pure
  | cons current rest inductionHypothesis =>
      have walks := keeps_popStep current done appended inductionHypothesis
      unfold popRound
      exact Keeps.ite (Keeps.bind (keeps_unroll _) (fun _ => walks)) walks

/-- Enumerating paths. -/
theorem keeps_popPaths
    (fuel version : Nat)
    (goal : Option Nat) :
    Keeps observe (popPaths fuel version goal) := by
  unfold popPaths
  refine Keeps.bind keeps_asks (fun head => ?_)
  refine Keeps.iterate (fun iterators => ?_) _ _
  cases iterators with
  | nil =>
      exact Keeps.pure
  | cons first rest =>
      exact Keeps.bind (keeps_popRound _ _ _ _) (fun next => Keeps.pure)

/-- Popping. -/
theorem keeps_pop
    (fuel version : Nat)
    (goal : Option Nat) :
    Keeps observe (pop fuel version goal) := by
  unfold pop
  refine Keeps.bind (keeps_update (fun _ _ => ⟨rfl, rfl⟩)) (fun _ => ?_)
  refine Keeps.bind (keeps_popChain _ _ _) (fun ended => ?_)
  exact Keeps.ite Keeps.pure (keeps_popPaths _ _ _)

section Advance

variable {env : TFSpecEnv}
variable (materializes : Keeps observe env.materialize)

include materializes

/-- Choosing a parent. -/
theorem keeps_selectParent
    (symbol : TSSymbol)
    (childCount productionId base : Nat)
    (paths : List (List Nat))
    (chosen : Option (Nat × List Nat)) :
    Keeps observe
      (selectParent env symbol childCount productionId base paths
        chosen) := by
  induction paths generalizing chosen with
  | nil =>
      exact Keeps.pure
  | cons path rest inductionHypothesis =>
      refine Keeps.bind keeps_asks (fun trimmed => ?_)
      refine Keeps.bind (keeps_parent _ _ _ _ _) (fun candidate => ?_)
      refine Keeps.bind (keeps_prefer materializes _ _ _) (fun better => ?_)
      exact Keeps.ite (inductionHypothesis _) (inductionHypothesis _)

omit materializes in
/-- Pushing extras. -/
theorem keeps_pushExtras
    (state : TSStateId)
    (extras : List Nat)
    (top : Nat) :
    Keeps observe (pushExtras state extras top) := by
  induction extras generalizing top with
  | nil =>
      exact Keeps.pure
  | cons tree rest inductionHypothesis =>
      exact Keeps.bind (keeps_push _ _ _) (fun next => inductionHypothesis _)

/-- Merging a new head into those before it. -/
theorem keeps_mergeBelow
    (version created : Nat)
    (others : List Nat) :
    Keeps observe (mergeBelow env version created others) := by
  induction others with
  | nil =>
      exact Keeps.pure
  | cons other rest inductionHypothesis =>
      apply Keeps.ite inductionHypothesis
      refine Keeps.bind (keeps_merge materializes _ _ _) (fun merged => ?_)
      exact Keeps.ite Keeps.pure inductionHypothesis

/-- Reducing over one base. -/
theorem keeps_reduceGroup
    (version created : Nat)
    (symbol : TSSymbol)
    (childCount productionId : Nat)
    (dynamicPrecedence : Int)
    (paths : List (List Nat)) :
    Keeps observe
      (reduceGroup env version created symbol childCount productionId
        dynamicPrecedence paths) := by
  unfold reduceGroup
  refine Keeps.bind keeps_asks (fun head => ?_)
  refine Keeps.bind (keeps_selectParent materializes _ _ _ _ _ _)
    (fun chosen => ?_)
  cases chosen with
  | none =>
      exact Keeps.stop
  | some parent =>
      refine Keeps.bind (keeps_update (fun _ _ => ⟨rfl, rfl⟩)) (fun _ => ?_)
      refine Keeps.bind keeps_asks (fun state => ?_)
      refine Keeps.bind (keeps_push _ _ _) (fun pushed => ?_)
      refine Keeps.bind (keeps_pushExtras _ _ _) (fun top => ?_)
      exact Keeps.bind (keeps_update (fun _ _ => ⟨rfl, rfl⟩))
        (fun _ => keeps_mergeBelow materializes _ _ _)

/-- Reducing over every base. -/
theorem keeps_reduceGroups
    (version halted : Nat)
    (symbol : TSSymbol)
    (childCount productionId : Nat)
    (dynamicPrecedence : Int)
    (groups : List (Nat × List (List Nat)))
    (removed : Nat) :
    Keeps observe
      (reduceGroups env version halted symbol childCount productionId
        dynamicPrecedence groups removed) := by
  induction groups generalizing removed with
  | nil =>
      exact Keeps.pure
  | cons group rest inductionHypothesis =>
      apply Keeps.ite
      · refine Keeps.bind (keeps_removeHead _) (fun _ => ?_)
        exact Keeps.bind (keeps_update (fun _ _ => ⟨rfl, rfl⟩))
          (fun _ => inductionHypothesis _)
      · exact Keeps.bind
          (keeps_reduceGroup materializes _ _ _ _ _ _ _)
          (fun merged => inductionHypothesis _)

/-- Reducing a head. -/
theorem keeps_reduce
    (version childCount : Nat)
    (symbol : TSSymbol)
    (dynamicPrecedence : Int)
    (productionId : Nat) :
    Keeps observe
      (reduce env version childCount symbol dynamicPrecedence
        productionId) := by
  unfold reduce
  refine Keeps.bind keeps_asks (fun initial => ?_)
  refine Keeps.bind keeps_asks (fun halted => ?_)
  refine Keeps.bind (keeps_pop _ _ _) (fun _ => ?_)
  refine Keeps.bind keeps_asks (fun slices => ?_)
  refine Keeps.bind (keeps_reduceGroups materializes _ _ _ _ _ _ _ _)
    (fun _ => ?_)
  refine Keeps.bind keeps_asks (fun heads => ?_)
  exact Keeps.ite Keeps.pure Keeps.pure

omit materializes in
/-- Shifting. -/
theorem keeps_shift
    (version : Nat)
    (token : TFToken)
    (state : TSStateId)
    (extra : Bool) :
    Keeps observe (shift version token state extra) := by
  unfold shift
  refine Keeps.bind keeps_asks (fun head => ?_)
  refine Keeps.bind keeps_asks (fun byte => ?_)
  refine Keeps.bind (keeps_newTree _) (fun leaf => ?_)
  exact Keeps.bind (keeps_push _ _ _)
    (fun node => keeps_update (fun _ _ => ⟨rfl, rfl⟩))

end Advance

end Asides

section Accept

variable {env : TFSpecEnv}
variable (materializes : Keeps control env.materialize)

include materializes

/-- Rebuilding a root. -/
theorem keeps_acceptPath
    (path : List Nat) :
    Keeps control (acceptPath env path) := by
  unfold acceptPath
  refine Keeps.bind keeps_asks (fun place => ?_)
  cases place with
  | none =>
      exact Keeps.pure
  | some index =>
      refine Keeps.bind keeps_asks (fun isOpaque => ?_)
      have rebuilds :
          Keeps control (do
            let root ← asks (fun s => s.tree (path.getD index 0))
            let children :=
              path.take index ++ root.children ++ path.drop (index + 1)
            reserve .children ((← asks TFSpec.childCount) + children.length)
            update (fun s =>
              { s with childCount := s.childCount + children.length })
            let candidate ←
              parent root.token.symbol root.productionId
                root.structuralCount children 0
            if ← prefer env.materialize env.fuel (← asks TFSpec.finished)
                candidate then
              update (fun s => { s with finished := some candidate })) := by
        refine Keeps.bind keeps_asks (fun root => ?_)
        refine Keeps.bind keeps_asks (fun used => ?_)
        refine Keeps.bind (keeps_reserve _ _) (fun _ => ?_)
        refine Keeps.bind (keeps_update (fun _ _ => ⟨rfl, rfl⟩)) (fun _ => ?_)
        refine Keeps.bind (keeps_parent _ _ _ _ _) (fun candidate => ?_)
        refine Keeps.bind keeps_asks (fun finished => ?_)
        refine Keeps.bind (keeps_prefer materializes _ _ _)
          (fun better => ?_)
        exact Keeps.ite (Keeps.modify (fun _ => rfl)) Keeps.pure
      exact Keeps.ite (Keeps.bind materializes (fun _ => rebuilds)) rebuilds

/-- Accepting. -/
theorem keeps_accept
    (version : Nat)
    (eof : TFToken) :
    Keeps control (accept env version eof) := by
  unfold accept
  refine Keeps.bind keeps_asks (fun left => ?_)
  refine Keeps.bind (Keeps.forEach (fun _ => keeps_extend)) (fun _ => ?_)
  refine Keeps.bind keeps_asks (fun head => ?_)
  refine Keeps.bind keeps_asks (fun byte => ?_)
  refine Keeps.bind (keeps_newTree _) (fun leaf => ?_)
  refine Keeps.bind (keeps_push _ _ _) (fun pushed => ?_)
  refine Keeps.bind (keeps_update (fun _ _ => ⟨rfl, rfl⟩)) (fun _ => ?_)
  refine Keeps.bind (keeps_pop _ _ _) (fun _ => ?_)
  refine Keeps.bind keeps_asks (fun slices => ?_)
  refine Keeps.bind
    (Keeps.forEach (fun slice => keeps_acceptPath materializes _))
    (fun _ => ?_)
  cases slices with
  | nil =>
      exact keeps_update (fun _ _ => ⟨rfl, rfl⟩)
  | cons slice rest =>
      exact Keeps.bind (keeps_removeHead _)
        (fun _ => keeps_update (fun _ _ => ⟨rfl, rfl⟩))

/-- Taking the actions of an entry. -/
theorem keeps_advanceActions
    (version : Nat)
    (state : TSStateId)
    (token : TFToken)
    (actions : List TSParseAction)
    (last : Option Nat)
    (any : Bool) :
    Keeps control
      (advanceActions env version state token actions last any) := by
  induction actions generalizing last any with
  | nil =>
      exact Keeps.pure
  | cons action rest inductionHypothesis =>
      cases action with
      | shift target extra repetition =>
          exact Keeps.bind (keeps_shift _ _ _ _) (fun _ => Keeps.pure)
      | reduce childCount symbol dynamicPrecedence productionId =>
          exact Keeps.bind (keeps_reduce materializes _ _ _ _ _)
            (fun created => inductionHypothesis _ _)
      | accept =>
          exact Keeps.bind (keeps_accept materializes _ _)
            (fun _ => Keeps.pure)
      | recover =>
          exact inductionHypothesis _ _

omit materializes in
/-- Halting a head. -/
theorem keeps_halt
    (version : Nat)
    (errored : Bool) :
    Keeps control (halt version errored) :=
  keeps_update (fun _ _ => ⟨rfl, rfl⟩)

/-- Condensing one head. -/
theorem keeps_condenseHead
    (precedence : Int)
    (i : Nat)
    (others : List Nat) :
    Keeps control (condenseHead env precedence i others) := by
  induction others with
  | nil =>
      exact Keeps.pure
  | cons j rest inductionHypothesis =>
      refine Keeps.bind keeps_asks (fun outranks => ?_)
      refine Keeps.bind (keeps_merge materializes _ _ _) (fun merged => ?_)
      apply Keeps.ite Keeps.pure
      exact Keeps.ite
        (Keeps.bind (keeps_update (fun _ _ => ⟨rfl, rfl⟩))
          (fun _ => inductionHypothesis))
        inductionHypothesis

/-- Condensing the heads. -/
theorem keeps_condense : Keeps control (condense env) := by
  unfold condense
  refine Keeps.bind ?_ (fun _ => ?_)
  · refine Keeps.iterate (fun i => ?_) _ _
    refine Keeps.bind keeps_asks (fun count => ?_)
    apply Keeps.ite Keeps.pure
    refine Keeps.bind keeps_asks (fun head => ?_)
    apply Keeps.ite
    · exact Keeps.bind (keeps_removeHead _) (fun _ => Keeps.pure)
    · refine Keeps.bind keeps_asks (fun precedence => ?_)
      refine Keeps.bind (keeps_condenseHead materializes _ _ _)
        (fun merged => ?_)
      exact Keeps.ite Keeps.pure Keeps.pure
  · refine Keeps.bind keeps_asks (fun count => ?_)
    refine Keeps.ite ?_ Keeps.pure
    exact Keeps.bind (keeps_update (fun _ _ => ⟨rfl, rfl⟩))
      (fun _ => keeps_update (fun _ _ => ⟨rfl, rfl⟩))

omit materializes in
/-- Testing for a single path. -/
theorem keeps_unique
    (fuel node : Nat) :
    Keeps control (unique fuel node) := by
  refine Keeps.iterate (fun node => ?_) _ _
  refine Keeps.bind keeps_asks (fun links => ?_)
  split
  · exact Keeps.pure
  · exact Keeps.pure
  · exact Keeps.pure

end Accept

end TFSpec

/-! ## What the driver leaves alone -/

/-- A sink whose callbacks maintain an invariant of the payload. -/
structure TFSink.Leaves
    {σ V : Type}
    (holds : σ → Prop)
    (sink : TFSink σ V) :
    Prop where
  shift :
    ∀ onShift, sink.onShift = some onShift →
      ∀ token extra payload heap,
        holds payload → holds (onShift token extra payload heap).2.1
  reduce :
    ∀ onReduce, sink.onReduce = some onReduce →
      ∀ reduction payload heap,
        holds payload → holds (onReduce reduction payload heap).2.1
  discard :
    ∀ onDiscard, sink.onDiscard = some onDiscard →
      ∀ value payload, holds payload → holds (onDiscard value payload)

namespace TFParser

variable {σ V : Type}

/--
What a replay leaves alone: the lexer, the splits and an invariant of the
payload.
-/
structure Beside
    (holds : σ → Prop)
    (before after : TFParser σ V) : Prop where
  lexer : after.lexer = before.lexer
  splitCount : after.splitCount = before.splitCount
  payload : holds before.payload → holds after.payload

namespace Beside

variable {holds : σ → Prop}

/-- Nothing happened. -/
theorem refl (self : TFParser σ V) : Beside holds self self :=
  ⟨rfl, rfl, id⟩

/-- One thing happened after another. -/
theorem trans
    {first second third : TFParser σ V}
    (later : Beside holds second third)
    (earlier : Beside holds first second) :
    Beside holds first third :=
  ⟨later.lexer.trans earlier.lexer,
    later.splitCount.trans earlier.splitCount,
    fun before => later.payload (earlier.payload before)⟩

end Beside

section Leaves

variable {holds : σ → Prop}
variable {sink : TFSink σ V}
variable (leaves : sink.Leaves holds)

/-- Growing the stack. -/
theorem beside_grow
    (self : TFParser σ V)
    (needed : Nat)
    (answered : Bool) :
    Beside holds self (self.grow needed answered).2 := by
  unfold grow
  split
  · exact .refl _
  · dsimp only
    split
    · exact ⟨rfl, rfl, id⟩
    · exact ⟨rfl, rfl, id⟩

/-- Pushing a cell. -/
theorem beside_push
    (self : TFParser σ V)
    (node : TFNode V)
    (state : TSStateId) :
    Beside holds self (self.push node state).2 := by
  have grown : Beside holds self (self.grow (self.depth + 1) true).2 :=
    beside_grow self _ _
  unfold push
  dsimp only
  split
  · exact ⟨grown.lexer, grown.splitCount, grown.payload⟩
  · exact grown

/-- Putting a parent in place. -/
theorem beside_place
    (self : TFParser σ V)
    (cut : Popped V)
    (parent : TFNode V)
    (state : TSStateId) :
    Beside holds self (self.place cut parent state).2 := by
  have grown :
      Beside holds self
        (self.grow (cut.below.length + 1 + cut.trailing.length) true).2 :=
    beside_grow self _ _
  unfold place
  dsimp only
  split
  · exact ⟨grown.lexer, grown.splitCount, grown.payload⟩
  · exact grown

include leaves

/-- Handing over a token. -/
theorem beside_emitShift
    (self : TFParser σ V)
    (token : TFToken)
    (extra : Bool) :
    Beside holds self (emitShift sink self token extra).2 := by
  unfold emitShift
  cases known : sink.onShift with
  | none =>
      exact ⟨rfl, rfl, id⟩
  | some onShift =>
      exact ⟨rfl, rfl,
        leaves.shift onShift known token extra self.payload self.heap⟩

/-- Handing over a reduction. -/
theorem beside_emitReduce
    (self : TFParser σ V)
    (reduction : TFReduction V) :
    Beside holds self (emitReduce sink self reduction).2 := by
  unfold emitReduce
  cases known : sink.onReduce with
  | none =>
      exact ⟨rfl, rfl, id⟩
  | some onReduce =>
      exact ⟨rfl, rfl,
        leaves.reduce onReduce known reduction self.payload self.heap⟩

/-- Shifting. -/
theorem beside_shift
    (self : TFParser σ V)
    (token : TFToken)
    (extra : Bool)
    (state : TSStateId) :
    Beside holds self (self.shift sink token extra state).2 := by
  have emitted := beside_emitShift leaves self token extra
  unfold shift
  dsimp only
  refine (beside_push _ _ _).trans ?_
  split
  · exact ⟨emitted.lexer, emitted.splitCount, emitted.payload⟩
  · exact emitted

/-- Reducing. -/
theorem beside_reduce
    {lang : TFLanguage}
    {self after : TFParser σ V}
    {symbol : TSSymbol}
    {childCount productionId : Nat}
    {lookahead : Option TFToken}
    {well : Bool}
    (reduced :
      self.reduce sink lang symbol childCount productionId lookahead =
        some (well, after)) :
    Beside holds self after := by
  unfold reduce at reduced
  split at reduced
  · cases reduced
  · rename_i cut popped
    dsimp only at reduced
    split at reduced
    · have same := congrArg Prod.snd (Option.some.inj reduced)
      dsimp only at same
      rw [← same]
      exact (beside_place _ _ _ _).trans (beside_emitReduce leaves _ _)
    · rename_i token root
      have grown : Beside holds self (self.grow (self.depth + 1) false).2 :=
        beside_grow self _ _
      split at reduced
      · have same := congrArg Prod.snd (Option.some.inj reduced)
        dsimp only at same
        rw [← same]
        exact grown
      · have same := congrArg Prod.snd (Option.some.inj reduced)
        dsimp only at same
        rw [← same]
        have marked :
            Beside holds self
              { (self.grow (self.depth + 1) false).2 with
                rootEmitted := true } :=
          ⟨grown.lexer, grown.splitCount, grown.payload⟩
        exact (beside_place _ _ _ _).trans
          ((beside_emitReduce leaves _ _).trans
            ((beside_emitShift leaves _ _ _).trans marked))

/-- Giving every value back. -/
theorem beside_discardAll
    (self : TFParser σ V) :
    Beside holds self (self.discardAll sink) := by
  unfold discardAll
  cases known : sink.onDiscard with
  | none =>
      exact ⟨rfl, rfl, id⟩
  | some onDiscard =>
      dsimp only
      generalize self.cells = cells
      induction cells generalizing self with
      | nil =>
          exact ⟨rfl, rfl, id⟩
      | cons cell rest inductionHypothesis =>
          rw [List.foldl_cons]
          refine (inductionHypothesis _).trans ?_
          cases cell.node.value with
          | none =>
              exact ⟨rfl, rfl, id⟩
          | some value =>
              exact ⟨rfl, rfl,
                leaves.discard onDiscard known value self.payload⟩

end Leaves

section Runs

variable {holds : σ → Prop}
variable {env : TFRunEnv σ V}
variable (leaves : env.sink.Leaves holds)

/-- Reserving replay room. -/
theorem beside_reserveScratch
    {self parser : TFParser σ V}
    {spec spec' : TFSpec}
    {needed : Nat}
    (reserved : self.reserveScratch spec needed = some (spec', parser)) :
    (∃ capacity, spec' = spec.withCapacity capacity) ∧
      Beside holds self parser := by
  unfold reserveScratch at reserved
  split at reserved
  · rename_i answer state ran
    cases reserved
    obtain ⟨capacity, heap, stateEq⟩ := TFSpec.reserve_eq_ok ran
    rw [stateEq]
    exact ⟨⟨capacity, rfl⟩, rfl, rfl, id⟩
  · cases reserved

include leaves

/-- Replaying one item. -/
theorem beside_replayItem
    (self : TFParser σ V)
    (spec : TFSpec)
    (rest : List TFReplayItem)
    (item : TFReplayItem) :
    let answer := self.replayItem env spec rest item
    (∃ capacity, answer.1 = spec.withCapacity capacity) ∧
      match answer.2 with
      | .next parser _ => Beside holds self parser
      | .failed parser => Beside holds self parser
      | .stuck => True := by
  have unchanged : ∃ capacity, spec = spec.withCapacity capacity :=
    ⟨spec.capacity, rfl⟩
  cases item with
  | reduce index =>
      simp only [replayItem]
      split
      · exact ⟨unchanged, trivial⟩
      · rename_i parser reduced
        exact ⟨unchanged, beside_reduce leaves reduced⟩
      · rename_i parser reduced
        exact ⟨unchanged, beside_reduce leaves reduced⟩
  | visit index =>
      simp only [replayItem]
      have shifted :=
        beside_shift leaves self (spec.tree index).token
          (spec.tree index).extra
          (self.leafState env.lang (spec.tree index))
      split
      · exact ⟨unchanged, .refl _⟩
      · split
        · split
          · rename_i parser answer
            rw [answer] at shifted
            exact ⟨unchanged, shifted⟩
          · rename_i parser answer
            rw [answer] at shifted
            exact ⟨unchanged, shifted⟩
        · split
          · exact ⟨unchanged, .refl _⟩
          · split
            · exact ⟨unchanged, .refl _⟩
            · rename_i spec' parser reserved
              exact beside_reserveScratch reserved

/-- Replaying the items of a stack. -/
theorem beside_replayItems
    {fuel : Nat}
    {self parser : TFParser σ V}
    {spec spec' : TFSpec}
    {items : List TFReplayItem}
    {well : Bool}
    (replayed :
      replayItems env fuel self spec items = some (well, spec', parser)) :
    (∃ capacity, spec' = spec.withCapacity capacity) ∧
      Beside holds self parser := by
  induction fuel generalizing self spec items with
  | zero =>
      cases replayed
  | succ fuel inductionHypothesis =>
      cases items with
      | nil =>
          cases replayed
          exact ⟨⟨_, rfl⟩, .refl _⟩
      | cons item rest =>
          obtain ⟨⟨capacity, same⟩, step⟩ :=
            beside_replayItem leaves self spec rest item
          simp only [replayItems] at replayed
          rcases answer : self.replayItem env spec rest item with
            ⟨next, outcome⟩
          rw [answer] at replayed same step
          simp only at same step
          subst same
          cases outcome with
          | next middle items =>
              obtain ⟨⟨capacity', sameLater⟩, later⟩ :=
                inductionHypothesis replayed
              exact ⟨⟨capacity', sameLater⟩, later.trans step⟩
          | failed middle =>
              cases replayed
              exact ⟨⟨capacity, rfl⟩, step⟩
          | stuck =>
              cases replayed

/-- Replaying a forest. -/
theorem beside_replay
    {self parser : TFParser σ V}
    {spec spec' : TFSpec}
    {forest : List Nat}
    {well : Bool}
    (replayed : self.replay env spec forest = some (well, spec', parser)) :
    (∃ capacity, spec' = spec.withCapacity capacity) ∧
      Beside holds self parser := by
  unfold replay at replayed
  split at replayed
  · cases replayed
    exact ⟨⟨_, rfl⟩, .refl _⟩
  · rename_i reservedSpec middle reserved
    obtain ⟨⟨capacity, same⟩, quiet⟩ := beside_reserveScratch reserved
    subst same
    obtain ⟨⟨capacity', sameLater⟩, went⟩ :=
      beside_replayItems leaves replayed
    exact ⟨⟨capacity', sameLater⟩, went.trans quiet⟩

/-- Committing to a path maintains the payload's invariant. -/
theorem payload_commitPath
    {self after : TFParser σ V}
    {spec : TFSpec}
    {forest : List Nat}
    {top : Nat}
    {token next : TFToken}
    {well : Bool}
    (committed :
      self.commitPath env spec forest top token = some (well, next, after))
    (before : holds self.payload) :
    holds after.payload := by
  unfold commitPath at committed
  split at committed
  · cases committed
  · rename_i spec' parser replayed
    have kept := (beside_replay leaves replayed).2.payload before
    cases committed
    exact kept
  · rename_i spec' parser replayed
    have kept := (beside_replay leaves replayed).2.payload before
    split at committed
    · cases committed
    · cases committed
      exact kept
    · cases committed
      exact kept
    · cases committed
      exact kept

/-- Committing to a root maintains the payload's invariant. -/
theorem payload_commitRoot
    {self after : TFParser σ V}
    {spec : TFSpec}
    {root : Nat}
    {token next : TFToken}
    {well : Bool}
    (committed :
      self.commitRoot env spec root token = some (well, next, after))
    (before : holds self.payload) :
    holds after.payload := by
  unfold commitRoot at committed
  dsimp only at committed
  split at committed
  · cases committed
  · rename_i spec' parser replayed
    cases committed
    exact (beside_replay leaves replayed).2.payload before
  · rename_i spec' parser replayed
    have middle := (beside_replay leaves replayed).2.payload before
    split at committed
    · cases committed
    · rename_i parser' reduced
      cases committed
      exact (beside_reduce leaves reduced).payload middle
    · rename_i parser' reduced
      cases committed
      exact (beside_reduce leaves reduced).payload middle

omit leaves in
/-- Taking the spare graph leaves the payload. -/
theorem payload_ownSpec (self : TFParser σ V) :
    self.ownSpec.2.payload = self.payload := by
  unfold ownSpec
  split
  · rfl
  · dsimp only
    split
    · rfl
    · rfl

variable
  (hooks :
    ∀ cells splits token payload heap,
      holds payload →
        holds (env.hook cells splits token payload heap).2.1)

include hooks

/-- A split maintains the payload's invariant. -/
theorem payload_split
    {self after : TFParser σ V}
    {token next : TFToken}
    {well : Bool}
    (ran : self.split env token = some (well, next, after))
    (before : holds self.payload) :
    holds after.payload := by
  have hooked :=
    hooks self.cells (self.splitCount + 1) token self.payload self.heap
      before
  unfold split at ran
  dsimp only at ran
  split at ran
  · cases ran
    exact hooked
  · have owned := payload_ownSpec
      { self with
        splitCount := self.splitCount + 1
        payload :=
          (env.hook self.cells (self.splitCount + 1) token self.payload
            self.heap).2.1
        heap :=
          (env.hook self.cells (self.splitCount + 1) token self.payload
            self.heap).2.2 }
    split at ran
    · rename_i parser found
      cases ran
      rw [found] at owned
      exact (congrArg holds owned).mpr hooked
    · rename_i spec parser found
      rw [found] at owned
      have kept : holds parser.payload :=
        (congrArg holds owned).mpr hooked
      split at ran
      · cases ran
      · cases ran
        exact kept
      · rename_i state explored
        cases ran
        unfold failDead
        split
        · exact kept
        · exact kept
      · exact payload_commitPath leaves ran kept
      · exact payload_commitRoot leaves ran kept

omit leaves hooks in
/-- What holds of the payload at a step that is not stuck. -/
def Along (holds : σ → Prop) : TFStep σ V → Prop
  | .lex parser => holds parser.payload
  | .act parser _ => holds parser.payload
  | .stop _ _ parser => holds parser.payload
  | .stuck => True

/-- One step of the main loop maintains the payload's invariant. -/
theorem along_step
    {current : TFStep σ V}
    (before : Along holds current) :
    Along holds (TFStep.step env current) := by
  cases current with
  | lex parser =>
      simp only [TFStep.step, TFStep.lexStep]
      split
      · exact before
      · exact before
  | act parser token =>
      simp only [TFStep.step, TFStep.actStep]
      split
      · split
        · exact before
        · exact before
      · rename_i action entry
        cases action with
        | shift target extra repetition =>
            simp only [TFStep.actionStep]
            generalize (if extra = true then parser.state else target) = into
            have shifted :=
              (beside_shift leaves parser token extra into).payload before
            split
            · exact shifted
            · exact shifted
        | reduce childCount symbol precedence productionId =>
            simp only [TFStep.actionStep]
            split
            · trivial
            · rename_i reduced done
              exact (beside_reduce leaves done).payload before
            · rename_i reduced done
              exact (beside_reduce leaves done).payload before
        | accept =>
            exact before
        | recover =>
            exact before
      · split
        · trivial
        · rename_i next parser' ran
          exact payload_split leaves hooks ran before
        · rename_i next parser' ran
          exact payload_split leaves hooks ran before
  | stop ok root parser =>
      exact before
  | stuck =>
      exact before

/-- Any number of steps maintains the payload's invariant. -/
theorem along_steps
    {count : Nat}
    {current : TFStep σ V}
    (before : Along holds current) :
    Along holds (TFStep.steps env count current) := by
  induction count generalizing current with
  | zero =>
      exact before
  | succ count inductionHypothesis =>
      exact inductionHypothesis (along_step leaves hooks before)

/-- A run maintains the payload's invariant. -/
theorem payload_run
    {source : List UInt8}
    {payload : σ}
    {heap : Heap}
    {result : TFResult σ V}
    (ran : run env source payload heap = some result)
    (before : holds payload) :
    holds result.parser.payload := by
  have entered :
      Along holds (enter source payload heap : TFStep σ V) := by
    have grown :=
      (beside_grow (initial source payload heap : TFParser σ V) 64
        false).payload before
    unfold enter
    dsimp only
    split
    · exact before
    · split
      · exact grown
      · exact grown
  have ended : Along holds (TFStep.steps env env.fuel (enter _ _ _)) :=
    along_steps leaves hooks entered
  unfold run finish at ran
  split at ran
  · rename_i root parser last
    cases ran
    rw [last] at ended
    exact ended
  · rename_i root parser last
    cases ran
    rw [last] at ended
    exact (beside_discardAll leaves parser).payload ended
  · cases ran

end Runs

end TFParser

namespace TFSpec

open Program TFSpecState

/-- A graph that holds the same as another, beside its nodes and trees. -/
structure SameOutside (before after : TFSpec) : Prop where
  control : after.controlWith default = before.controlWith default
  finished : after.finished = before.finished

/-- Collecting a tree leaves what is not the graph. -/
theorem sameOutside_collect
    {program : SpecM Nat}
    (keeps : Keeps control program)
    (keepsRoot : Keeps finishedOf program)
    (self : TFSpec)
    (heap : Heap) :
    SameOutside self (collect program self heap).2.1 := by
  unfold collect
  split
  · exact ⟨rfl, rfl⟩
  · split
    · rename_i id state ran
      have same := keeps _ _ _ ran
      have fields :
          state.spec.controlWith state.lexer =
            self.controlWith default :=
        same
      have lexer : state.lexer = default :=
        congrArg TFSpecControl.lexer fields
      rw [lexer] at fields
      exact ⟨fields, keepsRoot _ _ _ ran⟩
    · exact ⟨rfl, rfl⟩

/-- Collecting a reduction keeps what is not the graph. -/
theorem keeps_captureReduce
    {γ : Type}
    {observe : TFSpecState → γ}
    [Aside observe]
    (reduction : TFReduction Nat) :
    Keeps observe (captureReduce reduction) := by
  unfold captureReduce
  refine Keeps.bind keeps_asks (fun used => ?_)
  refine Keeps.bind (keeps_reserve _ _) (fun _ => ?_)
  exact Keeps.bind (keeps_update (fun _ _ => ⟨rfl, rfl⟩))
    (fun _ => keeps_newTree _)

namespace SameOutside

variable {first second third : TFSpec}

/-- One graph that holds the same after another. -/
theorem trans
    (later : SameOutside second third)
    (earlier : SameOutside first second) :
    SameOutside first third :=
  ⟨later.control.trans earlier.control,
    later.finished.trans earlier.finished⟩

end SameOutside

/-- The collector's callbacks leave what is not the graph. -/
theorem captureSink_leaves (spec : TFSpec) :
    captureSink.Leaves (SameOutside spec) where
  shift := by
    intro onShift known token extra payload heap before
    cases known
    exact (sameOutside_collect (keeps_newTree _) (keeps_newTree _) payload
      heap).trans before
  reduce := by
    intro onReduce known reduction payload heap before
    cases known
    exact (sameOutside_collect (keeps_captureReduce _) (keeps_captureReduce _)
      payload heap).trans before
  discard := nofun

/-- Recording the trees below the fork leaves what is not the graph. -/
theorem sameOutside_captureCells
    (self : TFSpec)
    (cells : List (TFCell Nat)) :
    SameOutside self (self.captureCells cells) := by
  have resolves :
      ∀ (places : List Nat) (spec : TFSpec),
        SameOutside spec (places.foldl resolve spec) := by
    intro places
    induction places with
    | nil =>
        intro spec
        exact ⟨rfl, rfl⟩
    | cons place rest inductionHypothesis =>
        intro spec
        exact (inductionHypothesis _).trans
          ⟨controlWith_resolve spec place default, rfl⟩
  exact (resolves _ _).trans ⟨rfl, rfl⟩

/-- Reaching the fork leaves what is not the graph. -/
theorem captureHook_leaves
    (cells : List (TFCell Nat))
    (splits : Nat)
    (token : TFToken)
    (self : TFSpec)
    (heap : Heap) :
    SameOutside self (captureHook cells splits token self heap).2.1 := by
  unfold captureHook
  split
  · exact ⟨rfl, rfl⟩
  · split
    · split
      · rename_i answer state reserved
        obtain ⟨capacity, heap, stateEq⟩ := reserve_eq_ok reserved
        rw [stateEq]
        exact (sameOutside_captureCells _ _).trans ⟨rfl, rfl⟩
      · exact ⟨rfl, rfl⟩
    · exact ⟨rfl, rfl⟩

/-- Recovering shapes by a replay that leaves what is not the graph. -/
theorem keeps_materializeWith
    {γ : Type}
    {observe : TFSpecState → γ}
    [aside : Aside observe]
    {replay : List UInt8 → TFSpec → Heap → Option (TFResult TFSpec Nat)}
    (leaves :
      ∀ source spec heap result,
        replay source spec heap = some result →
          SameOutside spec result.parser.payload) :
    Keeps observe (materializeWith replay) := by
  unfold materializeWith
  refine Keeps.bind keeps_asks (fun known => ?_)
  apply Keeps.ite Keeps.pure
  refine Keeps.bind (keeps_update (fun _ _ => ⟨rfl, rfl⟩)) (fun _ => ?_)
  intro before value after ran
  obtain ⟨state, read, asked, ran⟩ := bind_eq_ok.mp ran
  cases asked
  cases replayed :
      replay before.lexer.source before.spec before.heap with
  | none =>
      rw [replayed] at ran
      cases ran
  | some result =>
      rw [replayed] at ran
      have left := leaves _ _ _ _ replayed
      obtain ⟨_, stored, updated, ran⟩ := bind_eq_ok.mp ran
      have same : observe stored = observe before := by
        cases updated
        refine aside.same before _ _ ?_ left.finished
        exact congrArg
          (fun control : TFSpecControl =>
            { control with lexer := before.lexer }) left.control
      split at ran
      · cases ran
      · cases ran
        exact same

/-- Recovering shapes leaves what is not the graph. -/
theorem keeps_materialize
    {γ : Type}
    {observe : TFSpecState → γ}
    [Aside observe]
    (lang : TFLanguage)
    (fuel : Nat) :
    Keeps observe (materialize lang fuel) := by
  cases fuel with
  | zero =>
      exact Keeps.stop
  | succ fuel =>
      refine keeps_materializeWith ?_
      intro source spec heap result replayed
      have hooks :
          ∀ cells splits token (self : TFSpec) heap,
            SameOutside spec self →
              SameOutside spec (captureHook cells splits token self heap).2.1 :=
        fun _ _ _ _ _ before =>
          (captureHook_leaves _ _ _ _ _).trans before
      exact TFParser.payload_run (captureSink_leaves spec) hooks replayed
        ⟨rfl, rfl⟩

end TFSpec

end TreeFeller
