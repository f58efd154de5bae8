import TreeFeller.Cells
import TreeFeller.Library.Program

/-!
# Speculative parsing on a graph-structured stack

The value-free graph a conflict is explored on: trees, nodes whose links lead
down to earlier nodes, and the heads still being advanced.  Trees and nodes
are named by their index.  A node keeps its links in a list and a tree its
children, where the source keeps runs in shared arenas; the arenas' fill and
capacities are still counted, because reserving is where allocation fails.

Every function of the source returns as soon as `failed` is set and its
callers give the split up, so a failed reservation stops the program here.
The flag itself remains for the collector of a private replay, whose callbacks
cannot stop the parse they run in.

Functions that can compare the shapes of trees take the program that recovers
the shapes of the inherited cells (`tf_spec__materialize`) as a parameter,
because it runs the whole driver again.  Loops without a structural bound run
on fuel.
-/

namespace TreeFeller

open StatefulProgram

/-- Links a node can hold. -/
def tfSpecLinks : Nat := 8

/-- Iterators a pop can hold. -/
def tfSpecIterators : Nat := 64

/-- Heads that survive a round. -/
def tfSpecVersions : Nat := 6

/-- Why a speculative program stopped. -/
inductive TFSpecStop where
  /-- A reservation failed, or an inherited shape could not be recovered. -/
  | outOfMemory
  /-- The fuel ran out, or a replayed parse read below its stack. -/
  | stuck
  deriving Repr, DecidableEq

/-- A tree of the graph: a token, a reduction or an inherited stack cell. -/
structure TFSpecTree where
  token : TFToken
  paddingStart : Nat
  children : List Nat
  productionId : Nat
  structuralCount : Nat
  leaf : Bool
  extra : Bool
  inherited : Bool
  /-- The children of an inherited cell are not known yet. -/
  isOpaque : Bool
  precedence : Int
  deriving Repr, DecidableEq, Inhabited

/-- A link from a node down to an earlier one, with the tree between. -/
structure TFSpecLink where
  node : Nat
  tree : Nat
  deriving Repr, DecidableEq, Inhabited

/-- A node of the graph. -/
structure TFSpecNode where
  state : TSStateId
  byte : Nat
  point : TFPoint
  precedence : Int
  links : List TFSpecLink
  linkCapacity : Nat
  deriving Repr, DecidableEq, Inhabited

/-- A head under exploration. -/
structure TFSpecHead where
  node : Nat
  halted : Bool
  errored : Bool
  deriving Repr, DecidableEq, Inhabited

/-- A path under way in a pop: its trees, deepest first. -/
structure TFSpecIterator where
  node : Nat
  count : Nat
  path : List Nat
  deriving Repr, DecidableEq, Inhabited

/-- A popped path, and the head at the node it ends at. -/
structure TFSpecSlice where
  version : Nat
  children : List Nat
  deriving Repr, DecidableEq, Inhabited

/-- The arrays that reserve room. -/
inductive TFSpecArena where
  | trees | nodes | links | heads | children
  | edges | slices | scratch | prefixTree | captureId
  deriving Repr, DecidableEq

/-- What speculation reads of the parser it works for. -/
structure TFSpecOwner where
  cells : List (TFCell Unit)
  splitCount : Nat
  deriving Repr, DecidableEq, Inhabited

/-- The graph and everything a split keeps beside it. -/
structure TFSpec where
  trees : List TFSpecTree
  nodes : List TFSpecNode
  linkCount : Nat
  heads : List TFSpecHead
  childCount : Nat
  edgeCount : Nat
  slices : List TFSpecSlice
  /-- `prefixTree[k]` is the tree of stack cell `depth - 1 - k`. -/
  prefixTree : List Nat
  /-- `captureId[i]` is the recovered tree of stack cell `i`. -/
  captureId : List Nat
  capacity : TFSpecArena → Nat
  frontier : Nat
  prefixLeft : Nat
  failed : Bool
  materialized : Bool
  captured : Bool
  owner : TFSpecOwner
  forkByte : Nat
  cached : TFToken
  cachedByte : Nat
  cachedState : TSStateId
  hasCache : Bool
  cachedKeyword : Bool
  finished : Option Nat
  errorByte : Nat
  errorPoint : TFPoint
  errorState : TSStateId
  errorSymbol : TSSymbol
  hasError : Bool
  errorIsLex : Bool
  /-- Whether a limit dropped an alternative; the source keeps no such flag. -/
  limited : Bool

namespace TFSpec

/-- A freshly allocated, zeroed graph. -/
def zero : TFSpec where
  trees := []
  nodes := []
  linkCount := 0
  heads := []
  childCount := 0
  edgeCount := 0
  slices := []
  prefixTree := []
  captureId := []
  capacity := fun _ => 0
  frontier := 0
  prefixLeft := 0
  failed := false
  materialized := false
  captured := false
  owner := ⟨[], 0⟩
  forkByte := 0
  cached := .zero
  cachedByte := 0
  cachedState := 0
  hasCache := false
  cachedKeyword := false
  finished := none
  errorByte := 0
  errorPoint := .origin
  errorState := 0
  errorSymbol := 0
  hasError := false
  errorIsLex := false
  limited := false

/-- A tree by its index. -/
def tree (self : TFSpec) (index : Nat) : TFSpecTree :=
  self.trees.getD index default

/-- A node by its index. -/
def node (self : TFSpec) (index : Nat) : TFSpecNode :=
  self.nodes.getD index default

/-- A head by its version. -/
def head (self : TFSpec) (version : Nat) : TFSpecHead :=
  self.heads.getD version default

/-- Update a tree. -/
def modifyTree
    (self : TFSpec)
    (index : Nat)
    (update : TFSpecTree → TFSpecTree) :
    TFSpec :=
  { self with trees := self.trees.modify index update }

/-- Update a node. -/
def modifyNode
    (self : TFSpec)
    (index : Nat)
    (update : TFSpecNode → TFSpecNode) :
    TFSpec :=
  { self with nodes := self.nodes.modify index update }

/-- Update a head. -/
def modifyHead
    (self : TFSpec)
    (version : Nat)
    (update : TFSpecHead → TFSpecHead) :
    TFSpec :=
  { self with heads := self.heads.modify version update }

/-- The same graph with other room reserved. -/
def withCapacity
    (self : TFSpec)
    (capacity : TFSpecArena → Nat) :
    TFSpec :=
  { self with capacity := capacity }

@[simp] theorem withCapacity_withCapacity
    (self : TFSpec)
    (first second : TFSpecArena → Nat) :
    (self.withCapacity first).withCapacity second =
      self.withCapacity second :=
  rfl

/-- Record that a limit dropped an alternative. -/
def limit (self : TFSpec) : TFSpec :=
  { self with limited := true }

/-- The recovered shape of the stack cell that was unrolled `k`-th. -/
def resolve (self : TFSpec) (k : Nat) : TFSpec :=
  let slot := self.prefixTree.getD k 0
  let id := self.captureId.getD (self.owner.cells.length - 1 - k) 0
  self.modifyTree slot (fun tree =>
    { tree with
      children := (self.tree id).children
      isOpaque := false })

end TFSpec

/-- The graph, the lexer it shares with its parser, and the allocator. -/
structure TFSpecState where
  spec : TFSpec
  lexer : TFLexer
  heap : Heap

/-- Speculative programs. -/
abbrev SpecM (α : Type) : Type :=
  Program TFSpecStop TFSpecState α

/--
What the functions of a split are given.  Every fuelled function gives its
loops the same fuel.
-/
structure TFSpecEnv where
  lang : TFLanguage
  materialize : SpecM Unit
  fuel : Nat

namespace TFSpec

/-- Read a function of the graph. -/
def asks {α : Type} (project : TFSpec → α) : SpecM α :=
  Program.gets (fun state => project state.spec)

/-- Update the graph. -/
def update (change : TFSpec → TFSpec) : SpecM Unit :=
  Program.modify (fun state => { state with spec := change state.spec })

/-- Give the split up. -/
def outOfMemory {α : Type} : SpecM α :=
  Program.stop .outOfMemory

/-- Ask the allocator for one allocation. -/
def allocate : SpecM Bool :=
  Program.modifyGet (fun state =>
    (state.heap.allocate.1, { state with heap := state.heap.allocate.2 }))

/-- Make room for `needed` entries of an array. -/
def reserve (arena : TFSpecArena) (needed : Nat) : SpecM Unit := do
  let capacity ← asks (fun s => s.capacity arena)
  if needed ≤ capacity then
    pure ()
  else
    let next := grownCapacity capacity needed
    if 2 ^ 32 ≤ next then
      outOfMemory
    else
      if ← allocate then
        update (fun s =>
          { s with
            capacity := fun other =>
              if other = arena then next else s.capacity other })
      else
        outOfMemory

/-- Reserving changes the capacities and asks the allocator only. -/
theorem reserve_eq_ok
    {arena : TFSpecArena}
    {needed : Nat}
    {before after : TFSpecState}
    (reserved : reserve arena needed before = .ok ((), after)) :
    ∃ capacity heap,
      after =
        { before with
          spec := before.spec.withCapacity capacity
          heap := heap } := by
  unfold reserve at reserved
  obtain ⟨capacity, middle, asked, reserved⟩ :=
    Program.bind_eq_ok.mp reserved
  cases asked
  split at reserved
  · cases reserved
    exact ⟨_, _, rfl⟩
  · dsimp only at reserved
    split at reserved
    · cases reserved
    · obtain ⟨served, middle, asked, reserved⟩ :=
        Program.bind_eq_ok.mp reserved
      cases asked
      split at reserved
      · cases reserved
        exact ⟨_, _, rfl⟩
      · cases reserved

/-- Add a tree.  The replay needs the high bit for its postorder marker. -/
def newTree (tree : TFSpecTree) : SpecM Nat := do
  let count ← asks (fun s => s.trees.length)
  if 2 ^ 31 ≤ count then
    outOfMemory
  else
    reserve .trees (count + 1)
    update (fun s => { s with trees := s.trees ++ [tree] })
    pure count

/-- Add a head at a node. -/
def newHead (node : Nat) : SpecM Nat := do
  let count ← asks (fun s => s.heads.length)
  reserve .heads (count + 1)
  update (fun s => { s with heads := s.heads ++ [⟨node, false, false⟩] })
  pure count

/-- Remove a head; the ones after it move down. -/
def removeHead (version : Nat) : SpecM Unit :=
  update (fun s => { s with heads := s.heads.eraseIdx version })

/-- Take a run of link slots. -/
def newLinks (count : Nat) : SpecM Unit := do
  let used ← asks TFSpec.linkCount
  reserve .links (used + count)
  update (fun s => { s with linkCount := s.linkCount + count })

/-- Add a node to the graph without links of its own. -/
def addNode (node : TFSpecNode) : SpecM Nat := do
  let count ← asks (fun s => s.nodes.length)
  update (fun s => { s with nodes := s.nodes ++ [node] })
  pure count

/-- The node that pushing a tree on another node makes. -/
def pushedNode
    (self : TFSpec)
    (previous tree : Nat)
    (state : TSStateId) :
    TFSpecNode where
  state := state
  byte := (self.tree tree).token.endByte
  point := (self.tree tree).token.endPoint
  precedence := (self.node previous).precedence + (self.tree tree).precedence
  links := [⟨previous, tree⟩]
  linkCapacity := 1

/-- Push a tree on a node. -/
def push (previous tree : Nat) (state : TSStateId) : SpecM Nat := do
  let count ← asks (fun s => s.nodes.length)
  reserve .nodes (count + 1)
  newLinks 1
  addNode (← asks (fun s => s.pushedNode previous tree state))

/-- The tree that stands for an inherited stack cell. -/
def inheritedTree (node : TFNode Unit) (paddingStart : Nat) : TFSpecTree where
  token := {
    symbol := node.symbol
    startByte := node.startByte
    endByte := node.endByte
    startPoint := node.startPoint
    endPoint := node.endPoint
  }
  paddingStart := paddingStart
  children := []
  productionId := 0
  structuralCount := 0
  leaf := false
  extra := node.extra
  inherited := true
  isOpaque := true
  precedence := 0

/-- Turn the stack cell below the frontier into a node and a link. -/
def extend : SpecM Unit := do
  let index := (← asks TFSpec.prefixLeft) - 1
  let cells ← asks (fun s => s.owner.cells)
  let cell := cells.getD index default
  let below := cells.take index
  let tree ← newTree (inheritedTree cell.node (topByte below))
  reserve .prefixTree ((← asks (fun s => s.prefixTree.length)) + 1)
  reserve .nodes ((← asks (fun s => s.nodes.length)) + 1)
  update (fun s => { s with prefixTree := s.prefixTree ++ [tree] })
  newLinks 1
  let bottom ← addNode {
    state := stateAt cells index
    byte := topByte below
    point := topPoint below
    precedence := 0
    links := []
    linkCapacity := 0
  }
  update (fun s =>
    { s.modifyNode s.frontier (fun node =>
        { node with links := [⟨bottom, tree⟩], linkCapacity := 1 }) with
      frontier := bottom
      prefixLeft := index })
  if ← asks (fun s => s.materialized && s.captured) then
    update (fun s => s.resolve (s.prefixTree.length - 1))

/-- Unroll the cell below a node about to be read, if it is the frontier. -/
def unroll (node : Nat) : SpecM Unit := do
  if ← asks (fun s => node = s.frontier && s.prefixLeft ≠ 0) then
    extend

/-- The difference of two 32-bit positions. -/
def span32 (first last : Nat) : Nat :=
  (last + 2 ^ 32 - first) % 2 ^ 32

/-- Whether two trees agree but for the number of their children. -/
def sameSpan (x y : TFSpecTree) : Bool :=
  x.token.symbol == y.token.symbol && x.extra == y.extra &&
    span32 x.paddingStart x.token.startByte ==
      span32 y.paddingStart y.token.startByte &&
    span32 x.token.startByte x.token.endByte ==
      span32 y.token.startByte y.token.endByte

section Shapes

variable (materialize : SpecM Unit)

/-- Whether two trees are interchangeable on a link. -/
def equivalent (a b : Nat) : SpecM Bool := do
  if a = b then
    pure true
  else
    let x ← asks (fun s => s.tree a)
    let y ← asks (fun s => s.tree b)
    if !sameSpan x y then
      pure false
    else
      if x.isOpaque || y.isOpaque then
        materialize
      asks (fun s =>
        (s.tree a).children.length == (s.tree b).children.length)

/--
The first existing link that takes a new one in: an equivalent tree over the
same predecessor, or over one of the same state and byte.
-/
def findLink (link : TFSpecLink) :
    Nat → List TFSpecLink → SpecM (Option (Nat × TFSpecLink))
  | _, [] => pure none
  | index, existing :: rest => do
      if !(← equivalent materialize existing.tree link.tree) then
        findLink link (index + 1) rest
      else
        let merges ← asks (fun s =>
          existing.node = link.node ||
            (s.node existing.node).state == (s.node link.node).state &&
              (s.node existing.node).byte == (s.node link.node).byte)
        if merges then
          pure (some (index, existing))
        else
          findLink link (index + 1) rest

/-- The dynamic precedence of a stack that takes a link. -/
def linkPrecedence (self : TFSpec) (link : TFSpecLink) : Int :=
  (self.node link.node).precedence + (self.tree link.tree).precedence

/-- Keep the tree of higher precedence on a link. -/
def replaceTree
    (self : TFSpec)
    (target index : Nat)
    (existing link : TFSpecLink) :
    TFSpec :=
  if (self.tree existing.tree).precedence <
      (self.tree link.tree).precedence then
    self.modifyNode target (fun node =>
      { node with
        links := node.links.set index ⟨existing.node, link.tree⟩
        precedence := self.linkPrecedence link })
  else
    self

/-- Raise a node's precedence to that of a link. -/
def raisePrecedence
    (self : TFSpec)
    (target : Nat)
    (link : TFSpecLink) :
    TFSpec :=
  self.modifyNode target (fun node =>
    { node with
      precedence := max node.precedence (self.linkPrecedence link) })

/-- Append a link to a node, in a longer run when its own is full. -/
def appendLink (target : Nat) (link : TFSpecLink) : SpecM Unit := do
  let node ← asks (fun s => s.node target)
  if node.links.length = tfSpecLinks then
    update limit
  else
    if node.links.length = node.linkCapacity then
      let want :=
        min tfSpecLinks
          (if node.linkCapacity = 0 then 1 else node.linkCapacity * 2)
      newLinks want
      update (fun s =>
        s.modifyNode target (fun node => { node with linkCapacity := want }))
    update (fun s =>
      s.modifyNode target (fun node =>
        { node with links := node.links ++ [link] }))
    update (fun s => s.raisePrecedence target link)

/-- Add every link of `source` to `into`, each by `add`. -/
def absorbWith
    (add : Nat → TFSpecLink → SpecM Unit)
    (into source : Nat) :
    SpecM Unit := do
  Program.forEach (add into) (← asks (fun s => (s.node source).links))

/--
Add a link to a node.  A link with an equivalent tree takes it in, merging the
predecessors in turn, so that alternatives below the top state survive.
-/
def addLink : Nat → Nat → TFSpecLink → SpecM Unit
  | 0, _, _ => Program.stop .stuck
  | fuel + 1, target, link => do
      if link.node = target then
        pure ()
      else
        unroll target
        let links ← asks (fun s => (s.node target).links)
        match ← findLink materialize link 0 links with
        | none => appendLink target link
        | some (index, existing) =>
            if existing.node = link.node then
              update (fun s => s.replaceTree target index existing link)
            else
              absorbWith (addLink fuel) existing.node link.node
              update (fun s => s.raisePrecedence target link)

/-- Add every link of `source` to `into`. -/
def absorb (fuel into source : Nat) : SpecM Unit :=
  absorbWith (addLink materialize fuel) into source

/-- Whether two heads can be merged. -/
def mergeable (self : TFSpec) (a b : Nat) : Bool :=
  !(self.head a).halted && !(self.head b).halted &&
    (self.node (self.head a).node).state ==
      (self.node (self.head b).node).state &&
    (self.node (self.head a).node).byte ==
      (self.node (self.head b).node).byte

/-- Merge head `b` into head `a` when their nodes agree. -/
def merge (fuel a b : Nat) : SpecM Bool := do
  if ← asks (fun s => s.mergeable a b) then
    absorb materialize fuel
      (← asks (fun s => (s.head a).node)) (← asks (fun s => (s.head b).node))
    removeHead b
    pure true
  else
    pure false

/-- Compare the pairs of subtrees on the scratch stack. -/
def preferShapes (fuel : Nat) (pairs : List (Nat × Nat)) : SpecM Bool :=
  Program.iterate .stuck
    (fun pairs =>
      match pairs with
      | [] => pure (.inr false)
      | (left, right) :: rest => do
          if left = right then
            pure (.inl rest)
          else
            let x ← asks (fun s => s.tree left)
            let y ← asks (fun s => s.tree right)
            if x.token.symbol ≠ y.token.symbol then
              pure (.inr (decide (y.token.symbol < x.token.symbol)))
            else
              if x.isOpaque || y.isOpaque then
                materialize
              let x ← asks (fun s => s.tree left)
              let y ← asks (fun s => s.tree right)
              if x.children.length ≠ y.children.length then
                pure (.inr
                  (decide (y.children.length < x.children.length)))
              else
                reserve .scratch
                  (2 * rest.length + 2 * x.children.length)
                pure (.inl (x.children.zip y.children ++ rest)))
    fuel pairs

/-- Whether tree `b` is strictly better than `a`; anything beats nothing. -/
def prefer (fuel : Nat) (a : Option Nat) (b : Nat) : SpecM Bool :=
  match a with
  | none => pure true
  | some a => do
      let x ← asks (fun s => s.tree a)
      let y ← asks (fun s => s.tree b)
      if x.precedence ≠ y.precedence then
        pure (decide (x.precedence < y.precedence))
      else
        reserve .scratch 2
        preferShapes materialize fuel [(a, b)]

end Shapes

/-- The tree of a reduction over a base node. -/
def parentTree
    (self : TFSpec)
    (symbol : TSSymbol)
    (production structural : Nat)
    (children : List Nat)
    (base : Nat) :
    TFSpecTree :=
  let at_ := self.node base
  let first := children.head?.map self.tree
  let last := children.getLast?.map self.tree
  {
    token := {
      symbol := symbol
      startByte := (first.map (·.token.startByte)).getD at_.byte
      endByte := (last.map (·.token.endByte)).getD at_.byte
      startPoint := (first.map (·.token.startPoint)).getD at_.point
      endPoint := (last.map (·.token.endPoint)).getD at_.point
    }
    paddingStart := (first.map (·.paddingStart)).getD at_.byte
    children := children
    productionId := production
    structuralCount := structural
    leaf := false
    extra := false
    inherited := false
    isOpaque := false
    precedence := (children.map (fun child => (self.tree child).precedence)).sum
  }

/-- Add the tree of a reduction. -/
def parent
    (symbol : TSSymbol)
    (production structural : Nat)
    (children : List Nat)
    (base : Nat) :
    SpecM Nat := do
  newTree (← asks (fun s =>
    s.parentTree symbol production structural children base))

/-! ## Popping -/

/-- Whether a pop is over at a node: the goal is met, or the stack ends. -/
def popEnds (self : TFSpec) (goal : Option Nat) (node count : Nat) : Bool :=
  match goal with
  | some goal => count = goal
  | none => (self.node node).links.isEmpty

/-- Take room for a slice of a popped path. -/
def reserveSlice (length slices : Nat) : SpecM Unit := do
  reserve .children ((← asks TFSpec.childCount) + length)
  reserve .slices slices
  update (fun s => { s with childCount := s.childCount + length })

/-- An iterator past one link. -/
def stepIterator
    (self : TFSpec)
    (current : TFSpecIterator)
    (link : TFSpecLink) :
    TFSpecIterator where
  node := link.node
  count := current.count + if (self.tree link.tree).extra then 0 else 1
  path := link.tree :: current.path

/--
Walk a chain without a fork, which yields one slice.  Answers whether the walk
reached its end without meeting one.
-/
def popChain (fuel version : Nat) (goal : Option Nat) : SpecM Bool := do
  Program.iterate .stuck
    (fun current => do
      if ← asks (fun s => s.popEnds goal current.node current.count) then
        reserveSlice current.path.length 1
        let head ← newHead current.node
        update (fun s => { s with slices := [⟨head, current.path⟩] })
        pure (.inr true)
      else
        if goal.isSome then
          unroll current.node
        match ← asks (fun s => (s.node current.node).links) with
        | [link] => pure (.inl (← asks (fun s => s.stepIterator current link)))
        | _ => pure (.inr false))
    fuel ⟨(← asks (fun s => s.head version)).node, 0, []⟩

/--
The slot behind the last slice that ended at a node, with that slice's
version.
-/
def sliceSlot (self : TFSpec) (node : Nat) : Option (Nat × Nat) :=
  match
      self.slices.reverse.findIdx?
        (fun slice => (self.head slice.version).node == node) with
  | some fromTop =>
      let slot := self.slices.length - fromTop
      some (slot, (self.slices.getD (slot - 1) default).version)
  | none => none

/-- Record a finished path; paths that end at one node share its head. -/
def addSlice (current : TFSpecIterator) : SpecM Unit := do
  reserveSlice current.path.length
    ((← asks (fun s => s.slices.length)) + 1)
  match ← asks (fun s => s.sliceSlot current.node) with
  | some (slot, version) =>
      update (fun s =>
        { s with
          slices := s.slices.insertIdx slot ⟨version, current.path⟩ })
  | none =>
      let version ← newHead current.node
      update (fun s =>
        { s with slices := s.slices ++ [⟨version, current.path⟩] })

/-- Move an iterator past a link. -/
def followLink
    (current : TFSpecIterator)
    (link : TFSpecLink) :
    SpecM TFSpecIterator := do
  reserve .edges ((← asks TFSpec.edgeCount) + 1)
  update (fun s => { s with edgeCount := s.edgeCount + 1 })
  asks (fun s => s.stepIterator current link)

/-- Fork an iterator over the further links of its node, within the limit. -/
def forkIterators
    (current : TFSpecIterator)
    (others : Nat) :
    List TFSpecLink → List TFSpecIterator → SpecM (List TFSpecIterator)
  | [], appended => pure appended
  | link :: rest, appended => do
      if others + appended.length = tfSpecIterators then
        update limit
        forkIterators current others rest appended
      else
        let forked ← followLink current link
        forkIterators current others rest (appended ++ [forked])

/--
One breadth-first round over the iterators `todo`.  An iterator at its end
leaves the array, another moves along its first link in place, and its further
links are appended behind the round.
-/
def popRound (goal : Option Nat) :
    List TFSpecIterator → List TFSpecIterator → List TFSpecIterator →
      SpecM (List TFSpecIterator)
  | [], done, appended => pure (done ++ appended)
  | current :: todo, done, appended => do
      if goal.isSome && goal != some current.count then
        unroll current.node
      let links ← asks (fun s => (s.node current.node).links)
      if ← asks (fun s => s.popEnds goal current.node current.count) then
        addSlice current
        popRound goal todo done appended
      else
        match links with
        | [] => popRound goal todo done appended
        | first :: further => do
            let appended ←
              forkIterators current (done.length + 1 + todo.length)
                further appended
            let moved ← followLink current first
            popRound goal todo (done ++ [moved]) appended

/-- Enumerate the paths from a node down to where the goal is met. -/
def popPaths (fuel version : Nat) (goal : Option Nat) : SpecM Unit := do
  Program.iterate .stuck
    (fun iterators =>
      match iterators with
      | [] => pure (.inr ())
      | _ => do pure (.inl (← popRound goal iterators [] [])))
    fuel [⟨(← asks (fun s => s.head version)).node, 0, []⟩]

/--
Pop `goal` children that are not extras, or the whole stack: one slice for
each path, and one new head for each node a path ends at.
-/
def pop (fuel version : Nat) (goal : Option Nat) : SpecM Unit := do
  update (fun s => { s with slices := [], edgeCount := 0 })
  if ← popChain fuel version goal then
    pure ()
  else
    popPaths fuel version goal

/-- The slices that share a head stand together; collect them. -/
def sliceGroups : List TFSpecSlice → List (Nat × List (List Nat))
  | [] => []
  | slice :: rest =>
      match sliceGroups rest with
      | (version, paths) :: groups =>
          if version = slice.version then
            (version, slice.children :: paths) :: groups
          else
            (slice.version, [slice.children]) :: (version, paths) :: groups
      | [] => [(slice.version, [slice.children])]

/-- The trees of a path without the extras at its end. -/
def trimExtras (self : TFSpec) (path : List Nat) : List Nat :=
  (path.reverse.dropWhile (fun tree => (self.tree tree).extra)).reverse

section Advance

variable (env : TFSpecEnv)

/-- Choose among the parents that paths to one base propose. -/
def selectParent
    (symbol : TSSymbol)
    (childCount productionId base : Nat) :
    List (List Nat) → Option (Nat × List Nat) →
      SpecM (Option (Nat × List Nat))
  | [], chosen => pure chosen
  | path :: rest, chosen => do
      let trimmed ← asks (fun s => s.trimExtras path)
      let candidate ← parent symbol productionId childCount trimmed base
      if ← prefer env.materialize env.fuel (chosen.map Prod.fst)
          candidate then
        selectParent symbol childCount productionId base rest
          (some (candidate, path.drop trimmed.length))
      else
        selectParent symbol childCount productionId base rest chosen

/-- Push the extras a reduction leaves on top, all in the new state. -/
def pushExtras (state : TSStateId) : List Nat → Nat → SpecM Nat
  | [], top => pure top
  | tree :: rest, top => do
      pushExtras state rest (← push top tree state)

/-- Merge a new head into the first head before it that takes it in. -/
def mergeBelow (version created : Nat) : List Nat → SpecM Bool
  | [] => pure false
  | other :: rest => do
      if other = version then
        mergeBelow version created rest
      else if ← merge env.materialize env.fuel other created then
        pure true
      else
        mergeBelow version created rest

/-- The reduction over the paths that end at one base. -/
def reduceGroup
    (version created : Nat)
    (symbol : TSSymbol)
    (childCount productionId : Nat)
    (dynamicPrecedence : Int)
    (paths : List (List Nat)) :
    SpecM Bool := do
  let base := (← asks (fun s => s.head created)).node
  match ← selectParent env symbol childCount productionId base paths none with
  | none => Program.stop .stuck
  | some (tree, trailing) =>
      update (fun s =>
        s.modifyTree tree (fun parent =>
          { parent with precedence := parent.precedence + dynamicPrecedence }))
      let next := env.lang.nextState (← asks (fun s => (s.node base).state)) symbol
      let top ← pushExtras next trailing (← push base tree next)
      update (fun s => s.modifyHead created (fun head => { head with node := top }))
      mergeBelow env version created (List.range created)

/-- The reduction over every group of slices, dropping late versions. -/
def reduceGroups
    (version halted : Nat)
    (symbol : TSSymbol)
    (childCount productionId : Nat)
    (dynamicPrecedence : Int) :
    List (Nat × List (List Nat)) → Nat → SpecM Unit
  | [], _ => pure ()
  | (slice, paths) :: rest, removed => do
      let created := slice - removed
      if tfSpecVersions + 4 + halted < created then
        removeHead created
        update limit
        reduceGroups version halted symbol childCount productionId
          dynamicPrecedence rest (removed + 1)
      else
        let merged ←
          reduceGroup env version created symbol childCount productionId
            dynamicPrecedence paths
        reduceGroups version halted symbol childCount productionId
          dynamicPrecedence rest (if merged then removed + 1 else removed)

/-- Reduce a head along every path; answers the first new head, if any is left. -/
def reduce
    (version : Nat)
    (childCount : Nat)
    (symbol : TSSymbol)
    (dynamicPrecedence : Int)
    (productionId : Nat) :
    SpecM (Option Nat) := do
  let initial ← asks (fun s => s.heads.length)
  let halted ← asks (fun s =>
    s.heads.countP (fun head => head.halted && !head.errored))
  pop env.fuel version (some childCount)
  let slices ← asks TFSpec.slices
  reduceGroups env version halted symbol childCount productionId
    dynamicPrecedence (sliceGroups slices) 0
  if initial < (← asks (fun s => s.heads.length)) then
    pure (some initial)
  else
    pure none

/-- Record a failure, unless one at least as far is known. -/
def recordError
    (self : TFSpec)
    (byte : Nat)
    (point : TFPoint)
    (state : TSStateId)
    (symbol : TSSymbol)
    (isLex : Bool) :
    TFSpec :=
  if self.hasError && byte ≤ self.errorByte then
    self
  else
    { self with
      hasError := true
      errorByte := byte
      errorPoint := point
      errorState := state
      errorSymbol := symbol
      errorIsLex := isLex }

/--
The first rule by which a cached token is reused at a node: the node's state
has an action for it and lexes like the state it was lexed in, and if it is the
word token, it was lexed as a word in that very state.
-/
def reusesByMode
    (self : TFSpec)
    (lang : TFLanguage)
    (node : TFSpecNode) :
    Bool :=
  let symbol := self.cached.symbol
  !(lang.actions node.state symbol).isEmpty &&
    lang.lexMode node.state == lang.lexMode self.cachedState &&
    (symbol != lang.ts.keywordCaptureToken ||
      (!self.cachedKeyword && self.cachedState == node.state))

/-- Whether the cached token is reused, by the first rule or the second. -/
def canReuse (self : TFSpec) (lang : TFLanguage) (node : TFSpecNode) : Bool :=
  let symbol := self.cached.symbol
  self.hasCache && self.cachedByte == node.byte &&
    (self.reusesByMode lang node ||
      ((decide (self.cached.startByte < self.cached.endByte) || symbol == 0) &&
        (lang.ts.parseActions (lang.lookup node.state symbol)).reusable))

/-- The token at a node and whether it is a keyword, from the cache or lexed. -/
def lex (node : Nat) : SpecM (Option (TFToken × Bool)) := do
  let at_ ← asks (fun s => s.node node)
  if ← asks (fun s => s.canReuse env.lang at_) then
    asks (fun s => some (s.cached, s.cachedKeyword))
  else
    let found ← Program.modifyGet (fun state =>
      let result := (state.lexer.seek at_.byte at_.point).next env.lang at_.state
      (result.1, { state with lexer := result.2 }))
    match found with
    | none =>
        Program.modify (fun state =>
          { state with
            spec :=
              state.spec.recordError state.lexer.byte state.lexer.point
                at_.state 0 true })
        pure none
    | some token =>
        Program.modifyGet (fun state =>
          let keyword := state.lexer.tokenIsKeyword
          (some (token, keyword),
            { state with
              spec := { state.spec with
                cached := token
                cachedByte := at_.byte
                cachedState := at_.state
                cachedKeyword := keyword
                hasCache := true } }))

/-- The place of the last tree of a path that is not an extra. -/
def lastStructural (self : TFSpec) (path : List Nat) : Option Nat :=
  match path.reverse.findIdx? (fun tree => !(self.tree tree).extra) with
  | some fromTop => some (path.length - 1 - fromTop)
  | none => none

/-- Rebuild the root of one whole stack and keep it if it is better. -/
def acceptPath (path : List Nat) : SpecM Unit := do
  match ← asks (fun s => s.lastStructural path) with
  | none => pure ()
  | some index =>
      if ← asks (fun s => (s.tree (path.getD index 0)).isOpaque) then
        env.materialize
      let root ← asks (fun s => s.tree (path.getD index 0))
      let children := path.take index ++ root.children ++ path.drop (index + 1)
      reserve .children ((← asks TFSpec.childCount) + children.length)
      update (fun s => { s with childCount := s.childCount + children.length })
      let candidate ←
        parent root.token.symbol root.productionId root.structuralCount
          children 0
      if ← prefer env.materialize env.fuel (← asks TFSpec.finished)
          candidate then
        update (fun s => { s with finished := some candidate })

/-- Accept at a head: the root absorbs everything below it and the end token. -/
def accept (version : Nat) (eof : TFToken) : SpecM Unit := do
  Program.forEach (fun _ => extend)
    (List.replicate (← asks TFSpec.prefixLeft) ())
  let top := (← asks (fun s => s.head version)).node
  let leaf ← newTree {
    token := eof
    paddingStart := ← asks (fun s => (s.node top).byte)
    children := []
    productionId := 0
    structuralCount := 0
    leaf := true
    extra := true
    inherited := false
    isOpaque := false
    precedence := 0
  }
  let end_ ← push top leaf startState
  update (fun s => s.modifyHead version (fun head => { head with node := end_ }))
  pop env.fuel version none
  let slices ← asks TFSpec.slices
  Program.forEach (fun slice => acceptPath env slice.children) slices
  match slices with
  | [] => pure ()
  | slice :: _ => removeHead slice.version
  update (fun s => s.modifyHead version (fun head => { head with halted := true }))

/-- Shift a token on a head. -/
def shift
    (version : Nat)
    (token : TFToken)
    (state : TSStateId)
    (extra : Bool) :
    SpecM Unit := do
  let top := (← asks (fun s => s.head version)).node
  let leaf ← newTree {
    token := token
    paddingStart := ← asks (fun s => (s.node top).byte)
    children := []
    productionId := 0
    structuralCount := 0
    leaf := true
    extra := extra
    inherited := false
    isOpaque := false
    precedence := 0
  }
  let node ← push top leaf state
  update (fun s => s.modifyHead version (fun head => { head with node := node }))

/-- What a pass over an entry's actions came to. -/
inductive Pass where
  /-- The head shifted or accepted. -/
  | over
  /-- Every action was tried: the last new head, and whether one reduced. -/
  | reduced (last : Option Nat) (any : Bool)
  deriving Repr, DecidableEq

/-- Take the actions of an entry in order, up to a shift or an accept. -/
def advanceActions
    (version : Nat)
    (state : TSStateId)
    (token : TFToken) :
    List TSParseAction → Option Nat → Bool → SpecM Pass
  | [], last, any => pure (.reduced last any)
  | .shift target extra _ :: _, _, _ => do
      shift version token (if extra then state else target) extra
      pure .over
  | .reduce childCount symbol dynamicPrecedence productionId :: rest,
      last, _ => do
      let created ←
        reduce env version childCount symbol dynamicPrecedence productionId
      advanceActions version state token rest (created.or last) true
  | .accept :: _, _, _ => do
      accept env version token
      pure .over
  | .recover :: rest, last, any =>
      advanceActions version state token rest last any

/-- Stop advancing a head. -/
def halt (version : Nat) (errored : Bool) : SpecM Unit :=
  update (fun s =>
    s.modifyHead version (fun head =>
      { head with
        halted := true
        errored := errored || head.errored }))

/-- Advance a head past one token, or halt it. -/
def advance (version : Nat) : SpecM Unit := do
  match ← lex env (← asks (fun s => s.head version)).node with
  | none => halt version true
  | some (token, keyword) =>
      Program.iterate .stuck
        (fun token => do
          let state ← asks (fun s => (s.node (s.head version).node).state)
          match ← advanceActions env version state token
              (env.lang.actions state token.symbol) none false with
          | .over => pure (.inr ())
          | .reduced (some last) _ =>
              update (fun s => s.modifyHead version (fun _ => s.head last))
              removeHead last
              pure (.inl token)
          | .reduced none true =>
              halt version false
              pure (.inr ())
          | .reduced none false =>
              match token.demoteKeyword env.lang state keyword with
              | some demoted => pure (.inl demoted)
              | none =>
                  update (fun s =>
                    s.recordError token.startByte token.startPoint state
                      token.symbol false)
                  halt version true
                  pure (.inr ()))
        env.fuel token

/-- Merge head `i` into one before it, or move it before those it outranks. -/
def condenseHead (precedence : Int) (i : Nat) : List Nat → SpecM Bool
  | [] => pure false
  | j :: rest => do
      let outranks ← asks (fun s =>
        decide ((s.node (s.head j).node).precedence < precedence))
      if ← merge env.materialize env.fuel j i then
        pure true
      else
        if outranks then
          update (fun s =>
            { s with heads := (s.heads.set i (s.head j)).set j (s.head i) })
        condenseHead precedence i rest

/-- Drop halted heads, merge equal ones, order the rest and cut them off. -/
def condense : SpecM Unit := do
  Program.iterate .stuck
    (fun i => do
      if (← asks (fun s => s.heads.length)) ≤ i then
        pure (.inr ())
      else if (← asks (fun s => s.head i)).halted then
        removeHead i
        pure (.inl i)
      else
        let precedence ← asks (fun s => (s.node (s.head i).node).precedence)
        if ← condenseHead env precedence i (List.range i) then
          pure (.inl i)
        else
          pure (.inl (i + 1)))
    env.fuel 0
  if tfSpecVersions < (← asks (fun s => s.heads.length)) then
    update (fun s => (s.limit : TFSpec))
    update (fun s => { s with heads := s.heads.take tfSpecVersions })

/-- Whether a single path leads down from a node. -/
def unique (fuel node : Nat) : SpecM Bool :=
  Program.iterate .stuck
    (fun node => do
      match ← asks (fun s => (s.node node).links) with
      | [] => pure (.inr true)
      | [link] => pure (.inl link.node)
      | _ => pure (.inr false))
    fuel node

/-- Advance one head until it passes the others or halts. -/
def advanceHead (version lastPosition : Nat) : SpecM Nat :=
  Program.iterate .stuck
    (fun lastPosition => do
      if (← asks (fun s => s.head version)).halted then
        pure (.inr lastPosition)
      else
        advance env version
        let position ← asks (fun s => (s.node (s.head version).node).byte)
        if lastPosition < position ||
            (0 < version && position = lastPosition) then
          pure (.inr position)
        else
          pure (.inl lastPosition))
    env.fuel lastPosition

/-- Advance every head, those the round creates included. -/
def advanceHeads (lastPosition : Nat) : SpecM Nat :=
  Program.iterate .stuck
    (fun current => do
      if (← asks (fun s => s.heads.length)) ≤ current.1 then
        pure (.inr current.2)
      else
        pure (.inl (current.1 + 1, ← advanceHead env current.1 current.2)))
    env.fuel (0, lastPosition)

/-- What exploring a conflict came to. -/
inductive Selection where
  /-- One head with one path: the trees of its stack and its node. -/
  | path (forest : List Nat) (top : Nat)
  /-- An accepted root; its last child is the end token. -/
  | accepted (root : Nat)
  /-- No alternative is left. -/
  | dead
  deriving Repr, DecidableEq

/-- Explore round by round until one alternative is left. -/
def rounds : SpecM Selection :=
  Program.iterate .stuck
    (fun lastPosition => do
      let lastPosition ← advanceHeads env lastPosition
      condense env
      match ← asks (fun s => (s.finished, s.heads)) with
      | (some root, []) => pure (.inr (.accepted root))
      | (none, []) => pure (.inr .dead)
      | (none, [head]) =>
          if ← unique env.fuel head.node then
            pop env.fuel 0 none
            match ← asks TFSpec.slices with
            | slice :: _ => pure (.inr (.path slice.children head.node))
            | [] => Program.stop .stuck
          else
            pure (.inl lastPosition)
      | _ => pure (.inl lastPosition))
    env.fuel 0

end Advance

/-- The graph a split starts from, with the capacities of the last one. -/
def begin
    (self : TFSpec)
    (owner : TFSpecOwner)
    (token : TFToken)
    (tokenLexState : TSStateId)
    (tokenIsKeyword : Bool) :
    TFSpec :=
  { self with
    trees := []
    nodes := []
    linkCount := 0
    heads := []
    childCount := 0
    failed := false
    hasError := false
    finished := none
    owner := owner
    forkByte := token.startByte
    materialized := false
    captured := false
    cached := token
    cachedState := tokenLexState
    cachedKeyword := tokenIsKeyword
    hasCache := true
    cachedByte := topByte owner.cells
    prefixTree := []
    prefixLeft := owner.cells.length
    frontier := 0 }

/-- The first node, which stands for the whole real stack. -/
def forkNode (owner : TFSpecOwner) : TFSpecNode where
  state := topState owner.cells
  byte := topByte owner.cells
  point := topPoint owner.cells
  precedence := 0
  links := []
  linkCapacity := 0

/-- Explore a conflict, from a graph that has just begun. -/
def explore (env : TFSpecEnv) : SpecM Selection := do
  reserve .nodes 1
  let top ← addNode (forkNode (← asks TFSpec.owner))
  let _ ← newHead top
  rounds env

end TFSpec

end TreeFeller
