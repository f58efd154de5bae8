import TreeFeller.StackRoots

namespace TreeFeller

open StatefulProgram

/-!
# Shifting and accepting in a graph of LR stacks

A shift pushes a leaf where the head stands.  Accepting pushes the end token on
a node that joins those set apart, and rebuilds the root of every whole stack;
the trees it adds are set apart as well.
-/

namespace TFSpec

open Program

/-- Recovering shapes by a replay that leaves the heads. -/
theorem headsOf_materializeWith
    {replay : List UInt8 → TFSpec → Heap → Option (TFResult TFSpec Nat)}
    (leaves :
      ∀ source spec heap result,
        replay source spec heap = some result →
          result.parser.payload.heads = spec.heads) :
    Keeps headsOf (materializeWith replay) := by
  unfold materializeWith
  refine Keeps.bind headsOf_asks (fun known => ?_)
  apply Keeps.ite Keeps.pure
  refine Keeps.bind (headsOf_update (fun _ => rfl)) (fun _ => ?_)
  intro before value after ran
  obtain ⟨state, read, asked, ran⟩ := bind_eq_ok.mp ran
  cases asked
  cases replayed :
      replay before.lexer.source before.spec before.heap with
  | none =>
      rw [replayed] at ran
      cases ran
  | some result =>
      rw [replayed] at ran
      have left := leaves _ _ _ _ replayed
      obtain ⟨_, stored, updated, ran⟩ := bind_eq_ok.mp ran
      have same : headsOf stored = headsOf before := by
        cases updated
        exact left
      split at ran
      · cases ran
      · cases ran
        exact same

/-- Recovering shapes leaves the heads. -/
theorem headsOf_materialize
    (lang : TFLanguage)
    (fuel : Nat) :
    Keeps headsOf (materialize lang fuel) := by
  cases fuel with
  | zero =>
      exact Keeps.stop
  | succ fuel =>
      refine headsOf_materializeWith ?_
      intro source spec heap result replayed
      have kept :
          (spec.nodes, spec.heads) = (spec.nodes, spec.heads) ∧
            0 ≤ spec.trees.length :=
        ⟨rfl, Nat.zero_le _⟩
      have left :=
        TFParser.payload_run (captureSink_grows (spec.nodes, spec.heads) 0)
          captureHook_grows replayed kept
      exact congrArg Prod.snd left.1

section Turns

variable {lang : TFLanguage}
variable {ends roots : Nat → Prop}

/-- Other trees may be set apart, while no head stands where none may. -/
theorem Stacked.reroot
    {more : Nat → Prop}
    {graph : TFSpec}
    (stacked : Stacked lang ends roots graph)
    (wider : ∀ tree < graph.trees.length, roots tree → more tree)
    (heads :
      ∀ head ∈ graph.heads, head.halted = false → ¬ ends head.node) :
    Stacked lang ends more graph where
  linked := stacked.linked
  isSealed := stacked.isSealed
  apart := stacked.apart
  fits := stacked.fits
  room := stacked.room
  tiled := fun tree reduced =>
    stacked.tiled tree
      ⟨reduced.within, reduced.inner, reduced.own, reduced.counts,
        fun isRoot => reduced.ordinary (wider tree reduced.within isRoot)⟩
  ended := stacked.ended
  closed := stacked.closed
  rooted := stacked.rooted
  heads := fun head member going isEnd =>
    absurd isEnd (heads head member going)
  unrolling := stacked.unrolling

/-- No head that goes on has fallen behind the owner's stack. -/
def Abreast (graph : TFSpec) : Prop :=
  ∀ head ∈ graph.heads, head.halted = false →
    topByte graph.owner.cells ≤ (graph.node head.node).byte

/-- A head that goes on has not. -/
theorem Abreast.head
    {graph : TFSpec}
    (abreast : Abreast graph)
    {version : Nat}
    (inRange : version < graph.heads.length)
    (going : (graph.head version).halted = false) :
    topByte graph.owner.cells ≤
      (graph.node (graph.head version).node).byte := by
  refine abreast _ ?_ going
  unfold TFSpec.head
  rw [List.getD_eq_getElem _ _ inRange]
  exact List.getElem_mem inRange

/-! ### Leaves -/

/-- A leaf that begins where a node stands. -/
def leafTree
    (token : TFToken)
    (paddingStart : Nat)
    (extra : Bool) :
    TFSpecTree where
  token := token
  paddingStart := paddingStart
  children := []
  productionId := 0
  structuralCount := 0
  leaf := true
  extra := extra
  inherited := false
  isOpaque := false
  precedence := 0

/-- Adding a leaf. -/
theorem Stacked.addLeaf
    {before : TFSpec}
    (stacked : Stacked lang ends roots before)
    (token : TFToken)
    (paddingStart : Nat)
    (extra : Bool) :
    Stays lang ends roots before
      { before with
        trees := before.trees ++
          [leafTree token paddingStart extra] } :=
  stacked.addTree rfl nofun

/-- The leaf is the last tree, and nothing else is new. -/
structure Leafed
    (token : TFToken)
    (paddingStart : Nat)
    (extra : Bool)
    (leaf : Nat)
    (before after : TFSpec) : Prop where
  within : leaf < after.trees.length
  isTree : after.tree leaf = leafTree token paddingStart extra
  nodes : after.nodes = before.nodes
  heads : after.heads = before.heads

/-- A token's leaf. -/
theorem newLeaf_stays
    {token : TFToken}
    {paddingStart leaf : Nat}
    {extra : Bool}
    {before after : TFSpecState}
    (stacked : Stacked lang ends roots before.spec)
    (ran :
      newTree (leafTree token paddingStart extra) before =
        .ok (leaf, after)) :
    Stays lang ends roots before.spec after.spec ∧
      Leafed token paddingStart extra leaf before.spec after.spec := by
  obtain ⟨capacity, heap, rfl, rfl⟩ := newTree_ran ran
  have grows := stacked.addLeaf token paddingStart extra
  refine ⟨Stays.trans (grows.stacked.beside ?_ rfl) grows.evolves, ?_, ?_,
    rfl, rfl⟩
  · exact ⟨rfl, rfl, rfl, rfl, rfl, rfl, rfl, rfl, rfl⟩
  · simp only [List.length_append, List.length_singleton]
    exact Nat.lt_succ_self _
  · rw [tree_append rfl, if_pos rfl]

/-- Moving a head to a node where it may stand. -/
theorem Stacked.moveHead
    {before : TFSpec}
    (stacked : Stacked lang ends roots before)
    (version : Nat)
    {node : Nat}
    (within : node < before.nodes.length)
    (ordinary : ends node → Rebuilding roots) :
    Stays lang ends roots before
      (before.modifyHead version (fun head =>
        { head with node := node })) := by
  refine stacked.aside ?_ ?_
  · exact ⟨rfl, rfl, rfl, rfl, rfl, rfl, rfl, rfl, rfl⟩
  · intro head member
    obtain ⟨place, inRange, rfl⟩ := List.mem_iff_getElem.mp member
    simp only [modifyHead, List.length_modify] at inRange
    simp only [modifyHead, List.getElem_modify]
    split
    · exact ⟨within, fun _ => ordinary⟩
    · exact stacked.ownHeads _ (List.getElem_mem inRange)

/-- Shifting moves the head past the token. -/
theorem shift_stays
    {version : Nat}
    {token : TFToken}
    {state : TSStateId}
    {extra : Bool}
    {before after : TFSpecState}
    (settled : ¬ Rebuilding roots)
    (stacked : Stacked lang ends roots before.spec)
    (abreast : Abreast before.spec)
    (inRange : version < before.spec.heads.length)
    (going : (before.spec.head version).halted = false)
    (isState :
      state =
        if extra then
          (before.spec.node (before.spec.head version).node).state
        else
          lang.nextState
            (before.spec.node (before.spec.head version).node).state
            token.symbol)
    (spans :
      (before.spec.node (before.spec.head version).node).byte <
        token.endByte)
    (ran :
      shift version token state extra before = .ok ((), after)) :
    Stays lang ends roots before.spec after.spec ∧ Abreast after.spec := by
  have beyond := abreast.head inRange going
  have topWithin := stacked.headWithin version
  have below := stacked.head settled going
  unfold shift at ran
  obtain ⟨head, _, asked, ran⟩ := Program.bind_eq_ok.mp ran
  simp only [asks, Program.gets_apply, Except.ok.injEq,
    Prod.mk.injEq] at asked
  obtain ⟨rfl, rfl⟩ := asked
  obtain ⟨paddingStart, _, asked, ran⟩ := Program.bind_eq_ok.mp ran
  simp only [asks, Program.gets_apply, Except.ok.injEq,
    Prod.mk.injEq] at asked
  obtain ⟨rfl, rfl⟩ := asked
  obtain ⟨leaf, grown, added, ran⟩ := Program.bind_eq_ok.mp ran
  obtain ⟨grownStays, leafed⟩ := newLeaf_stays stacked added
  obtain ⟨top, pushed, pushes, ran⟩ := Program.bind_eq_ok.mp ran
  have pushedHeads : pushed.spec.heads = grown.spec.heads :=
    headsOf_push _ _ _ _ _ _ pushes
  cases ran
  have node :
      ∀ index, grown.spec.node index = before.spec.node index := by
    intro index
    unfold TFSpec.node
    rw [leafed.nodes]
  have within := Nat.lt_of_lt_of_le topWithin grownStays.evolves.nodes
  obtain ⟨pushedStays, topped⟩ :=
    push_stays grownStays.stacked ⟨within, leafed.within, below⟩
      (by
        unfold stateOver
        dsimp only
        rw [leafed.isTree, node]
        exact isState)
      (by
        rw [leafed.isTree, node]
        rfl)
      (by
        rw [leafed.isTree, node]
        exact spans)
      (by
        refine .leaf leafed.within ?_ ?_ ?_ ?_ ?_ ?_ (.nil _)
        · rw [leafed.isTree, node]
          rfl
        · rw [leafed.isTree, node]
          exact spans
        · rw [leafed.isTree]
          rfl
        · rw [leafed.isTree]
          rfl
        · rw [leafed.isTree]
          rfl
        · rw [grownStays.evolves.owner, node]
          exact beyond)
      pushes
  have moved :=
    pushedStays.stacked.moveHead version topped.within
      (fun isEnd => absurd isEnd topped.ordinary)
  have evolves := pushedStays.evolves.trans grownStays.evolves
  refine ⟨moved.trans evolves, ?_⟩
  intro head member goes
  change topByte pushed.spec.owner.cells ≤ (pushed.spec.node head.node).byte
  rw [evolves.owner]
  obtain ⟨place, placeWithin, rfl⟩ := List.mem_iff_getElem.mp member
  simp only [modifyHead, List.length_modify] at placeWithin
  simp only [modifyHead, List.getElem_modify] at goes ⊢
  split at goes
  · rename_i here
    rw [if_pos here]
    dsimp only
    rw [topped.byte, leafed.isTree]
    change _ ≤ token.endByte
    omega
  · rename_i elsewhere
    rw [if_neg elsewhere]
    have known : pushed.spec.heads[place] ∈ before.spec.heads := by
      rw [← leafed.heads, ← pushedHeads]
      exact List.getElem_mem placeWithin
    rw [evolves.byte _ (stacked.linked.heads _ known)]
    exact abreast _ known goes

/-! ### Accepting -/

/-- Unrolling no more cells than are left. -/
theorem extends_stays
    {count : Nat}
    {before after : TFSpecState}
    (stacked : Stacked lang ends roots before.spec)
    (left : count ≤ before.spec.prefixLeft)
    (ran :
      Program.forEach (fun _ => extend) (List.replicate count ()) before =
        .ok ((), after)) :
    Stays lang ends roots before.spec after.spec ∧
      after.spec.heads = before.spec.heads := by
  induction count generalizing before with
  | zero =>
      cases ran
      exact ⟨.start stacked, rfl⟩
  | succ count inductionHypothesis =>
      rw [List.replicate_succ] at ran
      obtain ⟨_, unrolled, extends_, ran⟩ := Program.bind_eq_ok.mp ran
      have unrolls := extend_unrolls extends_
      have stays := extend_stays stacked (by omega) extends_
      obtain ⟨rest, heads⟩ :=
        inductionHypothesis stays.stacked
          (by
            rw [unrolls.prefixLeft]
            omega)
          ran
      exact ⟨rest.trans stays.evolves, heads.trans unrolls.heads⟩

/-- A pop of whole stacks adds one head at most. -/
theorem Strolling.lone
    {base graph : TFSpec}
    {origin : Nat}
    {goal : Option Nat}
    {heads : List TFSpecHead}
    {iterators : List TFSpecIterator}
    {nodes : List Nat}
    (strolling :
      Strolling lang ends roots base origin goal heads iterators graph)
    (sliced : Sliced heads nodes graph)
    (whole : goal = none) :
    nodes.length ≤ 1 := by
  have same : ∀ node ∈ nodes, node = base.frontier := by
    intro node member
    obtain ⟨place, inRange, rfl⟩ := List.mem_iff_getElem.mp member
    have known :=
      (sliced.versions (heads.length + place)).mpr
        ⟨Nat.le_add_right _ _, by omega⟩
    obtain ⟨slice, isSlice, isVersion⟩ := List.mem_map.mp known
    have entry : (nodes[place], slice.children) ∈ graph.slicePaths := by
      refine List.mem_map.mpr ⟨slice, isSlice, ?_⟩
      rw [isVersion, sliced.node inRange]
    exact (strolling.whole whole).2 _ entry
  cases isNodes : nodes with
  | nil =>
      exact Nat.zero_le _
  | cons first rest =>
      cases isRest : rest with
      | nil =>
          exact Nat.le_refl _
      | cons second others =>
          have distinct := sliced.distinct
          rw [isNodes, isRest] at same distinct
          have twice : first = second :=
            (same first (by simp)).trans (same second (by simp)).symm
          simp [twice] at distinct

/-- A pop from a node that is set apart yields whole stacks. -/
theorem Strolling.wholePath
    {base graph : TFSpec}
    {origin : Nat}
    {goal : Option Nat}
    {heads : List TFSpecHead}
    {iterators : List TFSpecIterator}
    {slice : TFSpecSlice}
    (strolling :
      Strolling lang ends roots base origin goal heads iterators graph)
    (isEnd : ends origin)
    (whole : goal = none)
    (isSlice : slice ∈ graph.slices) :
    Whole graph slice.children := by
  have isPath :
      ((graph.head slice.version).node, slice.children) ∈
        graph.slicePaths :=
    List.mem_map.mpr ⟨slice, isSlice, rfl⟩
  obtain ⟨strolls, _, ordinary⟩ := strolling.landed _ isPath
  obtain ⟨isFrontier, atBottom⟩ := strolling.whole whole
  have bottom := atBottom _ isPath
  have some_ : slice.children ≠ [] := by
    rcases strolls.place with ⟨here, _⟩ | ⟨_, some_⟩
    · rw [← here] at isEnd
      exact absurd isEnd ordinary
    · exact some_
  obtain ⟨last, row⟩ := strolls.front isEnd some_
  refine ⟨strolls.treesWithin, strolls.closed isEnd, ⟨_, last, ?_, row⟩⟩
  have unrolling := strolling.stays.stacked.unrolling
  have isNode : (graph.head slice.version).node = graph.frontier :=
    bottom.trans isFrontier.symm
  change (graph.node (graph.head slice.version).node).byte ≤ _
  rw [isNode, unrolling.byte]
  exact unrolling.stack.topByte_take_le _

/-- The end token's node is the last one, and is set apart. -/
theorem pushEnd_stays
    {previous tree node : Nat}
    {state : TSStateId}
    {before after : TFSpecState}
    (stacked : Stacked lang ends roots before.spec)
    (pushes : Pushes ends before.spec previous tree)
    (isExtra : (before.spec.tree tree).extra = true)
    (ran : push previous tree state before = .ok (node, after)) :
    node = before.spec.nodes.length ∧ node < after.spec.nodes.length ∧
      after.spec.heads = before.spec.heads ∧
        Stays lang (fun other => ends other ∨ other = node) roots
          before.spec after.spec := by
  obtain ⟨rfl, capacity, heap, rfl⟩ := push_ran ran
  have pushed :
      Stays lang (fun other => ends other ∨ other = before.spec.nodes.length)
        roots before.spec
        { before.spec with
          nodes := before.spec.nodes ++
            [before.spec.pushedNode previous tree state] } :=
    stacked.pushEnd pushes isExtra
  refine ⟨rfl, ?_, rfl,
    Stays.trans (pushed.stacked.beside ?_ rfl) pushed.evolves⟩
  · simp only [List.length_append, List.length_singleton]
    exact Nat.lt_succ_self _
  · exact ⟨rfl, rfl, rfl, rfl, rfl, rfl, rfl, rfl, rfl⟩

/-- The head that accepts is halted where it was moved to; no other is. -/
theorem heads_accepted
    {heads : List TFSpecHead}
    {version : Nat}
    (inRange : version < heads.length)
    (top : Nat) :
    ((heads.modify version (fun head =>
          { head with node := top })).modify version (fun head =>
        { head with halted := true })).getD version default =
      ⟨top, true, heads[version].errored⟩ ∧
    ∀ head ∈
      (heads.modify version (fun head =>
          { head with node := top })).modify version (fun head =>
        { head with halted := true }),
      head.halted = false → head ∈ heads := by
  obtain ⟨front, head, back, rfl, rfl⟩ :
      ∃ front head back,
        heads = front ++ head :: back ∧ front.length = version := by
    refine ⟨heads.take version, heads[version], heads.drop (version + 1),
      ?_, ?_⟩
    · simp
    · rw [List.length_take]
      omega
  rw [modify_append, modify_append]
  refine ⟨?_, ?_⟩
  · rw [List.getD_append_right _ _ _ _ (Nat.le_refl _)]
    simp
  · intro other member going
    simp only [List.mem_append, List.mem_cons] at member ⊢
    rcases member with old | rfl | old
    · exact Or.inl old
    · cases going
    · exact Or.inr (Or.inr old)

end Turns

section Accepting

variable {env : TFSpecEnv}
variable {ends roots : Nat → Prop}
variable {base : TFSpec}
variable
  (recovers :
    ∀ {ends roots : Nat → Prop} {before after : TFSpecState},
      Stacked env.lang ends roots before.spec →
        env.materialize before = .ok ((), after) →
          Stays env.lang ends roots before.spec after.spec)

include recovers

variable (materializes : Keeps headsOf env.materialize)
variable (observes : Keeps finishedOf env.materialize)

include materializes observes

/-- The nodes set apart once a head has accepted. -/
def endsAfter
    (ends : Nat → Prop)
    (version : Nat)
    (after : TFSpec)
    (node : Nat) : Prop :=
  ends node ∨ node = (after.head version).node

/-- The trees set apart once a head has accepted. -/
def rootsAfter
    (roots : Nat → Prop)
    (before after : TFSpec)
    (tree : Nat) : Prop :=
  roots tree ∨ before.trees.length ≤ tree ∧ tree < after.trees.length

/-- Accepting sets the head's node and the trees it adds apart. -/
theorem accept_stays
    {version : Nat}
    {eof : TFToken}
    {before after : TFSpecState}
    (settled : ¬ Rebuilding roots)
    (stacked : Stacked env.lang ends roots before.spec)
    (abreast : Abreast before.spec)
    (inRange : version < before.spec.heads.length)
    (going : (before.spec.head version).halted = false)
    (finished :
      ∀ root, before.spec.finished = some root → Finished before.spec root)
    (ran : accept env version eof before = .ok ((), after)) :
    Stays env.lang (endsAfter ends version after.spec)
        (rootsAfter roots before.spec after.spec) before.spec after.spec ∧
      Abreast after.spec ∧
      version < after.spec.heads.length ∧
      ∀ root, after.spec.finished = some root → Finished after.spec root := by
  have below := stacked.head settled going
  let rebuilt : Nat → Prop :=
    fun tree => roots tree ∨ before.spec.trees.length ≤ tree
  have rebuilding : Rebuilding rebuilt :=
    ⟨before.spec.trees.length, fun _ high => Or.inr high⟩
  have ordinary :
      ∀ head ∈ before.spec.heads, head.halted = false → ¬ ends head.node :=
    fun head member goes isEnd =>
      settled (stacked.heads head member goes isEnd)
  have stackedNow : Stacked env.lang ends rebuilt before.spec :=
    stacked.reroot (fun _ _ isRoot => Or.inl isRoot) ordinary
  unfold accept at ran
  obtain ⟨left, _, asked, ran⟩ := Program.bind_eq_ok.mp ran
  simp only [asks, Program.gets_apply, Except.ok.injEq,
    Prod.mk.injEq] at asked
  obtain ⟨rfl, rfl⟩ := asked
  obtain ⟨_, unrolled, extends_, ran⟩ := Program.bind_eq_ok.mp ran
  obtain ⟨unrolledStays, unrolledHeads⟩ :=
    extends_stays stackedNow (Nat.le_refl _) extends_
  obtain ⟨head, _, asked, ran⟩ := Program.bind_eq_ok.mp ran
  simp only [asks, Program.gets_apply, Except.ok.injEq,
    Prod.mk.injEq] at asked
  obtain ⟨rfl, rfl⟩ := asked
  obtain ⟨paddingStart, _, asked, ran⟩ := Program.bind_eq_ok.mp ran
  simp only [asks, Program.gets_apply, Except.ok.injEq,
    Prod.mk.injEq] at asked
  obtain ⟨rfl, rfl⟩ := asked
  have sameHead :
      unrolled.spec.head version = before.spec.head version := by
    unfold TFSpec.head
    rw [unrolledHeads]
  rw [sameHead] at ran
  obtain ⟨leaf, grown, added, ran⟩ := Program.bind_eq_ok.mp ran
  obtain ⟨grownStays, leafed⟩ := newLeaf_stays unrolledStays.stacked added
  have evolves := grownStays.evolves.trans unrolledStays.evolves
  have topWithin :=
    Nat.lt_of_lt_of_le (stacked.headWithin version) evolves.nodes
  obtain ⟨top, pushed, pushes, ran⟩ := Program.bind_eq_ok.mp ran
  obtain ⟨isTop, topWithinNow, pushedHeads, pushedStays⟩ :=
    pushEnd_stays grownStays.stacked ⟨topWithin, leafed.within, below⟩
      (congrArg TFSpecTree.extra leafed.isTree) pushes
  let apart : Nat → Prop := fun node => ends node ∨ node = top
  obtain ⟨_, moved, moves, ran⟩ := Program.bind_eq_ok.mp ran
  have movedStays :
      Stays env.lang apart rebuilt before.spec moved.spec := by
    cases moves
    have stays :=
      pushedStays.stacked.moveHead version topWithinNow
        (fun _ => rebuilding)
    exact stays.trans (pushedStays.evolves.trans evolves)
  have movedHeads :
      moved.spec.heads =
        before.spec.heads.modify version (fun head =>
          { head with node := top }) := by
    cases moves
    change pushed.spec.heads.modify version _ = _
    rw [pushedHeads, leafed.heads, unrolledHeads]
  obtain ⟨_, popped, pops, ran⟩ := Program.bind_eq_ok.mp ran
  have strolling := strolling_pop movedStays.stacked (Or.inr rfl) pops
  obtain ⟨nodes, sliced⟩ := strolling.sliced
  have lone := strolling.lone sliced rfl
  obtain ⟨slices, _, asked, ran⟩ := Program.bind_eq_ok.mp ran
  simp only [asks, Program.gets_apply, Except.ok.injEq,
    Prod.mk.injEq] at asked
  obtain ⟨rfl, rfl⟩ := asked
  obtain ⟨_, rebuiltState, rebuilds, ran⟩ := Program.bind_eq_ok.mp ran
  have poppedStays := strolling.stays.trans movedStays.evolves
  have sameFinished : popped.spec.finished = before.spec.finished := by
    have extended : finishedOf unrolled = finishedOf before :=
      Keeps.forEach (fun _ => keeps_extend) _ _ _ extends_
    have leafAdded : finishedOf grown = finishedOf unrolled :=
      keeps_newTree _ _ _ _ added
    have nodePushed : finishedOf pushed = finishedOf grown :=
      keeps_push _ _ _ _ _ _ pushes
    have headMoved : finishedOf moved = finishedOf pushed := by
      cases moves
      rfl
    have allPopped : finishedOf popped = finishedOf moved :=
      keeps_pop _ _ _ _ _ _ pops
    exact allPopped.trans (headMoved.trans
      (nodePushed.trans (leafAdded.trans extended)))
  have keepingPopped :
      Keeping env.lang apart rebuilt popped.spec popped.spec := by
    refine ⟨.start strolling.stays.stacked, ?_⟩
    intro root isRoot
    rw [sameFinished] at isRoot
    exact (finished root isRoot).evolves poppedStays.evolves
  have isOrigin : (moved.spec.head version).node = top := by
    unfold TFSpec.head
    rw [movedHeads, List.getD_eq_getElem _ _ (by simpa using inRange),
      List.getElem_modify, if_pos rfl]
  have keepingRebuilt :
      Keeping env.lang apart rebuilt popped.spec rebuiltState.spec := by
    have each :
        Maintains
          (fun state : TFSpecState =>
            Keeping env.lang apart rebuilt popped.spec state.spec)
          (Program.forEach (fun slice : TFSpecSlice =>
            acceptPath env slice.children) popped.spec.slices) := by
      refine Ensures.forEach ?_
      intro slice isSlice
      refine keeping_acceptPath recovers observes ?_
        (strolling.wholePath (Or.inr isOrigin) rfl isSlice)
      exact fun _ high =>
        Or.inr (Nat.le_trans poppedStays.evolves.trees high)
    exact each _ _ _ keepingPopped rebuilds
  have rebuiltStays :
      Stays env.lang apart rebuilt before.spec rebuiltState.spec :=
    keepingRebuilt.stays.trans poppedStays.evolves
  have rebuiltHeads :
      rebuiltState.spec.heads = moved.spec.heads ++ nodes.map waiting := by
    have kept : headsOf rebuiltState = headsOf popped :=
      Keeps.forEach (fun slice : TFSpecSlice =>
        headsOf_acceptPath materializes slice.children) _ _ _ rebuilds
    exact Eq.trans kept sliced.heads
  obtain ⟨removed, removedStays, removedHeads, removedFinished, ran⟩ :
      ∃ removed : TFSpecState,
        Stays env.lang apart rebuilt before.spec removed.spec ∧
          removed.spec.heads = moved.spec.heads ∧
          (∀ root, removed.spec.finished = some root →
            Finished removed.spec root) ∧
          update (fun s =>
              s.modifyHead version (fun head =>
                { head with halted := true })) removed =
            .ok ((), after) := by
    cases isSlices : popped.spec.slices with
    | nil =>
        have none_ : nodes = [] := by
          by_contra some_
          have positive := List.length_pos_of_ne_nil some_
          have member :=
            (sliced.versions moved.spec.heads.length).mpr
              ⟨Nat.le_refl _, by omega⟩
          rw [isSlices] at member
          cases member
        rw [isSlices] at ran
        rw [none_, List.map_nil, List.append_nil] at rebuiltHeads
        exact ⟨_, rebuiltStays, rebuiltHeads, keepingRebuilt.finished,
          ran⟩
    | cons slice rest =>
        rw [isSlices] at ran
        obtain ⟨behind, ahead⟩ :=
          (sliced.versions slice.version).mp (by
            rw [isSlices]
            exact List.mem_cons_self ..)
        have here : slice.version = moved.spec.heads.length := by omega
        have single : (nodes.map waiting).length = 1 := by
          rw [List.length_map]
          omega
        obtain ⟨_, removed, removes, ran⟩ := Program.bind_eq_ok.mp ran
        refine ⟨removed, stays_removeHead _ _ _ _ rebuiltStays removes,
          ?_, ?_, ran⟩
        rotate_left
        · cases removes
          exact fun root isRoot =>
            (keepingRebuilt.finished root isRoot).evolves
              (.of_same rfl rfl rfl)
        cases removes
        change rebuiltState.spec.heads.eraseIdx _ = _
        obtain ⟨only, isOnly⟩ := List.length_eq_one_iff.mp single
        rw [rebuiltHeads, isOnly, here,
          List.eraseIdx_append_of_length_le (Nat.le_refl _), Nat.sub_self,
          List.eraseIdx_cons_zero, List.append_nil]
  cases ran
  rw [movedHeads] at removedHeads
  obtain ⟨isHead, others⟩ := heads_accepted inRange top
  let after :=
    removed.spec.modifyHead version (fun head =>
      { head with halted := true })
  have here : (after.head version).node = top := by
    unfold TFSpec.head after modifyHead
    dsimp only
    rw [removedHeads, isHead]
  have sameEnds : endsAfter ends version after = apart := by
    funext node
    unfold endsAfter
    rw [here]
  have ordinaryNow :
      ∀ head ∈ after.heads, head.halted = false → ¬ apart head.node := by
    intro head member goes
    have isHead := others head
    unfold after modifyHead at member
    dsimp only at member
    rw [removedHeads] at member
    have old := others head member goes
    rintro (isEnd | isTopNode)
    · exact ordinary head old goes isEnd
    · have within := stacked.linked.heads head old
      have grownNodes := evolves.nodes
      omega
  have halted :
      Stays env.lang apart rebuilt before.spec after := by
    refine Stays.trans (removedStays.stacked.aside ?_ ?_)
      removedStays.evolves
    · exact ⟨rfl, rfl, rfl, rfl, rfl, rfl, rfl, rfl, rfl⟩
    · intro head member
      refine ⟨?_, fun goes isEnd =>
        absurd isEnd (ordinaryNow head member goes)⟩
      obtain ⟨place, inRange, rfl⟩ := List.mem_iff_getElem.mp member
      simp only [after, modifyHead, List.length_modify] at inRange
      have known :=
        removedStays.stacked.linked.heads _ (List.getElem_mem inRange)
      simp only [after, modifyHead, List.getElem_modify]
      split
      · exact known
      · exact known
  refine ⟨⟨?_, halted.evolves⟩, ?_, ?_, ?_⟩
  · rw [sameEnds]
    refine halted.stacked.reroot ?_ ordinaryNow
    intro tree within isRoot
    exact isRoot.imp_right (fun high => ⟨high, within⟩)
  · intro head member goes
    change head ∈ after.heads at member
    unfold after modifyHead at member
    dsimp only at member
    rw [removedHeads] at member
    have old := others head member goes
    change topByte after.owner.cells ≤ (after.node head.node).byte
    rw [halted.evolves.owner,
      halted.evolves.byte _ (stacked.linked.heads head old)]
    exact abreast head old goes
  · simp only [modifyHead, removedHeads, List.length_modify]
    exact inRange
  · exact fun root isRoot =>
      (removedFinished root isRoot).evolves (.of_same rfl rfl rfl)

end Accepting

end TFSpec

end TreeFeller
