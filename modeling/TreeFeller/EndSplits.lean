import TreeFeller.EndTrees
import TreeFeller.StackRuns

/-!
# The end token through a split

The graph a split keeps has links to trees of its own, so the paths it pops,
the parents it builds over them and the root it accepts are of these trees as
well.
-/

namespace TreeFeller

open StatefulProgram

namespace TFSpec

open Program

/-- A graph that links to its own trees, with no end token but as an extra. -/
structure Tidy (state : TFSpecState) : Prop where
  roomy : Roomy 0 0 state
  apart : state.spec.Apart 0 (fun root => state.spec.finished = some root)

/-- A program that keeps the links, the trees and the root kept so far. -/
theorem tidy_of {α : Type}
    {program : SpecM α}
    (rooms : Maintains (Roomy 0 0) program)
    (edits :
      ∀ roots,
        Maintains (fun state : TFSpecState => state.spec.Apart 0 roots)
          program)
    (keeps : Keeps finishedOf program) :
    Maintains Tidy program := by
  intro before value after tidy ran
  have same : after.spec.finished = before.spec.finished :=
    keeps _ _ _ ran
  refine ⟨rooms _ _ _ tidy.roomy ran, ?_⟩
  rw [same]
  exact edits _ _ _ _ tidy.apart ran

/-- What is read of a tidy graph. -/
theorem tidy_asks {α : Type}
    {project : TFSpec → α} :
    Maintains Tidy (asks project) := by
  intro before value after tidy ran
  cases ran
  exact tidy

section Heads

/-- Putting heads of a tidy graph in other places, or others in theirs. -/
theorem Tidy.reheaded
    {before : TFSpecState}
    (tidy : Tidy before)
    {heads : List TFSpecHead}
    (known : ∀ head ∈ heads, head.node < before.spec.nodes.length) :
    Tidy { before with spec := { before.spec with heads := heads } } where
  roomy := tidy.roomy.of_same rfl (Nat.le_refl _) known
  apart := tidy.apart.beside rfl rfl (Nat.le_refl _)

/-- Changing a head where it stands, or for one at a node of the graph. -/
theorem Tidy.modifyHead
    {before : TFSpecState}
    (tidy : Tidy before)
    (version : Nat)
    {change : TFSpecHead → TFSpecHead}
    (known :
      ∀ head ∈ before.spec.heads,
        (change head).node < before.spec.nodes.length) :
    Tidy
      { before with spec := before.spec.modifyHead version change } := by
  refine tidy.reheaded ?_
  intro head member
  obtain ⟨place, inRange, rfl⟩ := List.mem_iff_getElem.mp member
  rw [List.length_modify] at inRange
  rw [List.getElem_modify]
  split
  · exact known _ (List.getElem_mem inRange)
  · exact tidy.roomy.linked.heads _ (List.getElem_mem inRange)

/-- Removing a head. -/
theorem tidy_removeHead
    (version : Nat) :
    Maintains Tidy (removeHead version) := by
  intro before value after tidy ran
  cases ran
  exact tidy.reheaded
    (fun head member =>
      tidy.roomy.linked.heads head (List.mem_of_mem_eraseIdx member))

/-- Halting a head. -/
theorem tidy_halt
    (version : Nat)
    (errored : Bool) :
    Maintains Tidy (halt version errored) := by
  intro before value after tidy ran
  cases ran
  exact tidy.modifyHead version
    (fun head member => tidy.roomy.linked.heads head member)

end Heads

section Splitting

variable {env : TFSpecEnv}
variable
  (rooms :
    ∀ {nodes trees}, Maintains (Roomy nodes trees) env.materialize)
variable
  (recovers :
    ∀ {count roots},
      Maintains (fun state : TFSpecState => state.spec.Apart count roots)
        env.materialize)
variable (keeps : Keeps finishedOf env.materialize)

/-- Lexing. -/
theorem tidy_lex
    (node : Nat) :
    Maintains Tidy (lex env node) :=
  tidy_of (rooms_lex node) (fun _ => edits_lex (steady_apart _ _) node)
    (finished_lex env node)

/-- Popping leaves slices of trees of the graph. -/
theorem tidy_pop
    (fuel version : Nat)
    (goal : Option Nat) :
    Ensures Tidy (pop fuel version goal)
      (fun _ state =>
        Tidy state ∧
          ∀ slice ∈ state.spec.slices, ∀ tree ∈ slice.children,
            tree < state.spec.trees.length) := by
  intro before value after tidy ran
  have paved := paved_pop tidy.roomy ran
  have same : finishedOf after = finishedOf before :=
    keeps_pop _ _ _ _ _ _ ran
  change after.spec.finished = before.spec.finished at same
  refine ⟨⟨paved.roomy, ?_⟩, paved.slices⟩
  rw [same]
  exact edits_pop (steady_apart _ _) _ _ _ _ _ _ tidy.apart ran

/-- Shifting a token that is no end token, or as an extra. -/
theorem tidy_shift
    (version : Nat)
    {token : TFToken}
    {extra : Bool}
    (ends : token.symbol = tsBuiltinSymEnd → extra = true)
    (state : TSStateId) :
    Maintains Tidy (shift version token state extra) := by
  refine tidy_of (rooms_shift _ _ _ _) (fun roots => ?_)
    (keeps_shift _ _ _ _)
  unfold shift
  refine Maintains.bind edits_asks (fun head => ?_)
  refine Maintains.bind edits_asks (fun byte => ?_)
  refine Maintains.bind
    (apart_newTree
      ⟨fun isEnd => ⟨ends isEnd, Or.inl rfl⟩, List.forall_mem_nil _⟩)
    (fun leaf => ?_)
  refine Maintains.bind (edits_push (steady_apart _ _) _ _ _)
    (fun node => ?_)
  exact edits_update (steady_apart _ _)
    (fun _ => ⟨rfl, rfl, rfl, rfl, rfl, rfl, rfl, rfl, rfl⟩)

include rooms recovers keeps

/-- Merging. -/
theorem tidy_merge
    (fuel a b : Nat) :
    Maintains Tidy (merge env.materialize fuel a b) :=
  tidy_of (rooms_merge rooms fuel a b)
    (fun _ => edits_merge (steady_apart _ _) recovers fuel a b)
    (keeps_merge keeps fuel a b)

/-- Reducing by a production that is no end token. -/
theorem tidy_reduce
    (version childCount : Nat)
    {symbol : TSSymbol}
    (other : symbol ≠ tsBuiltinSymEnd)
    (dynamicPrecedence : Int)
    (productionId : Nat) :
    Maintains Tidy
      (reduce env version childCount symbol dynamicPrecedence
        productionId) := by
  intro before value after tidy ran
  have roomy := rooms_reduce rooms _ _ _ _ _ _ _ _ tidy.roomy ran
  have same : after.spec.finished = before.spec.finished :=
    keeps_reduce keeps _ _ _ _ _ _ _ _ ran
  refine ⟨roomy, ?_⟩
  rw [same]
  unfold reduce at ran
  obtain ⟨initial, _, asked, ran⟩ := Program.bind_eq_ok.mp ran
  simp only [asks, Program.gets_apply, Except.ok.injEq,
    Prod.mk.injEq] at asked
  obtain ⟨_, rfl⟩ := asked
  obtain ⟨halted, _, asked, ran⟩ := Program.bind_eq_ok.mp ran
  simp only [asks, Program.gets_apply, Except.ok.injEq,
    Prod.mk.injEq] at asked
  obtain ⟨_, rfl⟩ := asked
  obtain ⟨_, popped, pops, ran⟩ := Program.bind_eq_ok.mp ran
  have paved := paved_pop tidy.roomy pops
  have apartPopped :=
    edits_pop (steady_apart _ _) _ _ _ _ _ _ tidy.apart pops
  obtain ⟨slices, _, asked, ran⟩ := Program.bind_eq_ok.mp ran
  simp only [asks, Program.gets_apply, Except.ok.injEq,
    Prod.mk.injEq] at asked
  obtain ⟨rfl, rfl⟩ := asked
  obtain ⟨_, reduced, reduces, ran⟩ := Program.bind_eq_ok.mp ran
  have known :
      ∀ group ∈ sliceGroups popped.spec.slices, ∀ path ∈ group.2,
        ∀ tree ∈ path, tree < popped.spec.trees.length := by
    intro group isGroup path isPath
    obtain ⟨slice, member, rfl⟩ := sliceGroups_children isGroup isPath
    exact paved.slices slice member
  have apartReduced :=
    apart_reduceGroups recovers other known _ _ _ _
      (apartPopped.only (Nat.le_refl _) (fun _ isRoot => isRoot)) reduces
  have kept :=
    apartReduced.only (Nat.zero_le _) (fun _ isRoot => isRoot)
  obtain ⟨left, _, asked, ran⟩ := Program.bind_eq_ok.mp ran
  simp only [asks, Program.gets_apply, Except.ok.injEq,
    Prod.mk.injEq] at asked
  obtain ⟨_, rfl⟩ := asked
  split at ran
  · cases ran
    exact kept
  · cases ran
    exact kept

omit rooms in
/-- The root that is rebuilt has the name of the tree it was. -/
theorem apart_rebuildRoot
    {bound index : Nat}
    {path : List Nat}
    (known : ∀ tree ∈ path, tree < bound)
    {before after : TFSpecState}
    (apart :
      before.spec.Apart bound
        (fun root =>
          before.spec.finished = some root ∨ root = path.getD index 0))
    (ran : rebuildRoot env path index before = .ok ((), after)) :
    after.spec.Apart 0
      (fun root => after.spec.finished = some root) := by
  have other := (apart.roots _ (Or.inr rfl)).2
  have childrenKnown :
      ∀ child ∈
        path.take index ++
            (before.spec.tree (path.getD index 0)).children ++
          path.drop (index + 1),
        child < before.spec.trees.length := by
    intro child member
    rcases List.mem_append.mp member with front | behind
    · rcases List.mem_append.mp front with below | inside
      · exact Nat.lt_of_lt_of_le (known _ (List.mem_of_mem_take below))
          apart.size
      · exact apart.children _ child inside
    · exact Nat.lt_of_lt_of_le (known _ (List.mem_of_mem_drop behind))
        apart.size
  unfold rebuildRoot at ran
  obtain ⟨root, _, asked, ran⟩ := Program.bind_eq_ok.mp ran
  simp only [asks, Program.gets_apply, Except.ok.injEq,
    Prod.mk.injEq] at asked
  obtain ⟨rfl, rfl⟩ := asked
  obtain ⟨used, _, asked, ran⟩ := Program.bind_eq_ok.mp ran
  simp only [asks, Program.gets_apply, Except.ok.injEq,
    Prod.mk.injEq] at asked
  obtain ⟨_, rfl⟩ := asked
  obtain ⟨_, reserved, room, ran⟩ := Program.bind_eq_ok.mp ran
  obtain ⟨capacity, heap, rfl⟩ := reserve_eq_ok room
  obtain ⟨_, counted, counts, ran⟩ := Program.bind_eq_ok.mp ran
  have ready :
      counted.spec.Apart before.spec.trees.length
          (fun root => before.spec.finished = some root) ∧
        counted.spec.finished = before.spec.finished := by
    cases counts
    exact ⟨(apart.only (Nat.le_refl _) (fun _ isRoot => Or.inl isRoot)).beside
      rfl rfl (Nat.le_refl _), rfl⟩
  obtain ⟨candidate, added, adds, ran⟩ := Program.bind_eq_ok.mp ran
  have apartAdded :=
    apart_parent other _ _ childrenKnown _ _ _ _ ready.1 adds
  have sameAdded : finishedOf added = finishedOf counted :=
    keeps_parent _ _ _ _ _ _ _ _ adds
  obtain ⟨finished, _, asked, ran⟩ := Program.bind_eq_ok.mp ran
  simp only [asks, Program.gets_apply, Except.ok.injEq,
    Prod.mk.injEq] at asked
  obtain ⟨rfl, rfl⟩ := asked
  obtain ⟨better, compared, compares, ran⟩ := Program.bind_eq_ok.mp ran
  have apartCompared :=
    edits_prefer (steady_apart _ _) recovers _ _ _ _ _ _ apartAdded compares
  have sameCompared : finishedOf compared = finishedOf added :=
    keeps_prefer keeps _ _ _ _ _ _ compares
  have same : compared.spec.finished = before.spec.finished :=
    sameCompared.trans (sameAdded.trans ready.2)
  split at ran
  · cases ran
    have kept :
        compared.spec.Apart 0 (fun root => some candidate = some root) :=
      apartCompared.only (Nat.zero_le _)
        (fun root isRoot => Or.inr (Option.some.inj isRoot).symm)
    exact kept.beside rfl rfl (Nat.le_refl _)
  · cases ran
    rw [same]
    exact apartCompared.only (Nat.zero_le _)
      (fun root isRoot => Or.inl isRoot)

/-- Rebuilding a root takes its name from a tree of the path. -/
theorem tidy_acceptPath
    {bound : Nat}
    {path : List Nat}
    (known : ∀ tree ∈ path, tree < bound) :
    Maintains
      (fun state => Tidy state ∧ bound ≤ state.spec.trees.length)
      (acceptPath env path) := by
  intro before value after both ran
  obtain ⟨tidy, more⟩ := both
  have exactRooms := tidy.roomy.exact
  have roomy := rooms_acceptPath rooms path _ _ _ exactRooms ran
  refine ⟨⟨roomy.weaken (Nat.zero_le _) (Nat.zero_le _), ?_⟩,
    Nat.le_trans more roomy.trees⟩
  rw [acceptPath_eq] at ran
  obtain ⟨found, _, asked, ran⟩ := Program.bind_eq_ok.mp ran
  simp only [asks, Program.gets_apply, Except.ok.injEq,
    Prod.mk.injEq] at asked
  obtain ⟨isFound, rfl⟩ := asked
  cases found with
  | none =>
      cases ran
      exact tidy.apart
  | some index =>
      obtain ⟨inRange, plain⟩ := lastStructural_spec isFound
      have isTree : path.getD index 0 < before.spec.trees.length := by
        rw [List.getD_eq_getElem _ _ inRange]
        exact Nat.lt_of_lt_of_le (known _ (List.getElem_mem inRange)) more
      have other :
          (before.spec.tree (path.getD index 0)).token.symbol ≠
            tsBuiltinSymEnd := by
        intro isEnd
        have isExtra :=
          ((tidy.apart.trees _ isTree).ends isEnd).1
        rw [plain] at isExtra
        cases isExtra
      -- the tree keeps its name while its shape is recovered
      have named :
          before.spec.Apart before.spec.trees.length
            (fun root =>
              before.spec.finished = some root ∨
                root = path.getD index 0) := by
        refine ⟨Nat.le_refl _, tidy.apart.trees, ?_, tidy.apart.cells,
          tidy.apart.left⟩
        rintro root (isRoot | rfl)
        · exact tidy.apart.roots root isRoot
        · exact ⟨isTree, other⟩
      have pathKnown : ∀ tree ∈ path, tree < before.spec.trees.length :=
        fun tree member => Nat.lt_of_lt_of_le (known tree member) more
      obtain ⟨isOpaque, _, asked, ran⟩ := Program.bind_eq_ok.mp ran
      simp only [asks, Program.gets_apply, Except.ok.injEq,
        Prod.mk.injEq] at asked
      obtain ⟨_, rfl⟩ := asked
      split at ran
      · obtain ⟨_, shown, materialized, ran⟩ := Program.bind_eq_ok.mp ran
        have same : finishedOf shown = finishedOf before :=
          keeps _ _ _ materialized
        change shown.spec.finished = before.spec.finished at same
        have apartShown := recovers _ _ _ named materialized
        rw [← same] at apartShown
        exact apart_rebuildRoot recovers keeps pathKnown apartShown ran
      · exact apart_rebuildRoot recovers keeps pathKnown named ran

omit rooms recovers keeps in
/-- Unrolling all the cells that are left. -/
theorem tidy_extends
    {count : Nat}
    {before after : TFSpecState}
    (tidy : Tidy before)
    (left : before.spec.prefixLeft = count)
    (ran :
      Program.forEach (fun _ => extend) (List.replicate count ()) before =
        .ok ((), after)) :
    Tidy after := by
  induction count generalizing before with
  | zero =>
      cases ran
      exact tidy
  | succ count inductionHypothesis =>
      rw [List.replicate_succ] at ran
      obtain ⟨_, extended, extends_, ran⟩ := Program.bind_eq_ok.mp ran
      have roomy := rooms_extend _ _ _ tidy.roomy extends_
      have same : finishedOf extended = finishedOf before :=
        keeps_extend _ _ _ extends_
      change extended.spec.finished = before.spec.finished at same
      have apart :=
        edits_extend_left (steady_apart _ _) (by omega) tidy.apart extends_
      have fewer := (extend_unrolls extends_).prefixLeft
      refine inductionHypothesis ⟨roomy, ?_⟩ (by omega) ran
      rw [same]
      exact apart

/-- Accepting adds the end token as an extra, and roots over it. -/
theorem tidy_accept
    (version : Nat)
    (token : TFToken) :
    Maintains Tidy (accept env version token) := by
  intro before value after tidy ran
  unfold accept at ran
  obtain ⟨left, _, asked, ran⟩ := Program.bind_eq_ok.mp ran
  simp only [asks, Program.gets_apply, Except.ok.injEq,
    Prod.mk.injEq] at asked
  obtain ⟨isLeft, rfl⟩ := asked
  obtain ⟨_, unrolled, unrolls, ran⟩ := Program.bind_eq_ok.mp ran
  have tidyUnrolled := tidy_extends tidy isLeft unrolls
  obtain ⟨head, _, asked, ran⟩ := Program.bind_eq_ok.mp ran
  simp only [asks, Program.gets_apply, Except.ok.injEq,
    Prod.mk.injEq] at asked
  obtain ⟨rfl, rfl⟩ := asked
  obtain ⟨byte, _, asked, ran⟩ := Program.bind_eq_ok.mp ran
  simp only [asks, Program.gets_apply, Except.ok.injEq,
    Prod.mk.injEq] at asked
  obtain ⟨_, rfl⟩ := asked
  obtain ⟨leaf, added, adds, ran⟩ := Program.bind_eq_ok.mp ran
  have roomyLeaf := rooms_newTree _ _ _ _ tidyUnrolled.roomy.exact adds
  have apartLeaf :
      added.spec.Apart 0
        (fun root => unrolled.spec.finished = some root) := by
    refine apart_newTree ?_ _ _ _ tidyUnrolled.apart adds
    exact ⟨fun _ => ⟨rfl, Or.inl rfl⟩, List.forall_mem_nil _⟩
  have sameLeaf : finishedOf added = finishedOf unrolled :=
    keeps_newTree _ _ _ _ adds
  obtain ⟨node, pushed, pushes, ran⟩ := Program.bind_eq_ok.mp ran
  have roomyNode :=
    rooms_push startState (tidyUnrolled.roomy.head version) (by omega)
      _ _ _ roomyLeaf pushes
  have apartNode :=
    edits_push (steady_apart _ _) _ _ _ _ _ _ apartLeaf pushes
  have sameNode : finishedOf pushed = finishedOf added :=
    keeps_push _ _ _ _ _ _ pushes
  have same : pushed.spec.finished = unrolled.spec.finished :=
    sameNode.trans sameLeaf
  have tidyPushed : Tidy pushed := by
    refine ⟨roomyNode.weaken (Nat.zero_le _) (Nat.zero_le _), ?_⟩
    rw [same]
    exact apartNode
  obtain ⟨_, moved, moves, ran⟩ := Program.bind_eq_ok.mp ran
  have tidyMoved : Tidy moved := by
    cases moves
    have nodeKnown := roomyNode.nodes
    exact tidyPushed.modifyHead version
      (fun _ _ => show node < pushed.spec.nodes.length by omega)
  obtain ⟨_, popped, pops, ran⟩ := Program.bind_eq_ok.mp ran
  obtain ⟨tidyPopped, known⟩ := tidy_pop _ _ _ _ _ _ tidyMoved pops
  obtain ⟨slices, _, asked, ran⟩ := Program.bind_eq_ok.mp ran
  simp only [asks, Program.gets_apply, Except.ok.injEq,
    Prod.mk.injEq] at asked
  obtain ⟨rfl, rfl⟩ := asked
  obtain ⟨_, accepted, accepts, ran⟩ := Program.bind_eq_ok.mp ran
  have paths :
      Maintains
        (fun state =>
          Tidy state ∧
            popped.spec.trees.length ≤ state.spec.trees.length)
        (Program.forEach (fun slice => acceptPath env slice.children)
          popped.spec.slices) :=
    Ensures.forEach (fun slice member =>
      tidy_acceptPath rooms recovers keeps (known slice member))
  obtain ⟨tidyAccepted, _⟩ :=
    paths _ _ _ ⟨tidyPopped, Nat.le_refl _⟩ accepts
  cases isSlices : popped.spec.slices with
  | nil =>
      simp only [isSlices] at ran
      cases ran
      exact tidyAccepted.modifyHead version
        (fun head member => tidyAccepted.roomy.linked.heads head member)
  | cons slice rest =>
      simp only [isSlices] at ran
      obtain ⟨_, dropped, drops, ran⟩ := Program.bind_eq_ok.mp ran
      have tidyDropped := tidy_removeHead _ _ _ _ tidyAccepted drops
      cases ran
      exact tidyDropped.modifyHead version
        (fun head member => tidyDropped.roomy.linked.heads head member)

end Splitting

/-! ## Advancing heads, round by round -/

section Advancing

variable {env : TFSpecEnv}
variable (reserves : env.lang.ReservesEnd)
variable
  (rooms :
    ∀ {nodes trees}, Maintains (Roomy nodes trees) env.materialize)
variable
  (recovers :
    ∀ {count roots},
      Maintains (fun state : TFSpecState => state.spec.Apart count roots)
        env.materialize)
variable (keeps : Keeps finishedOf env.materialize)

include reserves rooms recovers keeps

/-- Taking the actions for a token. -/
theorem tidy_advanceActions
    {version : Nat}
    {state : TSStateId}
    {token : TFToken}
    {actions : List TSParseAction}
    (known :
      ∀ action ∈ actions, action ∈ env.lang.actions state token.symbol)
    (last : Option Nat)
    (any : Bool) :
    Maintains Tidy
      (advanceActions env version state token actions last any) := by
  induction actions generalizing last any with
  | nil =>
      exact Maintains.pure
  | cons action rest inductionHypothesis =>
      have restKnown :
          ∀ action ∈ rest, action ∈ env.lang.actions state token.symbol :=
        fun action member => known action (List.mem_cons_of_mem _ member)
      have acts := known action List.mem_cons_self
      cases action with
      | shift target extra repetition =>
          have ends : token.symbol = tsBuiltinSymEnd → extra = true := by
            intro isEnd
            rw [isEnd] at acts
            exact absurd acts (reserves.shifts _ _ _ _)
          exact Maintains.bind (tidy_shift version ends _)
            (fun _ => Maintains.pure)
      | reduce childCount symbol dynamicPrecedence productionId =>
          have other : symbol ≠ tsBuiltinSymEnd := by
            intro isEnd
            rw [isEnd] at acts
            exact reserves.reduces _ _ _ _ _ acts
          exact Maintains.bind
            (tidy_reduce rooms recovers keeps version childCount other
              dynamicPrecedence productionId)
            (fun created => inductionHypothesis restKnown _ _)
      | accept =>
          exact Maintains.bind (tidy_accept rooms recovers keeps _ _)
            (fun _ => Maintains.pure)
      | recover =>
          exact inductionHypothesis restKnown _ _

/-- Advancing a head past one token. -/
theorem tidy_advance
    (version : Nat) :
    Maintains Tidy (advance env version) := by
  unfold advance
  refine Maintains.bind tidy_asks (fun head => ?_)
  refine Maintains.bind (tidy_lex _) (fun found => ?_)
  cases found with
  | none =>
      exact tidy_halt _ _
  | some found =>
      obtain ⟨token, keyword⟩ := found
      refine Maintains.iterate (fun token => ?_) _ _
      refine Maintains.bind tidy_asks (fun state => ?_)
      refine Maintains.bind
        (tidy_advanceActions reserves rooms recovers keeps
          (fun _ known => known) _ _)
        (fun pass => ?_)
      cases pass with
      | «over» =>
          exact Maintains.pure
      | reduced last any =>
          cases last with
          | some last =>
              refine Maintains.bind ?_ (fun _ => ?_)
              · intro before value after tidy ran
                cases ran
                exact tidy.modifyHead version
                  (fun _ _ => tidy.roomy.head last)
              · exact Maintains.bind (tidy_removeHead _)
                  (fun _ => Maintains.pure)
          | none =>
              cases any with
              | true =>
                  exact Maintains.bind (tidy_halt _ _)
                    (fun _ => Maintains.pure)
              | false =>
                  dsimp only
                  split
                  · exact Maintains.pure
                  · refine Maintains.bind ?_ (fun _ => ?_)
                    · refine tidy_of ?_ (fun _ => ?_) ?_
                      · refine rooms_update ?_ ?_ ?_
                        all_goals
                          intro spec
                          unfold recordError
                          split <;> rfl
                      · exact edits_update (steady_apart _ _)
                          (fun spec => sameGraph_recordError spec _ _ _ _ _)
                      · exact Keeps.modify
                          (fun _ => finished_recordError _ _ _ _ _ _)
                    · exact Maintains.bind (tidy_halt _ _)
                        (fun _ => Maintains.pure)

/-- Advancing a head until it passes the others. -/
theorem tidy_advanceHead
    (version lastPosition : Nat) :
    Maintains Tidy (advanceHead env version lastPosition) := by
  unfold advanceHead
  refine Maintains.iterate (fun lastPosition => ?_) _ _
  refine Maintains.bind tidy_asks (fun head => ?_)
  refine Maintains.ite Maintains.pure ?_
  refine Maintains.bind (tidy_advance reserves rooms recovers keeps _)
    (fun _ => ?_)
  refine Maintains.bind tidy_asks (fun position => ?_)
  exact Maintains.ite Maintains.pure Maintains.pure

/-- Advancing every head. -/
theorem tidy_advanceHeads
    (lastPosition : Nat) :
    Maintains Tidy (advanceHeads env lastPosition) := by
  unfold advanceHeads
  refine Maintains.iterate (fun current => ?_) _ _
  refine Maintains.bind tidy_asks (fun count => ?_)
  refine Maintains.ite Maintains.pure ?_
  exact Maintains.bind
    (tidy_advanceHead reserves rooms recovers keeps _ _)
    (fun _ => Maintains.pure)

omit reserves in
/-- Condensing one head. -/
theorem tidy_condenseHead
    (precedence : Int)
    (i : Nat)
    (others : List Nat) :
    Maintains Tidy (condenseHead env precedence i others) := by
  induction others with
  | nil =>
      exact Maintains.pure
  | cons j rest inductionHypothesis =>
      unfold condenseHead
      refine Maintains.bind tidy_asks (fun outranks => ?_)
      refine Maintains.bind (tidy_merge rooms recovers keeps _ _ _)
        (fun merged => ?_)
      refine Maintains.ite Maintains.pure ?_
      refine Maintains.ite ?_ inductionHypothesis
      refine Maintains.bind ?_ (fun _ => inductionHypothesis)
      intro before value after tidy ran
      cases ran
      refine tidy.reheaded ?_
      intro head member
      rcases List.mem_or_eq_of_mem_set member with within | rfl
      · rcases List.mem_or_eq_of_mem_set within with old | rfl
        · exact tidy.roomy.linked.heads head old
        · exact tidy.roomy.head j
      · exact tidy.roomy.head i

omit reserves in
/-- Condensing the heads. -/
theorem tidy_condense : Maintains Tidy (condense env) := by
  unfold condense
  refine Maintains.bind ?_ (fun _ => ?_)
  · refine Maintains.iterate (fun i => ?_) _ _
    refine Maintains.bind tidy_asks (fun count => ?_)
    refine Maintains.ite Maintains.pure ?_
    refine Maintains.bind tidy_asks (fun head => ?_)
    refine Maintains.ite ?_ ?_
    · exact Maintains.bind (tidy_removeHead _) (fun _ => Maintains.pure)
    · refine Maintains.bind tidy_asks (fun precedence => ?_)
      refine Maintains.bind (tidy_condenseHead rooms recovers keeps _ _ _)
        (fun merged => ?_)
      exact Maintains.ite Maintains.pure Maintains.pure
  · refine Maintains.bind tidy_asks (fun count => ?_)
    refine Maintains.ite ?_ Maintains.pure
    refine Maintains.bind ?_ (fun _ => ?_)
    · intro before value after tidy ran
      cases ran
      exact ⟨tidy.roomy.of_same rfl (Nat.le_refl _)
          tidy.roomy.linked.heads,
        tidy.apart.beside rfl rfl (Nat.le_refl _)⟩
    · intro before value after tidy ran
      cases ran
      exact tidy.reheaded
        (fun head member =>
          tidy.roomy.linked.heads head (List.mem_of_mem_take member))

omit reserves rooms recovers keeps in
/-- Looking whether a single path leads down. -/
theorem tidy_unique
    (fuel node : Nat) :
    Maintains Tidy (unique fuel node) := by
  unfold unique
  refine Maintains.iterate (fun node => ?_) _ _
  refine Maintains.bind tidy_asks (fun links => ?_)
  split <;> exact Maintains.pure

/-- What a split comes to is made of trees of its graph. -/
def Selection.Within (selection : Selection) (graph : TFSpec) : Prop :=
  match selection with
  | .path forest _ => ∀ tree ∈ forest, tree < graph.trees.length
  | .accepted root => graph.finished = some root
  | .dead => True

/-- The rounds of a split. -/
theorem tidy_rounds :
    Ensures Tidy (rounds env)
      (fun selection state => Tidy state ∧ selection.Within state.spec) := by
  let Rounding : Nat → TFSpecState → Prop := fun _ => Tidy
  change Ensures (Rounding 0) (rounds env) _
  unfold rounds
  refine Ensures.iterate ?_ env.fuel 0
  intro lastPosition before outcome after tidy ran
  obtain ⟨position, advanced, advances, ran⟩ := Program.bind_eq_ok.mp ran
  have tidyAdvanced :=
    tidy_advanceHeads reserves rooms recovers keeps _ _ _ _ tidy advances
  obtain ⟨_, condensed, condenses, ran⟩ := Program.bind_eq_ok.mp ran
  have kept := tidy_condense rooms recovers keeps _ _ _ tidyAdvanced condenses
  obtain ⟨left, _, asked, ran⟩ := Program.bind_eq_ok.mp ran
  simp only [asks, Program.gets_apply, Except.ok.injEq,
    Prod.mk.injEq] at asked
  obtain ⟨isLeft, rfl⟩ := asked
  obtain ⟨finished, heads⟩ := left
  obtain ⟨isFinished, _⟩ := Prod.mk.inj isLeft
  cases finished with
  | some root =>
      cases heads with
      | nil =>
          cases ran
          exact ⟨kept, isFinished⟩
      | cons head rest =>
          cases ran
          exact kept
  | none =>
      cases heads with
      | nil =>
          cases ran
          exact ⟨kept, trivial⟩
      | cons head rest =>
          cases rest with
          | cons next others =>
              cases ran
              exact kept
          | nil =>
              obtain ⟨isUnique, asked_, uniques, ran⟩ :=
                Program.bind_eq_ok.mp ran
              have keptUnique := tidy_unique _ _ _ _ _ kept uniques
              split at ran
              · obtain ⟨_, popped, pops, ran⟩ := Program.bind_eq_ok.mp ran
                obtain ⟨keptPopped, known⟩ :=
                  tidy_pop _ _ _ _ _ _ keptUnique pops
                obtain ⟨slices, _, asked, ran⟩ :=
                  Program.bind_eq_ok.mp ran
                simp only [asks, Program.gets_apply, Except.ok.injEq,
                  Prod.mk.injEq] at asked
                obtain ⟨isSlices, rfl⟩ := asked
                cases slices with
                | nil =>
                    cases ran
                | cons slice others =>
                    cases ran
                    refine ⟨keptPopped, known slice ?_⟩
                    rw [isSlices]
                    exact List.mem_cons_self
              · cases ran
                exact keptUnique

/-- Exploring a conflict, over a stack that ends as extras only. -/
theorem tidy_explore
    {self : TFSpec}
    {owner : TFSpecOwner}
    (cells : ∀ cell ∈ owner.cells, cell.node.EndsAsExtra)
    {token : TFToken}
    {lexState : TSStateId}
    {keyword : Bool}
    {lexer : TFLexer}
    {heap : Heap}
    {after : TFSpecState}
    {selection : Selection}
    (ran :
      explore env
          ⟨self.begin owner token lexState keyword, lexer, heap⟩ =
        .ok (selection, after)) :
    Tidy after ∧ selection.Within after.spec := by
  unfold explore at ran
  obtain ⟨_, reserved, room, ran⟩ := Program.bind_eq_ok.mp ran
  obtain ⟨_, _, asked, ran⟩ := Program.bind_eq_ok.mp ran
  simp only [asks, Program.gets_apply, Except.ok.injEq,
    Prod.mk.injEq] at asked
  obtain ⟨rfl, rfl⟩ := asked
  obtain ⟨top, added, adds, ran⟩ := Program.bind_eq_ok.mp ran
  obtain ⟨version, begun, begins, ran⟩ := Program.bind_eq_ok.mp ran
  have reached : Reached env.lang env.fuel begun :=
    .begun room adds begins
  have roomy : Roomy 0 0 begun := reached.roomy
  refine tidy_rounds reserves rooms recovers keeps _ _ _ ⟨roomy, ?_⟩ ran
  have first :
      Apart 0 (fun _ => False) (self.begin owner token lexState keyword) :=
    ⟨Nat.zero_le _, fun _ within => absurd within (Nat.not_lt_zero _),
      fun _ isRoot => isRoot.elim, cells, Nat.le_refl _⟩
  have none_ : begun.spec.finished = none := by
    have sameReserved : finishedOf reserved = none :=
      keeps_reserve _ _ _ _ _ room
    have sameAdded : finishedOf added = finishedOf reserved :=
      keeps_addNode _ _ _ _ adds
    have sameBegun : finishedOf begun = finishedOf added :=
      keeps_newHead _ _ _ _ begins
    exact sameBegun.trans (sameAdded.trans sameReserved)
  have apartReserved :=
    edits_reserve (steady_apart _ _) _ _ _ _ _ first room
  have apartAdded : added.spec.Apart 0 (fun _ => False) := by
    unfold addNode at adds
    obtain ⟨count, _, asked, adds⟩ := Program.bind_eq_ok.mp adds
    cases asked
    obtain ⟨_, _, places, adds⟩ := Program.bind_eq_ok.mp adds
    cases places
    cases adds
    exact apartReserved.beside rfl rfl (Nat.le_refl _)
  refine (edits_newHead (steady_apart _ _) _ _ _ _ apartAdded
    begins).only (Nat.zero_le _) ?_
  intro root isRoot
  rw [none_] at isRoot
  cases isRoot

end Advancing

end TFSpec

end TreeFeller
