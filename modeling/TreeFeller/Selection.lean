import TreeFeller.Shapes
import TreeFeller.Library.FirstMaximum

namespace TreeFeller

open StatefulProgram FirstMaximum

/-!
# Selecting among alternatives

Comparing two trees answers whether the second has the greater rank, so the
comparison is a strict weak order.  Of the parents that the paths of one
reduction propose, and of the roots that whole stacks propose, the first one of
greatest rank is kept.
-/

namespace TFSpec

/-! ## The comparison as a relation -/

/-- Some run of the comparison of two trees answers so. -/
def Answers (spec : TFSpec) (a b : Nat) (answer : Bool) : Prop :=
  ∃ materialize fuel capacity lexer heap final,
    prefer materialize fuel (some a) b
        ⟨spec.withCapacity capacity, lexer, heap⟩ =
      .ok (answer, final)

/-- The second tree is strictly better than the first. -/
def Better (spec : TFSpec) (a b : Nat) : Prop :=
  Answers spec a b true

/-- Every run that answers says whether the rank is greater. -/
theorem answer_of_prefer
    {materialize : SpecM Unit}
    {spec : TFSpec}
    {a b : Nat}
    {keys keys' : List ShapeKey}
    (reads : Reads spec [a] keys)
    (reads' : Reads spec [b] keys')
    {fuel : Nat}
    {state final : TFSpecState}
    (graph : ∃ capacity, state.spec = spec.withCapacity capacity)
    {answer : Bool}
    (ran :
      prefer materialize fuel (some a) b state = .ok (answer, final)) :
    answer = decide (spec.rank a < spec.rank b) ∧
      ∃ capacity heap, final = reserved state capacity heap := by
  have compared :=
    prefer_compared materialize reads reads' fuel state graph
  rw [ran] at compared
  cases compared with
  | answered capacity heap =>
      exact ⟨rfl, capacity, heap, rfl⟩

/-- The comparison of two trees that can be read answers one way. -/
theorem answers_iff
    {spec : TFSpec}
    {a b : Nat}
    {keys keys' : List ShapeKey}
    (reads : Reads spec [a] keys)
    (reads' : Reads spec [b] keys')
    {answer : Bool} :
    Answers spec a b answer ↔
      answer = decide (spec.rank a < spec.rank b) := by
  constructor
  · rintro ⟨materialize, fuel, capacity, lexer, heap, final, ran⟩
    exact (answer_of_prefer reads reads' ⟨capacity, rfl⟩ ran).1
  · rintro rfl
    let state : TFSpecState :=
      ⟨spec.withCapacity (fun _ => 2 * keys.length), .init [] 0,
        .reliable⟩
    have compared :=
      prefer_compared (Program.stop .stuck) reads reads'
        (keys.length + 1) state ⟨_, rfl⟩
    generalize ran :
      prefer (Program.stop .stuck) (keys.length + 1) (some a) b state =
        result at compared
    cases compared with
    | answered capacity heap =>
        exact ⟨_, _, _, _, _, _, ran⟩
    | full short =>
        simp only [state, withCapacity] at short
        omega
    | exhausted short =>
        omega

/-- Trees that are added leave ranks as they are. -/
theorem rank_extend
    {spec other : TFSpec}
    (more : spec.trees <+: other.trees)
    {id : Nat}
    {keys : List ShapeKey}
    (reads : Reads spec [id] keys) :
    other.rank id = spec.rank id := by
  have same : other.tree id = spec.tree id := by
    cases reads with
    | tree inside known later =>
        obtain ⟨added, whole⟩ := more
        unfold TFSpec.tree
        rw [List.getD_eq_getElem?_getD, List.getD_eq_getElem?_getD,
          ← whole, List.getElem?_append_left inside]
  unfold rank
  rw [same, reads.preorder_eq, (reads.extend more).preorder_eq]

/-- Only the trees matter to ranks. -/
theorem rank_of_trees
    {spec other : TFSpec}
    (same : other.trees = spec.trees) :
    other.rank = spec.rank := by
  have tree : ∀ id, other.tree id = spec.tree id := by
    intro id
    unfold TFSpec.tree
    rw [same]
  have reads : Reads other = Reads spec := by
    funext forest keys
    refine propext ⟨fun read => read.extend ?_, fun read => read.extend ?_⟩
    · exact same ▸ List.prefix_refl _
    · exact same ▸ List.prefix_refl _
  have sequence : other.preorder = spec.preorder := by
    funext forest
    by_cases readable : ∃ keys, Reads spec forest keys
    · obtain ⟨keys, read⟩ := readable
      rw [read.preorder_eq]
      rw [← reads] at read
      exact read.preorder_eq
    · unfold preorder
      rw [reads, dif_neg readable]
  funext id
  unfold rank
  rw [sequence, tree]

/-- The comparison reads the arena's own trees only: others do not matter. -/
theorem answers_extend
    {spec other : TFSpec}
    (more : spec.trees <+: other.trees)
    {a b : Nat}
    {keys keys' : List ShapeKey}
    (reads : Reads spec [a] keys)
    (reads' : Reads spec [b] keys')
    {answer : Bool} :
    Answers other a b answer ↔ Answers spec a b answer := by
  rw [answers_iff reads reads',
    answers_iff (reads.extend more) (reads'.extend more),
    rank_extend more reads, rank_extend more reads']

/-- Two trees of equal rank agree on precedence and preorder sequence. -/
theorem rank_eq_iff
    {spec : TFSpec}
    {a b : Nat} :
    spec.rank a = spec.rank b ↔
      (spec.tree a).precedence = (spec.tree b).precedence ∧
        spec.preorder [a] = spec.preorder [b] := by
  simp [rank, rankOf]

/-! ## Growing the arena -/

/-- A graph that grew by trees only. -/
structure Grown (before after : TFSpec) : Prop where
  trees : before.trees <+: after.trees
  nodes : after.nodes = before.nodes

namespace Grown

variable {first second third : TFSpec}

/-- Nothing grew. -/
theorem refl (spec : TFSpec) : Grown spec spec :=
  ⟨List.prefix_refl _, rfl⟩

/-- Growing twice. -/
theorem trans
    (before : Grown first second)
    (after : Grown second third) :
    Grown first third :=
  ⟨before.trees.trans after.trees, after.nodes.trans before.nodes⟩

/-- The trees there were stay. -/
theorem tree
    (grown : Grown first second)
    {id : Nat}
    (inside : id < first.trees.length) :
    second.tree id = first.tree id := by
  obtain ⟨added, whole⟩ := grown.trees
  unfold TFSpec.tree
  rw [List.getD_eq_getElem?_getD, List.getD_eq_getElem?_getD, ← whole,
    List.getElem?_append_left inside]

/-- The nodes stay. -/
theorem node (grown : Grown first second) (index : Nat) :
    second.node index = first.node index := by
  unfold TFSpec.node
  rw [grown.nodes]

/-- A path's extras stay extras. -/
theorem trimExtras
    (grown : Grown first second)
    {path : List Nat}
    (inside : ∀ id ∈ path, id < first.trees.length) :
    second.trimExtras path = first.trimExtras path := by
  unfold TFSpec.trimExtras
  congr 1
  have same :
      ∀ id ∈ path.reverse,
        (second.tree id).extra = (first.tree id).extra := by
    intro id member
    rw [grown.tree (inside id (List.mem_reverse.mp member))]
  generalize path.reverse = reversed at same
  induction reversed with
  | nil =>
      rfl
  | cons id rest inductionHypothesis =>
      have later :=
        inductionHypothesis (fun other member => same other (by simp [member]))
      simp only [List.dropWhile_cons, same id (by simp), later]

/-- The tree a path proposes stays. -/
theorem parentTree
    (grown : Grown first second)
    (symbol : TSSymbol)
    (production structural : Nat)
    {children : List Nat}
    (inside : ∀ id ∈ children, id < first.trees.length)
    (base : Nat) :
    second.parentTree symbol production structural children base =
      first.parentTree symbol production structural children base := by
  have trees :
      ∀ id ∈ children, second.tree id = first.tree id :=
    fun id member => grown.tree (inside id member)
  have head :
      children.head?.map second.tree = children.head?.map first.tree := by
    cases children with
    | nil =>
        rfl
    | cons id rest =>
        simp [trees id (by simp)]
  have last :
      children.getLast?.map second.tree =
        children.getLast?.map first.tree := by
    cases found : children.getLast? with
    | none =>
        rfl
    | some id =>
        simp [trees id (List.mem_of_getLast? found)]
  have sum :
      (children.map (fun child => (second.tree child).precedence)).sum =
        (children.map (fun child => (first.tree child).precedence)).sum := by
    congr 1
    exact List.map_congr_left (fun id member => by rw [trees id member])
  simp only [TFSpec.parentTree, head, last, sum, grown.node]

end Grown

/-- The graph with one more tree. -/
def withTree (spec : TFSpec) (tree : TFSpecTree) : TFSpec :=
  { spec with trees := spec.trees ++ [tree] }

/-- Adding a tree grows a graph. -/
theorem grown_withTree (spec : TFSpec) (tree : TFSpecTree) :
    Grown spec (spec.withTree tree) :=
  ⟨List.prefix_append _ _, rfl⟩

/-- The tree that was added. -/
theorem tree_withTree (spec : TFSpec) (tree : TFSpecTree) :
    (spec.withTree tree).tree spec.trees.length = tree := by
  simp [withTree, TFSpec.tree]

/-- A tree over known ones keeps the arena known. -/
theorem KnownArena.withTree
    {spec : TFSpec}
    (arena : KnownArena spec)
    {tree : TFSpecTree}
    (inside : ∀ child ∈ tree.children, child < spec.trees.length)
    (known : tree.isOpaque = false) :
    KnownArena (spec.withTree tree) := by
  have grown := grown_withTree spec tree
  have length : (spec.withTree tree).trees.length = spec.trees.length + 1 := by
    simp [TFSpec.withTree]
  have cases_ :
      ∀ id, id < spec.trees.length ∨ id = spec.trees.length ∨
        (spec.withTree tree).tree id = default := by
    intro id
    rcases Nat.lt_trichotomy id spec.trees.length with low | here | high
    · exact Or.inl low
    · exact Or.inr (Or.inl here)
    · refine Or.inr (Or.inr ?_)
      unfold TFSpec.tree
      rw [List.getD_eq_getElem?_getD, List.getElem?_eq_none (by omega)]
      rfl
  have old :
      ∀ id, id < spec.trees.length →
        Acc (fun child parent =>
          child ∈ ((spec.withTree tree).tree parent).children) id := by
    intro id
    induction id using arena.wellFounded.induction with
    | _ id inductionHypothesis =>
        intro low
        refine Acc.intro _ (fun child member => ?_)
        rw [grown.tree low] at member
        exact inductionHypothesis child member
          (arena.inside id low child member)
  refine ⟨?_, ?_, ⟨?_⟩⟩
  · intro id within child member
    rw [length] at within ⊢
    rcases cases_ id with low | here | beyond
    · rw [grown.tree low] at member
      exact Nat.lt_succ_of_lt (arena.inside id low child member)
    · rw [here, tree_withTree] at member
      exact Nat.lt_succ_of_lt (inside child member)
    · rw [beyond] at member
      cases member
  · intro id within
    rcases cases_ id with low | here | beyond
    · rw [grown.tree low]
      exact arena.known id low
    · rw [here, tree_withTree]
      exact known
    · rw [beyond]
      rfl
  · intro id
    rcases cases_ id with low | here | beyond
    · exact old id low
    · refine Acc.intro _ (fun child member => ?_)
      rw [here, tree_withTree] at member
      exact old child (inside child member)
    · refine Acc.intro _ (fun child member => ?_)
      rw [beyond] at member
      cases member

/-- Only the trees matter to an arena. -/
theorem KnownArena.of_trees
    {spec other : TFSpec}
    (arena : KnownArena spec)
    (same : other.trees = spec.trees) :
    KnownArena other := by
  have tree : ∀ id, other.tree id = spec.tree id := by
    intro id
    unfold TFSpec.tree
    rw [same]
  refine ⟨?_, ?_, ?_⟩
  · simpa only [tree, same] using arena.inside
  · simpa only [tree, same] using arena.known
  · simpa only [tree] using arena.wellFounded

/-- Adding a tree adds it behind the others. -/
theorem newTree_eq_ok
    {tree : TFSpecTree}
    {before after : TFSpecState}
    {id : Nat}
    (added : newTree tree before = .ok (id, after)) :
    id = before.spec.trees.length ∧
      ∃ capacity heap,
        after =
          reserved { before with spec := before.spec.withTree tree }
            capacity heap := by
  unfold newTree at added
  obtain ⟨count, middle, asked, added⟩ := Program.bind_eq_ok.mp added
  cases asked
  split at added
  · cases added
  · obtain ⟨_, middle, made, added⟩ := Program.bind_eq_ok.mp added
    obtain ⟨capacity, heap, rfl⟩ := reserve_eq_ok made
    obtain ⟨_, middle, updated, added⟩ := Program.bind_eq_ok.mp added
    cases updated
    cases added
    exact ⟨rfl, capacity, heap, rfl⟩

/-! ## Keeping the better candidate -/

/-- The rank of a parent over some children, before it is added. -/
noncomputable def parentRank
    (spec : TFSpec)
    (symbol : TSSymbol)
    (children : List Nat) :
    Rank :=
  rankOf (children.map (fun child => (spec.tree child).precedence)).sum
    (toLex (symbol, children.length) :: spec.preorder children)

/-- A candidate has the rank of its symbol and children. -/
theorem rank_of_parent
    {spec : TFSpec}
    (arena : KnownArena spec)
    {id : Nat}
    (within : id < spec.trees.length)
    {symbol : TSSymbol}
    {production structural base : Nat}
    {children : List Nat}
    (parent :
      spec.tree id =
        spec.parentTree symbol production structural children base) :
    spec.rank id = spec.parentRank symbol children := by
  have childrenEq : (spec.tree id).children = children := by
    rw [parent]
    rfl
  have inside : ∀ child ∈ children, child < spec.trees.length := by
    rw [← childrenEq]
    exact arena.inside id within
  obtain ⟨keys, reads⟩ := arena.reads inside
  have below : Reads spec ((spec.tree id).children ++ []) keys := by
    rw [childrenEq, List.append_nil]
    exact reads
  have whole : Reads spec [id] ((spec.tree id).shapeKey :: keys) :=
    .tree within (arena.known id within) below
  unfold rank parentRank
  rw [whole.preorder_eq, reads.preorder_eq, parent]
  rfl

/-- Adding trees leaves the rank of a parent over older ones. -/
theorem parentRank_grown
    {before after : TFSpec}
    (arena : KnownArena before)
    (grown : Grown before after)
    {symbol : TSSymbol}
    {children : List Nat}
    (inside : ∀ child ∈ children, child < before.trees.length) :
    after.parentRank symbol children =
      before.parentRank symbol children := by
  obtain ⟨keys, reads⟩ := arena.reads inside
  have precedences :
      children.map (fun child => (after.tree child).precedence) =
        children.map (fun child => (before.tree child).precedence) :=
    List.map_congr_left
      (fun child member => by rw [grown.tree (inside child member)])
  unfold parentRank
  rw [precedences, reads.preorder_eq,
    (reads.extend grown.trees).preorder_eq]

/-- What was kept: nothing of no candidates, else their first maximum. -/
def Kept
    {α : Type}
    (rank : α → Rank)
    (candidates : List α) :
    Option α → Prop
  | none => candidates = []
  | some chosen => IsFirst rank candidates chosen

/-- Whether a candidate outranks what was kept; anything outranks nothing. -/
def outranks
    {α : Type}
    (rank : α → Rank)
    (chosen : Option α)
    (candidate : α) :
    Prop :=
  ∀ incumbent, chosen = some incumbent → rank incumbent < rank candidate

/-- A candidate that is compared and kept if it is better. -/
theorem Kept.step
    {α : Type}
    {rank : α → Rank}
    {candidates : List α}
    {chosen : Option α}
    (kept : Kept rank candidates chosen)
    (candidate : α)
    {answer : Bool}
    (answered : answer = true ↔ outranks rank chosen candidate) :
    Kept rank (candidates ++ [candidate])
      (if answer then some candidate else chosen) := by
  cases chosen with
  | none =>
      have empty : candidates = [] := kept
      have better : answer = true :=
        answered.mpr (fun incumbent impossible => by cases impossible)
      rw [if_pos better, empty]
      exact IsFirst.singleton
  | some incumbent =>
      by_cases better : answer = true
      · rw [if_pos better]
        exact IsFirst.replace kept (answered.mp better incumbent rfl)
      · rw [if_neg better]
        refine IsFirst.keep kept (le_of_not_gt (fun greater => ?_))
        refine better (answered.mpr (fun other same => ?_))
        cases same
        exact greater

/-- Candidates of the same ranks in any order leave one rank. -/
theorem Kept.rank_eq
    {α β : Type}
    {rank : α → Rank}
    {rank' : β → Rank}
    {candidates : List α}
    {candidates' : List β}
    {chosen : Option α}
    {chosen' : Option β}
    (kept : Kept rank candidates chosen)
    (kept' : Kept rank' candidates' chosen')
    (same : List.Perm (candidates.map rank) (candidates'.map rank')) :
    chosen.map rank = chosen'.map rank' := by
  cases chosen with
  | none =>
      have empty : candidates = [] := kept
      subst empty
      have none := List.nil_perm.mp same
      cases chosen' with
      | none =>
          rfl
      | some incumbent =>
          have member := IsFirst.mem kept'
          rw [List.map_eq_nil_iff.mp none] at member
          cases member
  | some incumbent =>
      cases chosen' with
      | none =>
          have empty : candidates' = [] := kept'
          subst empty
          have none := List.perm_nil.mp same
          have member := IsFirst.mem kept
          rw [List.map_eq_nil_iff.mp none] at member
          cases member
      | some incumbent' =>
          simp only [Option.map_some, Option.some.injEq]
          exact IsFirst.rank_eq_of_perm kept kept' same

/-- The state with one more tree, other room and other requests. -/
def withCandidate
    (state : TFSpecState)
    (tree : TFSpecTree)
    (capacity : TFSpecArena → Nat)
    (heap : Heap) :
    TFSpecState :=
  reserved { state with spec := state.spec.withTree tree } capacity heap

/-- The graph with a candidate is the graph grown by it. -/
theorem grown_withCandidate
    (state : TFSpecState)
    (tree : TFSpecTree)
    (capacity : TFSpecArena → Nat)
    (heap : Heap) :
    Grown state.spec (withCandidate state tree capacity heap).spec :=
  ⟨List.prefix_append _ _, rfl⟩

/-- Adding a parent adds a candidate. -/
theorem parent_eq_ok
    {symbol : TSSymbol}
    {production structural base : Nat}
    {children : List Nat}
    {before after : TFSpecState}
    {candidate : Nat}
    (added :
      parent symbol production structural children base before =
        .ok (candidate, after)) :
    candidate = before.spec.trees.length ∧
      ∃ capacity heap,
        after =
          withCandidate before
            (before.spec.parentTree symbol production structural children
              base) capacity heap := by
  unfold parent at added
  obtain ⟨tree, asked, read, added⟩ := Program.bind_eq_ok.mp added
  cases read
  exact newTree_eq_ok added

/-- A candidate is added, and compared with the incumbent by rank. -/
theorem candidate_compared
    {materialize : SpecM Unit}
    {fuel : Nat}
    {symbol : TSSymbol}
    {production structural base : Nat}
    {children : List Nat}
    {chosen : Option Nat}
    {before middle after : TFSpecState}
    {candidate : Nat}
    {answer : Bool}
    (arena : KnownArena before.spec)
    (inside : ∀ child ∈ children, child < before.spec.trees.length)
    (chosenInside :
      ∀ incumbent, chosen = some incumbent →
        incumbent < before.spec.trees.length)
    (added :
      parent symbol production structural children base before =
        .ok (candidate, middle))
    (compared :
      prefer materialize fuel chosen candidate middle =
        .ok (answer, after)) :
    ∃ capacity heap,
      after =
          withCandidate before
            (before.spec.parentTree symbol production structural children
              base) capacity heap ∧
        candidate = before.spec.trees.length ∧
        KnownArena after.spec ∧
        (answer = true ↔ outranks after.spec.rank chosen candidate) := by
  obtain ⟨candidateEq, capacity, heap, middleEq⟩ := parent_eq_ok added
  have known :
      ∀ capacity heap, KnownArena
        (withCandidate before
          (before.spec.parentTree symbol production structural children
            base) capacity heap).spec :=
    fun capacity heap => (arena.withTree inside rfl).of_trees rfl
  cases chosen with
  | none =>
      cases compared
      refine ⟨capacity, heap, middleEq, candidateEq,
        by rw [middleEq]; exact known capacity heap, ?_⟩
      simp [outranks]
  | some incumbent =>
      have length :
          middle.spec.trees.length = before.spec.trees.length + 1 := by
        rw [middleEq]
        simp [withCandidate, reserved, TFSpec.withCapacity,
          TFSpec.withTree]
      have knownMiddle : KnownArena middle.spec := by
        rw [middleEq]
        exact known capacity heap
      have low := chosenInside incumbent rfl
      have incumbentInside : incumbent < middle.spec.trees.length := by
        omega
      have candidateInside : candidate < middle.spec.trees.length := by
        omega
      obtain ⟨keys, reads⟩ := knownMiddle.reads_tree incumbentInside
      obtain ⟨keys', reads'⟩ := knownMiddle.reads_tree candidateInside
      obtain ⟨answerEq, capacity', heap', afterEq⟩ :=
        answer_of_prefer reads reads'
          ⟨middle.spec.capacity, rfl⟩ compared
      have same :
          after =
            withCandidate before
              (before.spec.parentTree symbol production structural children
                base) capacity' heap' := by
        rw [afterEq, middleEq]
        rfl
      refine ⟨capacity', heap', same, candidateEq,
        by rw [same]; exact known capacity' heap', ?_⟩
      have grown : middle.spec.trees <+: after.spec.trees := by
        rw [afterEq]
        exact List.prefix_refl _
      rw [answerEq, decide_eq_true_iff, ← rank_extend grown reads,
        ← rank_extend grown reads']
      simp [outranks]

/-- Ranks that agree on the candidates keep the same. -/
theorem Kept.congr
    {α : Type}
    {rank rank' : α → Rank}
    {candidates : List α}
    {chosen : Option α}
    (kept : Kept rank candidates chosen)
    (same : ∀ candidate ∈ candidates, rank candidate = rank' candidate) :
    Kept rank' candidates chosen := by
  cases chosen with
  | none =>
      exact kept
  | some incumbent =>
      exact IsFirst.congr same kept

/-- What was kept is one of the candidates. -/
theorem Kept.mem
    {α : Type}
    {rank : α → Rank}
    {candidates : List α}
    {incumbent : α}
    (kept : Kept rank candidates (some incumbent)) :
    incumbent ∈ candidates :=
  IsFirst.mem kept

/-! ## Candidate parents -/

/-- The extras at a path's end are taken off it. -/
theorem mem_of_mem_trimExtras
    {spec : TFSpec}
    {path : List Nat}
    {id : Nat}
    (member : id ∈ spec.trimExtras path) :
    id ∈ path := by
  unfold trimExtras at member
  have kept := (List.dropWhile_suffix _).subset (List.mem_reverse.mp member)
  exact List.mem_reverse.mp kept

/-- The parent that a path proposes, and the extras it leaves above it. -/
structure IsParent
    (spec : TFSpec)
    (symbol : TSSymbol)
    (childCount productionId base : Nat)
    (path : List Nat)
    (candidate : Nat × List Nat) :
    Prop where
  inside : candidate.1 < spec.trees.length
  tree :
    spec.tree candidate.1 =
      spec.parentTree symbol productionId childCount
        (spec.trimExtras path) base
  trailing : candidate.2 = path.drop (spec.trimExtras path).length

/-- A proposed parent stays one when the arena grows. -/
theorem IsParent.grown
    {before after : TFSpec}
    (grown : Grown before after)
    {symbol : TSSymbol}
    {childCount productionId base : Nat}
    {path : List Nat}
    (inside : ∀ id ∈ path, id < before.trees.length)
    {candidate : Nat × List Nat}
    (parent :
      IsParent before symbol childCount productionId base path
        candidate) :
    IsParent after symbol childCount productionId base path
      candidate := by
  have trimmed := grown.trimExtras inside
  refine ⟨Nat.lt_of_lt_of_le parent.inside grown.trees.length_le, ?_, ?_⟩
  · rw [grown.tree parent.inside, parent.tree, trimmed,
      grown.parentTree _ _ _
        (fun id member => inside id (mem_of_mem_trimExtras member))]
  · rw [trimmed]
    exact parent.trailing

/--
The choice among the parents of one reduction keeps the first of greatest
rank, given what it kept before.
-/
theorem selectParent_keeps
    {env : TFSpecEnv}
    {symbol : TSSymbol}
    {childCount productionId base : Nat}
    {paths : List (List Nat)}
    {chosen result : Option (Nat × List Nat)}
    {before after : TFSpecState}
    {earlier : List (Nat × List Nat)}
    (arena : KnownArena before.spec)
    (inside :
      ∀ path ∈ paths, ∀ id ∈ path, id < before.spec.trees.length)
    (earlierInside :
      ∀ candidate ∈ earlier, candidate.1 < before.spec.trees.length)
    (kept : Kept (before.spec.rank ∘ Prod.fst) earlier chosen)
    (ran :
      selectParent env symbol childCount productionId base paths chosen
        before = .ok (result, after)) :
    ∃ candidates,
      List.Forall₂
          (IsParent after.spec symbol childCount productionId base)
          paths candidates ∧
        KnownArena after.spec ∧ Grown before.spec after.spec ∧
        Kept (after.spec.rank ∘ Prod.fst) (earlier ++ candidates)
          result := by
  induction paths generalizing before chosen earlier with
  | nil =>
      cases ran
      exact ⟨[], .nil, arena, .refl _, by rw [List.append_nil]; exact kept⟩
  | cons path rest inductionHypothesis =>
      simp only [selectParent] at ran
      obtain ⟨trimmed, read, asked, ran⟩ := Program.bind_eq_ok.mp ran
      cases asked
      obtain ⟨candidate, added, parentRun, ran⟩ :=
        Program.bind_eq_ok.mp ran
      obtain ⟨answer, middle, preferRun, ran⟩ := Program.bind_eq_ok.mp ran
      have own := inside path (by simp)
      obtain ⟨capacity, heap, middleEq, candidateEq, known, answerIff⟩ :=
        candidate_compared arena
          (fun child member => own child (mem_of_mem_trimExtras member))
          (by
            intro incumbent isChosen
            obtain ⟨pair, chosenEq, rfl⟩ := Option.map_eq_some_iff.mp isChosen
            rw [chosenEq] at kept
            exact earlierInside pair kept.mem)
          parentRun preferRun
      have grown : Grown before.spec middle.spec := by
        rw [middleEq]
        exact grown_withCandidate _ _ _ _
      let pair : Nat × List Nat :=
        (candidate, path.drop (before.spec.trimExtras path).length)
      have isParent :
          IsParent middle.spec symbol childCount productionId base path
            pair := by
        have trimmed := grown.trimExtras own
        refine ⟨?_, ?_, ?_⟩
        · rw [middleEq]
          simp [pair, candidateEq, withCandidate, reserved, withTree,
            TFSpec.withCapacity]
        · rw [trimmed, grown.parentTree _ _ _
            (fun id member => own id (mem_of_mem_trimExtras member))]
          rw [middleEq, show pair.1 = before.spec.trees.length from
            candidateEq]
          exact tree_withTree _ _
        · rw [trimmed]
      have keptMiddle :
          Kept (middle.spec.rank ∘ Prod.fst) earlier chosen := by
        refine kept.congr (fun other member => ?_)
        obtain ⟨keys, reads⟩ :=
          arena.reads_tree (earlierInside other member)
        exact (rank_extend grown.trees reads).symm
      have answered :
          answer = true ↔
            outranks (middle.spec.rank ∘ Prod.fst) chosen pair := by
        rw [answerIff]
        cases chosen <;> simp [outranks, pair]
      have keptNext := keptMiddle.step pair answered
      obtain ⟨candidates, proposed, arenaAfter, grownAfter, keptAfter⟩ :=
        inductionHypothesis known
          (fun other member id inOther =>
            Nat.lt_of_lt_of_le
              (inside other (by simp [member]) id inOther)
              grown.trees.length_le)
          (by
            intro other member
            rcases List.mem_append.mp member with old | new
            · exact Nat.lt_of_lt_of_le (earlierInside other old)
                grown.trees.length_le
            · rw [List.mem_singleton.mp new]
              exact isParent.inside)
          keptNext
          (by
            by_cases better : answer = true
            · rw [if_pos better] at ran ⊢
              exact ran
            · rw [if_neg better] at ran ⊢
              exact ran)
      refine ⟨pair :: candidates, .cons ?_ proposed, arenaAfter,
        grown.trans grownAfter, ?_⟩
      · exact isParent.grown grownAfter
          (fun id member =>
            Nat.lt_of_lt_of_le (own id member) grown.trees.length_le)
      · rw [← List.singleton_append, ← List.append_assoc]
        exact keptAfter

/-- A choice among the parents of one reduction from its beginning. -/
theorem selectParent_chooses
    {env : TFSpecEnv}
    {symbol : TSSymbol}
    {childCount productionId base : Nat}
    {paths : List (List Nat)}
    {result : Option (Nat × List Nat)}
    {before after : TFSpecState}
    (arena : KnownArena before.spec)
    (inside :
      ∀ path ∈ paths, ∀ id ∈ path, id < before.spec.trees.length)
    (ran :
      selectParent env symbol childCount productionId base paths none
        before = .ok (result, after)) :
    ∃ candidates,
      List.Forall₂
          (IsParent after.spec symbol childCount productionId base)
          paths candidates ∧
        KnownArena after.spec ∧ Grown before.spec after.spec ∧
        Kept (after.spec.rank ∘ Prod.fst) candidates result := by
  have nothing :
      Kept (before.spec.rank ∘ Prod.fst)
        ([] : List (Nat × List Nat)) none :=
    rfl
  exact selectParent_keeps arena inside (by simp) nothing ran

/-- Proposed parents are trees of the arena. -/
theorem isParent_inside
    {spec : TFSpec}
    {symbol : TSSymbol}
    {childCount productionId base : Nat}
    {paths : List (List Nat)}
    {candidates : List (Nat × List Nat)}
    (proposed :
      List.Forall₂ (IsParent spec symbol childCount productionId base)
        paths candidates) :
    ∀ candidate ∈ candidates, candidate.1 < spec.trees.length := by
  induction proposed with
  | nil =>
      simp
  | cons isParent _ inductionHypothesis =>
      intro candidate member
      rcases List.mem_cons.mp member with rfl | later
      · exact isParent.inside
      · exact inductionHypothesis candidate later

/-! ## Candidate roots -/

/-- The last structural tree of a grown path stays in its place. -/
theorem Grown.lastStructural
    {before after : TFSpec}
    (grown : Grown before after)
    {path : List Nat}
    (inside : ∀ id ∈ path, id < before.trees.length) :
    after.lastStructural path = before.lastStructural path := by
  have same :
      path.reverse.findIdx? (fun tree => !(after.tree tree).extra) =
        path.reverse.findIdx? (fun tree => !(before.tree tree).extra) := by
    have extras :
        ∀ id ∈ path.reverse,
          (!(after.tree id).extra) = !(before.tree id).extra := by
      intro id member
      rw [grown.tree (inside id (List.mem_reverse.mp member))]
    generalize path.reverse = reversed at extras
    induction reversed with
    | nil =>
        rfl
    | cons id rest inductionHypothesis =>
        have later :=
          inductionHypothesis
            (fun other member => extras other (by simp [member]))
        rw [List.findIdx?_cons, List.findIdx?_cons, later,
          extras id (by simp)]
  unfold TFSpec.lastStructural
  rw [same]

/-- The place of the last structural tree is a place of the path. -/
theorem lastStructural_lt
    {spec : TFSpec}
    {path : List Nat}
    {index : Nat}
    (found : spec.lastStructural path = some index) :
    index < path.length := by
  unfold lastStructural at found
  split at found
  · rename_i fromTop place
    cases found
    obtain ⟨inside, _⟩ := List.findIdx?_eq_some_iff_getElem.mp place
    rw [List.length_reverse] at inside
    omega
  · cases found

/-- The root a whole stack rebuilds: its last structural tree, widened. -/
def rootParts
    (spec : TFSpec)
    (path : List Nat) :
    Option (TFSpecTree × List Nat) :=
  (spec.lastStructural path).map (fun index =>
    let root := spec.tree (path.getD index 0)
    (root, path.take index ++ root.children ++ path.drop (index + 1)))

/-- The stack's root is rebuilt from trees of the arena. -/
theorem rootParts_inside
    {spec : TFSpec}
    (arena : KnownArena spec)
    {path : List Nat}
    (inside : ∀ id ∈ path, id < spec.trees.length)
    {root : TFSpecTree}
    {children : List Nat}
    (parts : spec.rootParts path = some (root, children)) :
    ∀ child ∈ children, child < spec.trees.length := by
  obtain ⟨index, found, made⟩ := Option.map_eq_some_iff.mp parts
  cases made
  have place := lastStructural_lt found
  have member : path.getD index 0 ∈ path := by
    rw [List.getD_eq_getElem?_getD, List.getElem?_eq_getElem place]
    exact List.getElem_mem place
  intro child inChildren
  rcases List.mem_append.mp inChildren with front | after
  · rcases List.mem_append.mp front with before | own
    · exact inside child (List.mem_of_mem_take before)
    · exact arena.inside _ (inside _ member) child own
  · exact inside child (List.mem_of_mem_drop after)

/-- A grown arena rebuilds the same root. -/
theorem Grown.rootParts
    {before after : TFSpec}
    (grown : Grown before after)
    {path : List Nat}
    (inside : ∀ id ∈ path, id < before.trees.length) :
    after.rootParts path = before.rootParts path := by
  unfold TFSpec.rootParts
  rw [grown.lastStructural inside]
  cases found : before.lastStructural path with
  | none =>
      rfl
  | some index =>
      have place := lastStructural_lt found
      have member : path.getD index 0 ∈ path := by
        rw [List.getD_eq_getElem?_getD, List.getElem?_eq_getElem place]
        exact List.getElem_mem place
      simp only [Option.map_some]
      rw [grown.tree (inside _ member)]

/-- The root that a whole stack proposes. -/
structure IsRoot
    (spec : TFSpec)
    (parts : TFSpecTree × List Nat)
    (candidate : Nat) :
    Prop where
  inside : candidate < spec.trees.length
  tree :
    spec.tree candidate =
      spec.parentTree parts.1.token.symbol parts.1.productionId
        parts.1.structuralCount parts.2 0

/-- A proposed root stays one when the arena grows. -/
theorem IsRoot.grown
    {before after : TFSpec}
    (grown : Grown before after)
    {parts : TFSpecTree × List Nat}
    (inside : ∀ child ∈ parts.2, child < before.trees.length)
    {candidate : Nat}
    (root : IsRoot before parts candidate) :
    IsRoot after parts candidate := by
  refine ⟨Nat.lt_of_lt_of_le root.inside grown.trees.length_le, ?_⟩
  rw [grown.tree root.inside, root.tree, grown.parentTree _ _ _ inside]

/-- One whole stack: it proposes no root, or one that is compared and kept. -/
theorem acceptPath_cases
    {env : TFSpecEnv}
    {path : List Nat}
    {before after : TFSpecState}
    (arena : KnownArena before.spec)
    (inside : ∀ id ∈ path, id < before.spec.trees.length)
    (keptInside :
      ∀ incumbent, before.spec.finished = some incumbent →
        incumbent < before.spec.trees.length)
    (ran : acceptPath env path before = .ok ((), after)) :
    (before.spec.rootParts path = none ∧ after = before) ∨
      ∃ parts candidate answer,
        before.spec.rootParts path = some parts ∧
          KnownArena after.spec ∧ Grown before.spec after.spec ∧
          IsRoot after.spec parts candidate ∧
          (answer = true ↔
            outranks after.spec.rank before.spec.finished candidate) ∧
          after.spec.finished =
            if answer then some candidate else before.spec.finished := by
  unfold acceptPath at ran
  obtain ⟨place, read, asked, ran⟩ := Program.bind_eq_ok.mp ran
  cases asked
  cases found : before.spec.lastStructural path with
  | none =>
      simp only [found] at ran
      cases ran
      exact Or.inl ⟨by simp [rootParts, found], rfl⟩
  | some index =>
      have position := lastStructural_lt found
      have member : path.getD index 0 ∈ path := by
        rw [List.getD_eq_getElem?_getD, List.getElem?_eq_getElem position]
        exact List.getElem_mem position
      simp only [found] at ran
      obtain ⟨isOpaque, read, asked, ran⟩ := Program.bind_eq_ok.mp ran
      cases asked
      have known := arena.known _ (inside _ member)
      simp only [known, Bool.false_eq_true, if_false] at ran
      obtain ⟨root, read, asked, ran⟩ := Program.bind_eq_ok.mp ran
      cases asked
      obtain ⟨used, read, asked, ran⟩ := Program.bind_eq_ok.mp ran
      cases asked
      obtain ⟨_, read, room, ran⟩ := Program.bind_eq_ok.mp ran
      obtain ⟨capacity, heap, rfl⟩ := reserve_eq_ok room
      obtain ⟨_, counted, updated, ran⟩ := Program.bind_eq_ok.mp ran
      have countedTrees : counted.spec.trees = before.spec.trees := by
        cases updated
        rfl
      have countedNodes : counted.spec.nodes = before.spec.nodes := by
        cases updated
        rfl
      have countedFinished :
          counted.spec.finished = before.spec.finished := by
        cases updated
        rfl
      obtain ⟨candidate, added, parentRun, ran⟩ :=
        Program.bind_eq_ok.mp ran
      obtain ⟨kept, read, asked, ran⟩ := Program.bind_eq_ok.mp ran
      cases asked
      obtain ⟨answer, middle, preferRun, ran⟩ := Program.bind_eq_ok.mp ran
      have parts :
          before.spec.rootParts path =
            some
              (before.spec.tree (path.getD index 0),
                path.take index ++
                  (before.spec.tree (path.getD index 0)).children ++
                  path.drop (index + 1)) := by
        simp [rootParts, found]
      have childrenInside := rootParts_inside arena inside parts
      have same : added.spec.finished = before.spec.finished := by
        obtain ⟨_, capacity, heap, rfl⟩ := parent_eq_ok parentRun
        exact countedFinished
      obtain ⟨capacity, heap, middleEq, candidateEq, known, answerIff⟩ :=
        candidate_compared (arena.of_trees countedTrees)
          (by rw [countedTrees]; exact childrenInside)
          (by
            intro incumbent isKept
            rw [countedTrees]
            exact keptInside incumbent (same ▸ isKept))
          parentRun preferRun
      dsimp only at answerIff ran
      rw [same] at answerIff
      have later : Grown counted.spec middle.spec := by
        rw [middleEq]
        exact grown_withCandidate _ _ _ _
      have grown : Grown before.spec middle.spec :=
        Grown.trans
          ⟨countedTrees ▸ List.prefix_refl _, countedNodes⟩
          later
      have isRoot :
          IsRoot middle.spec
            (before.spec.tree (path.getD index 0),
              path.take index ++
                (before.spec.tree (path.getD index 0)).children ++
                path.drop (index + 1)) candidate := by
        refine ⟨?_, ?_⟩
        · rw [middleEq]
          simp [candidateEq, withCandidate, reserved, withTree,
            TFSpec.withCapacity]
        · rw [later.parentTree _ _ _
            (by rw [countedTrees]; exact childrenInside), middleEq,
            candidateEq]
          exact tree_withTree _ _
      have middleKept : middle.spec.finished = before.spec.finished := by
        rw [middleEq]
        exact countedFinished
      refine Or.inr ⟨_, candidate, answer, parts, ?_⟩
      by_cases better : answer = true
      · rw [if_pos better] at ran
        have treesEq : after.spec.trees = middle.spec.trees := by
          cases ran
          rfl
        have ranks := rank_of_trees treesEq
        refine ⟨known.of_trees treesEq, ?_, ?_, by rw [ranks]; exact answerIff,
          ?_⟩
        · cases ran
          exact ⟨grown.trees, grown.nodes⟩
        · cases ran
          exact ⟨isRoot.inside, isRoot.tree⟩
        · cases ran
          rw [if_pos better]
      · rw [if_neg better] at ran
        cases ran
        exact ⟨known, grown, isRoot, answerIff,
          by rw [if_neg better, middleKept]⟩

/--
Accepting keeps the first root of greatest rank, given the root that earlier
heads left.
-/
theorem acceptPaths_keep
    {env : TFSpecEnv}
    {slices : List TFSpecSlice}
    {before after : TFSpecState}
    {earlier : List Nat}
    (arena : KnownArena before.spec)
    (inside :
      ∀ slice ∈ slices, ∀ id ∈ slice.children,
        id < before.spec.trees.length)
    (earlierInside :
      ∀ candidate ∈ earlier, candidate < before.spec.trees.length)
    (kept : Kept before.spec.rank earlier before.spec.finished)
    (ran :
      Program.forEach (fun slice => acceptPath env slice.children) slices
        before = .ok ((), after)) :
    ∃ candidates,
      List.Forall₂ (IsRoot after.spec)
          (slices.filterMap (fun slice =>
            before.spec.rootParts slice.children))
          candidates ∧
        KnownArena after.spec ∧ Grown before.spec after.spec ∧
        Kept after.spec.rank (earlier ++ candidates)
          after.spec.finished := by
  induction slices generalizing before earlier with
  | nil =>
      cases ran
      exact ⟨[], .nil, arena, .refl _, by rw [List.append_nil]; exact kept⟩
  | cons slice rest inductionHypothesis =>
      simp only [Program.forEach] at ran
      obtain ⟨_, middle, first, later⟩ := Program.bind_eq_ok.mp ran
      have own := inside slice (by simp)
      have insideRest :
          ∀ other ∈ rest, ∀ id ∈ other.children,
            id < before.spec.trees.length :=
        fun other member => inside other (by simp [member])
      rcases acceptPath_cases arena own
          (by
            intro incumbent isKept
            rw [isKept] at kept
            exact earlierInside incumbent kept.mem)
          first with
        ⟨none, rfl⟩ |
          ⟨parts, candidate, answer, parts_, known, grown, isRoot,
            answerIff, keptEq⟩
      · obtain ⟨candidates, proposed, arenaAfter, grownAfter, keptAfter⟩ :=
          inductionHypothesis arena insideRest earlierInside kept later
        have skipped :
            (slice :: rest).filterMap (fun other =>
                middle.spec.rootParts other.children) =
              rest.filterMap (fun other =>
                middle.spec.rootParts other.children) :=
          List.filterMap_cons_none none
        refine ⟨candidates, ?_, arenaAfter, grownAfter, keptAfter⟩
        rw [skipped]
        exact proposed
      · have keptMiddle :
            Kept middle.spec.rank earlier before.spec.finished := by
          refine kept.congr (fun other member => ?_)
          obtain ⟨keys, reads⟩ :=
            arena.reads_tree (earlierInside other member)
          exact (rank_extend grown.trees reads).symm
        have keptNext := keptMiddle.step candidate answerIff
        rw [← keptEq] at keptNext
        obtain ⟨candidates, proposed, arenaAfter, grownAfter, keptAfter⟩ :=
          inductionHypothesis known
            (fun other member id inOther =>
              Nat.lt_of_lt_of_le (insideRest other member id inOther)
                grown.trees.length_le)
            (by
              intro other member
              rcases List.mem_append.mp member with old | new
              · exact Nat.lt_of_lt_of_le (earlierInside other old)
                  grown.trees.length_le
              · rw [List.mem_singleton.mp new]
                exact isRoot.inside)
            keptNext later
        have sameParts :
            rest.filterMap (fun other =>
                middle.spec.rootParts other.children) =
              rest.filterMap (fun other =>
                before.spec.rootParts other.children) :=
          List.filterMap_congr
            (fun other member => grown.rootParts (insideRest other member))
        have childrenInside := rootParts_inside arena own parts_
        have proposes :
            (slice :: rest).filterMap (fun other =>
                before.spec.rootParts other.children) =
              parts :: rest.filterMap (fun other =>
                before.spec.rootParts other.children) :=
          List.filterMap_cons_some parts_
        refine ⟨candidate :: candidates, ?_, arenaAfter,
          grown.trans grownAfter, ?_⟩
        · rw [proposes, ← sameParts]
          refine .cons ?_ proposed
          exact isRoot.grown grownAfter
            (fun child member =>
              Nat.lt_of_lt_of_le (childrenInside child member)
                grown.trees.length_le)
        · rw [← List.singleton_append, ← List.append_assoc]
          exact keptAfter

/-- Proposed roots are trees of the arena. -/
theorem isRoot_inside
    {spec : TFSpec}
    {parts : List (TFSpecTree × List Nat)}
    {candidates : List Nat}
    (proposed : List.Forall₂ (IsRoot spec) parts candidates) :
    ∀ candidate ∈ candidates, candidate < spec.trees.length := by
  induction proposed with
  | nil =>
      simp
  | cons isRoot _ inductionHypothesis =>
      intro candidate member
      rcases List.mem_cons.mp member with rfl | later
      · exact isRoot.inside
      · exact inductionHypothesis candidate later

/-! ## Order -/

/-- The stacks of pairs that comparing two trees goes through. -/
inductive Stacks (spec : TFSpec) (a b : Nat) :
    List (Nat × Nat) → Prop
  | start : Stacks spec a b [(a, b)]
  | step
      {pairs next : List (Nat × Nat)}
      (reached : Stacks spec a b pairs)
      (materialize : SpecM Unit)
      (state final : TFSpecState)
      (graph : ∃ capacity, state.spec = spec.withCapacity capacity)
      (stepped :
        preferStep materialize pairs state = .ok (.inl next, final)) :
      Stacks spec a b next

/-- One step of the walk leaves a part of the stack, or goes below its top. -/
theorem preferStep_next
    {materialize : SpecM Unit}
    {pairs next : List (Nat × Nat)}
    {spec : TFSpec}
    {state final : TFSpecState}
    (graph : ∃ capacity, state.spec = spec.withCapacity capacity)
    (known : ∀ pair ∈ pairs,
      (spec.tree pair.1).isOpaque = false ∧
        (spec.tree pair.2).isOpaque = false)
    (stepped :
      preferStep materialize pairs state = .ok (.inl next, final)) :
    ∃ top rest,
      pairs = top :: rest ∧
        (next = rest ∨
          (spec.tree top.1).children.length =
              (spec.tree top.2).children.length ∧
            next =
              (spec.tree top.1).children.zip (spec.tree top.2).children ++
                rest) := by
  have tree : ∀ id, state.spec.tree id = spec.tree id := by
    obtain ⟨capacity, graphEq⟩ := graph
    intro id
    rw [graphEq]
    rfl
  cases pairs with
  | nil =>
      cases stepped
  | cons top rest =>
      obtain ⟨left, right⟩ := top
      refine ⟨(left, right), rest, rfl, ?_⟩
      have knownTop := known (left, right) (by simp)
      by_cases same : left = right
      · simp only [preferStep, same, if_true] at stepped
        cases stepped
        exact Or.inl rfl
      · by_cases symbols :
            (state.spec.tree left).token.symbol =
              (state.spec.tree right).token.symbol
        · rw [preferStep_children materialize rest state same symbols
            (by rw [tree]; exact knownTop.1)
            (by rw [tree]; exact knownTop.2)] at stepped
          simp only [tree] at stepped
          split at stepped
          · cases stepped
          · rename_i counts
            obtain ⟨_, middle, room, stepped⟩ :=
              Program.bind_eq_ok.mp stepped
            cases stepped
            exact Or.inr ⟨not_not.mp counts, rfl⟩
        · rw [preferStep_symbols materialize rest state same symbols]
            at stepped
          cases stepped

/-- Comparing two trees of an arena only ever reads trees of the arena. -/
theorem KnownArena.stacks_inside
    {spec : TFSpec}
    (arena : KnownArena spec)
    {a b : Nat}
    (insideA : a < spec.trees.length)
    (insideB : b < spec.trees.length)
    {pairs : List (Nat × Nat)}
    (walked : Stacks spec a b pairs) :
    ∀ pair ∈ pairs,
      pair.1 < spec.trees.length ∧ pair.2 < spec.trees.length := by
  induction walked with
  | start =>
      intro pair member
      rw [List.mem_singleton.mp member]
      exact ⟨insideA, insideB⟩
  | step reached materialize state final graph stepped inductionHypothesis =>
      obtain ⟨top, rest, rfl, next⟩ :=
        preferStep_next graph
          (fun pair member =>
            ⟨arena.known _ (inductionHypothesis pair member).1,
              arena.known _ (inductionHypothesis pair member).2⟩)
          stepped
      have insideTop := inductionHypothesis top (by simp)
      intro pair member
      rcases next with rfl | ⟨_, rfl⟩
      · exact inductionHypothesis pair (by simp [member])
      · rcases List.mem_append.mp member with below | inRest
        · have parts := List.of_mem_zip below
          exact ⟨arena.inside _ insideTop.1 _ parts.1,
            arena.inside _ insideTop.2 _ parts.2⟩
        · exact inductionHypothesis pair (by simp [inRest])

/-- With fuel for one tree's sequence, comparing does not run out of it. -/
theorem KnownArena.prefer_lasts
    {spec : TFSpec}
    (arena : KnownArena spec)
    {a b : Nat}
    (insideA : a < spec.trees.length)
    (insideB : b < spec.trees.length) :
    ∃ enough, ∀ materialize fuel state,
      enough ≤ fuel →
        (∃ capacity, state.spec = spec.withCapacity capacity) →
        prefer materialize fuel (some a) b state ≠ .error .stuck := by
  obtain ⟨keys, reads⟩ := arena.reads_tree insideA
  obtain ⟨keys', reads'⟩ := arena.reads_tree insideB
  refine ⟨keys.length + 1, ?_⟩
  intro materialize fuel state lasts graph stuck
  have compared :=
    prefer_compared materialize reads reads' fuel state graph
  rw [stuck] at compared
  cases compared with
  | exhausted short =>
      omega

/-- Being better is having the greater rank. -/
theorem KnownArena.better_iff
    {spec : TFSpec}
    (arena : KnownArena spec)
    {a b : Nat}
    (insideA : a < spec.trees.length)
    (insideB : b < spec.trees.length) :
    Better spec a b ↔ spec.rank a < spec.rank b := by
  obtain ⟨keys, reads⟩ := arena.reads_tree insideA
  obtain ⟨keys', reads'⟩ := arena.reads_tree insideB
  unfold Better
  rw [answers_iff reads reads']
  constructor
  · intro answer
    exact of_decide_eq_true answer.symm
  · intro less
    exact (decide_eq_true less).symm

/-- Two trees have one precedence and one preorder sequence. -/
def SameShape
    (first second : TFSpec)
    (a b : Nat) :
    Prop :=
  (first.tree a).precedence = (second.tree b).precedence ∧
    first.preorder [a] = second.preorder [b]

/-- Ranks are equal exactly for trees of one shape and precedence. -/
theorem sameShape_iff
    {first second : TFSpec}
    {a b : Nat} :
    SameShape first second a b ↔ first.rank a = second.rank b := by
  simp [SameShape, rank, rankOf]

/-- Trees that are not better than each other are alike. -/
theorem KnownArena.incomparable_iff
    {spec : TFSpec}
    (arena : KnownArena spec)
    {a b : Nat}
    (insideA : a < spec.trees.length)
    (insideB : b < spec.trees.length) :
    ¬ Better spec a b ∧ ¬ Better spec b a ↔ SameShape spec spec a b := by
  rw [arena.better_iff insideA insideB, arena.better_iff insideB insideA,
    sameShape_iff, not_lt, not_lt]
  constructor
  · rintro ⟨atMost, atLeast⟩
    exact le_antisymm atLeast atMost
  · intro same
    exact ⟨same.ge, same.le⟩

/-- Being better orders the arena's trees strictly and weakly. -/
theorem KnownArena.strictWeakOrder
    {spec : TFSpec}
    (arena : KnownArena spec) :
    IsStrictWeakOrder {id // id < spec.trees.length}
      (fun a b => Better spec a b) where
  irrefl := by
    rintro ⟨a, insideA⟩
    rw [arena.better_iff insideA insideA]
    exact lt_irrefl _
  trans := by
    rintro ⟨a, insideA⟩ ⟨b, insideB⟩ ⟨c, insideC⟩
    rw [arena.better_iff insideA insideB, arena.better_iff insideB insideC,
      arena.better_iff insideA insideC]
    exact lt_trans
  incomp_trans := by
    rintro ⟨a, insideA⟩ ⟨b, insideB⟩ ⟨c, insideC⟩ first second
    rw [arena.incomparable_iff insideA insideB, sameShape_iff] at first
    rw [arena.incomparable_iff insideB insideC, sameShape_iff] at second
    rw [arena.incomparable_iff insideA insideC, sameShape_iff]
    exact first.trans second

/-- The first best of some items: better than all before, worse than none. -/
def FirstBest
    {α : Type}
    (spec : TFSpec)
    (tree : α → Nat)
    (items : List α) :
    Option α → Prop
  | none => items = []
  | some chosen =>
      ∃ before later,
        items = before ++ chosen :: later ∧
          (∀ item ∈ before, Better spec (tree item) (tree chosen)) ∧
          ∀ item ∈ later, ¬ Better spec (tree chosen) (tree item)

/-- What is kept by rank is the first best. -/
theorem Kept.firstBest
    {α : Type}
    {spec : TFSpec}
    (arena : KnownArena spec)
    {tree : α → Nat}
    {items : List α}
    {chosen : Option α}
    (inside : ∀ item ∈ items, tree item < spec.trees.length)
    (kept : Kept (spec.rank ∘ tree) items chosen) :
    FirstBest spec tree items chosen := by
  cases chosen with
  | none =>
      exact kept
  | some incumbent =>
      obtain ⟨before, later, rfl, smaller, atMost⟩ := kept
      have here := inside incumbent (by simp)
      refine ⟨before, later, rfl, ?_, ?_⟩
      · intro item member
        rw [arena.better_iff (inside item (by simp [member])) here]
        exact smaller item member
      · intro item member
        rw [arena.better_iff here (inside item (by simp [member]))]
        exact not_lt_of_ge (atMost item member)

/-- Two choices came out alike: neither chose, or both chose one shape. -/
def ChoseAlike
    {α β : Type}
    (first second : TFSpec)
    (tree : α → Nat)
    (tree' : β → Nat) :
    Option α → Option β → Prop
  | none, none => True
  | some chosen, some chosen' =>
      SameShape first second (tree chosen) (tree' chosen')
  | _, _ => False

/-- Choices of one rank are alike. -/
theorem choseAlike_of_rank
    {α β : Type}
    {first second : TFSpec}
    {tree : α → Nat}
    {tree' : β → Nat}
    {chosen : Option α}
    {chosen' : Option β}
    (same :
      chosen.map (first.rank ∘ tree) = chosen'.map (second.rank ∘ tree')) :
    ChoseAlike first second tree tree' chosen chosen' := by
  cases chosen with
  | none =>
      cases chosen' with
      | none =>
          trivial
      | some other =>
          cases same
  | some incumbent =>
      cases chosen' with
      | none =>
          cases same
      | some other =>
          exact sameShape_iff.mpr (Option.some.inj same)

/-- The ranks of candidate parents are told by their paths. -/
theorem ranks_of_parents
    {before after : TFSpec}
    (arena : KnownArena before)
    (arenaAfter : KnownArena after)
    (grown : Grown before after)
    {symbol : TSSymbol}
    {childCount productionId base : Nat}
    {paths : List (List Nat)}
    (inside : ∀ path ∈ paths, ∀ id ∈ path, id < before.trees.length)
    {candidates : List (Nat × List Nat)}
    (proposed :
      List.Forall₂
        (IsParent after symbol childCount productionId base)
        paths candidates) :
    candidates.map (after.rank ∘ Prod.fst) =
      paths.map (fun path =>
        before.parentRank symbol (before.trimExtras path)) := by
  induction proposed with
  | nil =>
      rfl
  | @cons path candidate rest others isParent _ inductionHypothesis =>
      have own := inside path (by simp)
      have rank :
          after.rank candidate.1 =
            before.parentRank symbol (before.trimExtras path) := by
        rw [rank_of_parent arenaAfter isParent.inside isParent.tree,
          grown.trimExtras own,
          parentRank_grown arena grown
            (fun id member => own id (mem_of_mem_trimExtras member))]
      rw [List.map_cons, List.map_cons, Function.comp_apply, rank,
        inductionHypothesis
          (fun other member => inside other (by simp [member]))]

/-- The ranks of candidate roots are told by their parts. -/
theorem ranks_of_roots
    {before after : TFSpec}
    (arena : KnownArena before)
    (arenaAfter : KnownArena after)
    (grown : Grown before after)
    {parts : List (TFSpecTree × List Nat)}
    (inside :
      ∀ part ∈ parts, ∀ child ∈ part.2, child < before.trees.length)
    {candidates : List Nat}
    (proposed : List.Forall₂ (IsRoot after) parts candidates) :
    candidates.map after.rank =
      parts.map (fun part =>
        before.parentRank part.1.token.symbol part.2) := by
  induction proposed with
  | nil =>
      rfl
  | @cons part candidate rest others isRoot _ inductionHypothesis =>
      have own := inside part (by simp)
      rw [List.map_cons, List.map_cons,
        rank_of_parent arenaAfter isRoot.inside isRoot.tree,
        parentRank_grown arena grown own,
        inductionHypothesis
          (fun other member => inside other (by simp [member]))]

/-- The parts of stacks over an arena are trees of the arena. -/
theorem parts_inside
    {spec : TFSpec}
    (arena : KnownArena spec)
    {slices : List TFSpecSlice}
    (inside :
      ∀ slice ∈ slices, ∀ id ∈ slice.children, id < spec.trees.length) :
    ∀ part ∈ slices.filterMap (fun slice => spec.rootParts slice.children),
      ∀ child ∈ part.2, child < spec.trees.length := by
  intro part member
  obtain ⟨slice, inSlices, parts⟩ := List.mem_filterMap.mp member
  exact rootParts_inside arena (inside slice inSlices) parts

/--
The comparison orders an arena's trees strictly and weakly, by precedence and
then by the preorder sequence of symbols and child counts; it ends, reads the
arena's trees only, and makes the choice among parents and among roots one of
the first best, of a shape that does not depend on the order of candidates.
-/
structure SelectsInOrder (spec : TFSpec) : Prop where
  /-- A tree's preorder sequence is what reading the tree gives. -/
  sequence :
    ∀ id < spec.trees.length, Reads spec [id] (spec.preorder [id])
  /-- Comparing two trees has one answer. -/
  answers :
    ∀ a < spec.trees.length, ∀ b < spec.trees.length,
      ∃! answer, Answers spec a b answer
  /-- It ends, from any state over the arena, unless memory is refused. -/
  ends :
    ∀ a < spec.trees.length, ∀ b < spec.trees.length,
      ∃ enough, ∀ materialize fuel state,
        enough ≤ fuel →
          (∃ capacity, state.spec = spec.withCapacity capacity) →
          prefer materialize fuel (some a) b state ≠ .error .stuck
  /-- The stack never holds a tree that the arena does not have. -/
  inside :
    ∀ a < spec.trees.length, ∀ b < spec.trees.length,
      ∀ pairs, Stacks spec a b pairs →
        ∀ pair ∈ pairs,
          pair.1 < spec.trees.length ∧ pair.2 < spec.trees.length
  /-- Irreflexive, transitive, and with transitive incomparability. -/
  order :
    IsStrictWeakOrder {id // id < spec.trees.length}
      (fun a b => Better spec a b)
  asymmetric :
    ∀ a < spec.trees.length, ∀ b < spec.trees.length,
      Better spec a b → ¬ Better spec b a
  incomparable :
    ∀ a < spec.trees.length, ∀ b < spec.trees.length,
      (¬ Better spec a b ∧ ¬ Better spec b a ↔ SameShape spec spec a b)
  /-- A reduction keeps the first best of the parents it proposes. -/
  parent :
    ∀ env symbol childCount productionId base paths before result after,
      before.spec = spec →
        (∀ path ∈ paths, ∀ id ∈ path, id < spec.trees.length) →
        selectParent env symbol childCount productionId base paths none
            before = .ok (result, after) →
        ∃ candidates,
          List.Forall₂
              (IsParent after.spec symbol childCount productionId base)
              paths candidates ∧
            FirstBest after.spec Prod.fst candidates result
  /-- Accepting keeps the first best of the kept root and those proposed. -/
  root :
    ∀ env (slices : List TFSpecSlice) before after,
      before.spec = spec →
        (∀ incumbent, spec.finished = some incumbent →
          incumbent < spec.trees.length) →
        (∀ slice ∈ slices, ∀ id ∈ slice.children,
          id < spec.trees.length) →
        Program.forEach (fun slice => acceptPath env slice.children) slices
            before = .ok ((), after) →
        ∃ candidates,
          List.Forall₂ (IsRoot after.spec)
              (slices.filterMap (fun slice =>
                spec.rootParts slice.children))
              candidates ∧
            FirstBest after.spec id (spec.finished.toList ++ candidates)
              after.spec.finished
  /-- Other orders of the paths choose a parent of the same shape. -/
  parentPermuted :
    ∀ env env' symbol childCount productionId base paths paths'
        before before' result result' after after',
      before.spec = spec →
        before'.spec = spec →
        (∀ path ∈ paths, ∀ id ∈ path, id < spec.trees.length) →
        List.Perm paths paths' →
        selectParent env symbol childCount productionId base paths none
            before = .ok (result, after) →
        selectParent env' symbol childCount productionId base paths' none
            before' = .ok (result', after') →
        ChoseAlike after.spec after'.spec Prod.fst Prod.fst result result'
  /-- Other orders of the stacks choose a root of the same shape. -/
  rootPermuted :
    ∀ env env' (slices slices' : List TFSpecSlice) before before'
        after after',
      before.spec = spec →
        before'.spec = spec →
        (∀ incumbent, spec.finished = some incumbent →
          incumbent < spec.trees.length) →
        (∀ slice ∈ slices, ∀ id ∈ slice.children,
          id < spec.trees.length) →
        List.Perm slices slices' →
        Program.forEach (fun slice => acceptPath env slice.children) slices
            before = .ok ((), after) →
        Program.forEach (fun slice => acceptPath env' slice.children)
            slices' before' = .ok ((), after') →
        ChoseAlike after.spec after'.spec id id after.spec.finished
          after'.spec.finished

/-- What was finished before is kept among itself. -/
theorem kept_finished
    (spec : TFSpec) :
    Kept spec.rank spec.finished.toList spec.finished := by
  cases spec.finished with
  | none =>
      rfl
  | some incumbent =>
      exact IsFirst.singleton

/-- Over every arena of known trees, selecting follows an order. -/
theorem selectsInOrder
    {spec : TFSpec}
    (arena : KnownArena spec) :
    SelectsInOrder spec where
  sequence := by
    intro id within
    obtain ⟨keys, reads⟩ := arena.reads_tree within
    rw [reads.preorder_eq]
    exact reads
  answers := by
    intro a insideA b insideB
    obtain ⟨keys, reads⟩ := arena.reads_tree insideA
    obtain ⟨keys', reads'⟩ := arena.reads_tree insideB
    refine ⟨_, (answers_iff reads reads').mpr rfl, ?_⟩
    intro answer answered
    exact (answers_iff reads reads').mp answered
  ends := fun a insideA b insideB => arena.prefer_lasts insideA insideB
  inside := fun a insideA b insideB pairs walked =>
    arena.stacks_inside insideA insideB walked
  order := arena.strictWeakOrder
  asymmetric := by
    intro a insideA b insideB
    rw [arena.better_iff insideA insideB, arena.better_iff insideB insideA]
    exact lt_asymm
  incomparable := fun a insideA b insideB =>
    arena.incomparable_iff insideA insideB
  parent := by
    rintro env symbol childCount productionId base paths before result
      after rfl inside ran
    obtain ⟨candidates, proposed, arenaAfter, _, kept⟩ :=
      selectParent_chooses arena inside ran
    exact ⟨candidates, proposed,
      kept.firstBest arenaAfter (isParent_inside proposed)⟩
  root := by
    rintro env slices before after rfl finishedInside inside ran
    obtain ⟨candidates, proposed, arenaAfter, grown, kept⟩ :=
      acceptPaths_keep arena inside
        (fun candidate member =>
          finishedInside candidate (Option.mem_toList.mp member))
        (kept_finished _) ran
    refine ⟨candidates, proposed, Kept.firstBest arenaAfter ?_ kept⟩
    intro candidate member
    rcases List.mem_append.mp member with old | new
    · exact Nat.lt_of_lt_of_le
        (finishedInside candidate (Option.mem_toList.mp old))
        grown.trees.length_le
    · exact isRoot_inside proposed candidate new
  parentPermuted := by
    rintro env env' symbol childCount productionId base paths paths' before
      before' result result' after after' rfl same inside permuted ran ran'
    obtain ⟨candidates, proposed, arenaAfter, grown, kept⟩ :=
      selectParent_chooses arena inside ran
    have inside' :
        ∀ path ∈ paths', ∀ id ∈ path, id < before'.spec.trees.length := by
      rw [same]
      exact fun path member => inside path (permuted.symm.subset member)
    have arena' : KnownArena before'.spec := by
      rw [same]
      exact arena
    obtain ⟨candidates', proposed', arenaAfter', grown', kept'⟩ :=
      selectParent_chooses arena' inside' ran'
    have ranks := ranks_of_parents arena arenaAfter grown inside proposed
    have ranks' :=
      ranks_of_parents arena' arenaAfter' grown' inside' proposed'
    refine choseAlike_of_rank (kept.rank_eq kept' ?_)
    rw [ranks, ranks', same]
    exact permuted.map _
  rootPermuted := by
    rintro env env' slices slices' before before' after after' rfl same
      finishedInside inside permuted ran ran'
    have incumbentInside :
        ∀ candidate ∈ before.spec.finished.toList,
          candidate < before.spec.trees.length :=
      fun candidate member =>
        finishedInside candidate (Option.mem_toList.mp member)
    obtain ⟨candidates, proposed, arenaAfter, grown, kept⟩ :=
      acceptPaths_keep arena inside incumbentInside (kept_finished _) ran
    have inside' :
        ∀ slice ∈ slices', ∀ id ∈ slice.children,
          id < before'.spec.trees.length := by
      rw [same]
      exact fun slice member => inside slice (permuted.symm.subset member)
    have arena' : KnownArena before'.spec := by
      rw [same]
      exact arena
    obtain ⟨candidates', proposed', arenaAfter', grown', kept'⟩ :=
      acceptPaths_keep arena' inside'
        (by rw [same]; exact incumbentInside) (kept_finished _) ran'
    have ranks :=
      ranks_of_roots arena arenaAfter grown (parts_inside arena inside)
        proposed
    have ranks' :=
      ranks_of_roots arena' arenaAfter' grown' (parts_inside arena' inside')
        proposed'
    have incumbent :
        before.spec.finished.toList.map after'.spec.rank =
          before.spec.finished.toList.map after.spec.rank := by
      refine List.map_congr_left (fun candidate member => ?_)
      obtain ⟨keys, reads⟩ :=
        arena.reads_tree (incumbentInside candidate member)
      rw [rank_extend grown.trees reads,
        rank_extend (same ▸ grown'.trees) reads]
    refine choseAlike_of_rank (Kept.rank_eq kept kept' ?_)
    rw [List.map_append, List.map_append, same]
    simp only [Function.comp_id]
    rw [ranks, ranks', incumbent, same]
    exact ((permuted.filterMap _).map _).append_left _

/-- Two tokens of different symbols, and a tree over both. -/
def twoTokens : TFSpec :=
  { TFSpec.zero with
    trees := [
      { (default : TFSpecTree) with
        token := { TFToken.zero with symbol := 1 } },
      { (default : TFSpecTree) with
        token := { TFToken.zero with symbol := 2 } },
      { (default : TFSpecTree) with
        token := { TFToken.zero with symbol := 3 }
        children := [0, 1] }] }

/-- Its trees are known, and children come before their parents. -/
theorem twoTokens_known : KnownArena twoTokens where
  inside := by decide
  known := by decide
  wellFounded := by
    refine Subrelation.wf (fun {child parent} member => ?_)
      Nat.lt_wfRel.wf
    match parent with
    | 0 => cases member
    | 1 => cases member
    | 2 =>
        have two : child = 0 ∨ child = 1 := by
          simpa [twoTokens, TFSpec.tree] using member
        show child < 2
        omega
    | _ + 3 => cases member

/-- Selecting among its trees follows an order. -/
theorem selectsInOrder_twoTokens : SelectsInOrder twoTokens :=
  selectsInOrder twoTokens_known

end TFSpec

end TreeFeller
