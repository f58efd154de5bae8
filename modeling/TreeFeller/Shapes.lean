import Mathlib.Data.Prod.Lex
import Mathlib.Data.List.Lex
import Mathlib.Data.Int.Order.Basic
import Mathlib.Order.Defs.Unbundled
import TreeFeller.Speculation

namespace TreeFeller

open StatefulProgram

/-!
# Comparing the shapes of trees

Two trees of one precedence are compared by walking both in preorder.  The
walk compares the sequences of their symbols and child counts, and the
sequences are compared lexicographically: a tree's rank, its precedence and
then its sequence, lies in a linear order.
-/

/-- What the comparison reads of a tree: its symbol, and how many children. -/
abbrev ShapeKey : Type :=
  TSSymbol ×ₗ Nat

/-- What the comparison reads of a tree. -/
def TFSpecTree.shapeKey (self : TFSpecTree) : ShapeKey :=
  toLex (self.token.symbol, self.children.length)

namespace TFSpec

/-- A forest of known trees, read in preorder. -/
inductive Reads (self : TFSpec) : List Nat → List ShapeKey → Prop
  | done : Reads self [] []
  | tree
      {id : Nat}
      {rest : List Nat}
      {keys : List ShapeKey}
      (inside : id < self.trees.length)
      (known : (self.tree id).isOpaque = false)
      (later : Reads self ((self.tree id).children ++ rest) keys) :
      Reads self (id :: rest) ((self.tree id).shapeKey :: keys)

namespace Reads

variable {self : TFSpec}
variable {forest rest : List Nat}
variable {keys keys' : List ShapeKey}

/-- A forest is read in one way. -/
theorem unique
    (reads : Reads self forest keys)
    (reads' : Reads self forest keys') :
    keys = keys' := by
  induction reads generalizing keys' with
  | done =>
      cases reads'
      rfl
  | tree inside known later inductionHypothesis =>
      cases reads' with
      | tree inside' known' later' =>
          rw [inductionHypothesis later']

/-- Reading two forests one after the other. -/
theorem append
    (reads : Reads self forest keys)
    (reads' : Reads self rest keys') :
    Reads self (forest ++ rest) (keys ++ keys') := by
  induction reads with
  | done =>
      exact reads'
  | @tree id more own inside known later inductionHypothesis =>
      have whole :
          Reads self ((self.tree id).children ++ (more ++ rest))
            (own ++ keys') := by
        rw [← List.append_assoc]
        exact inductionHypothesis
      exact .tree inside known whole

/-- A forest is read part by part. -/
theorem split
    {both : List ShapeKey}
    (reads : Reads self (forest ++ rest) both) :
    ∃ keys keys',
      both = keys ++ keys' ∧
        Reads self forest keys ∧ Reads self rest keys' := by
  generalize whole : forest ++ rest = all at reads
  induction reads generalizing forest with
  | done =>
      obtain ⟨rfl, rfl⟩ := List.append_eq_nil_iff.mp whole
      exact ⟨[], [], rfl, .done, .done⟩
  | @tree id further keys inside known later inductionHypothesis =>
      cases forest with
      | nil =>
          rw [List.nil_append] at whole
          subst whole
          exact ⟨[], _, rfl, .done, .tree inside known later⟩
      | cons first more =>
          rw [List.cons_append] at whole
          injection whole with sameHead sameRest
          subst sameHead
          obtain ⟨own, others, rfl, ownReads, othersRead⟩ :=
            inductionHypothesis
              (show (self.tree first).children ++ more ++ rest = _ by
                rw [← sameRest, List.append_assoc])
          exact ⟨_, others, rfl, .tree inside known ownReads, othersRead⟩

/-- Every tree read has a key of its own. -/
theorem length_le (reads : Reads self forest keys) :
    forest.length ≤ keys.length := by
  induction reads with
  | done =>
      exact Nat.le_refl _
  | tree inside known later inductionHypothesis =>
      rw [List.length_append] at inductionHypothesis
      simp only [List.length_cons]
      omega

/-- Trees that are added change nothing that was read. -/
theorem extend
    {other : TFSpec}
    (more : self.trees <+: other.trees)
    (reads : Reads self forest keys) :
    Reads other forest keys := by
  induction reads with
  | done =>
      exact .done
  | @tree id rest keys inside known later inductionHypothesis =>
      have same : other.tree id = self.tree id := by
        obtain ⟨added, whole⟩ := more
        unfold TFSpec.tree
        rw [List.getD_eq_getElem?_getD, List.getD_eq_getElem?_getD,
          ← whole, List.getElem?_append_left inside]
      rw [← same] at known inductionHypothesis ⊢
      exact .tree (Nat.lt_of_lt_of_le inside more.length_le) known
        inductionHypothesis

end Reads

/-- An arena whose trees are well founded and of known shape. -/
structure KnownArena (spec : TFSpec) : Prop where
  inside :
    ∀ id < spec.trees.length,
      ∀ child ∈ (spec.tree id).children, child < spec.trees.length
  known : ∀ id < spec.trees.length, (spec.tree id).isOpaque = false
  wellFounded :
    WellFounded (fun child parent => child ∈ (spec.tree parent).children)

/-- In such an arena every tree can be read. -/
theorem KnownArena.reads_tree
    {self : TFSpec}
    (arena : KnownArena self)
    {id : Nat}
    (inside : id < self.trees.length) :
    ∃ keys, Reads self [id] keys := by
  induction id using arena.wellFounded.induction with
  | _ id inductionHypothesis =>
      have children :
          ∀ children ⊆ (self.tree id).children,
            ∃ keys, Reads self children keys := by
        intro children within
        induction children with
        | nil =>
            exact ⟨[], .done⟩
        | cons child rest restHypothesis =>
            have member := within (List.mem_cons_self ..)
            obtain ⟨own, ownReads⟩ :=
              inductionHypothesis child member
                (arena.inside id inside child member)
            obtain ⟨others, othersRead⟩ :=
              restHypothesis
                (fun other inRest =>
                  within (List.mem_cons_of_mem _ inRest))
            exact ⟨_, ownReads.append othersRead⟩
      obtain ⟨keys, reads⟩ := children _ (List.Subset.refl _)
      exact ⟨_, .tree inside (arena.known id inside)
        (by rw [List.append_nil]; exact reads)⟩

/-- In such an arena every forest can be read. -/
theorem KnownArena.reads
    {self : TFSpec}
    (arena : KnownArena self)
    {forest : List Nat}
    (inside : ∀ id ∈ forest, id < self.trees.length) :
    ∃ keys, Reads self forest keys := by
  induction forest with
  | nil =>
      exact ⟨[], .done⟩
  | cons id rest inductionHypothesis =>
      obtain ⟨own, ownReads⟩ := arena.reads_tree (inside id (by simp))
      obtain ⟨others, othersRead⟩ :=
        inductionHypothesis (fun other member => inside other (by simp [member]))
      exact ⟨_, ownReads.append othersRead⟩

open Classical in
/-- The preorder sequence of a forest's symbols and child counts. -/
noncomputable def preorder (self : TFSpec) (forest : List Nat) :
    List ShapeKey :=
  if readable : ∃ keys, Reads self forest keys then
    readable.choose
  else
    []

/-- What is read of a forest is its preorder sequence. -/
theorem Reads.preorder_eq
    {self : TFSpec}
    {forest : List Nat}
    {keys : List ShapeKey}
    (reads : Reads self forest keys) :
    self.preorder forest = keys := by
  have readable : ∃ keys, Reads self forest keys := ⟨keys, reads⟩
  unfold preorder
  rw [dif_pos readable]
  exact readable.choose_spec.unique reads

/-- Ranks: by precedence, and then a lesser sequence is better. -/
abbrev Rank : Type :=
  Int ×ₗ (List ShapeKey)ᵒᵈ

/-- The rank of a precedence and a sequence. -/
def rankOf (precedence : Int) (keys : List ShapeKey) : Rank :=
  toLex (precedence, OrderDual.toDual keys)

/-- The rank of a tree. -/
noncomputable def rank (self : TFSpec) (id : Nat) : Rank :=
  rankOf (self.tree id).precedence (self.preorder [id])

/-- A rank is lower for a lower precedence, or a greater sequence. -/
theorem rankOf_lt_iff
    {precedence precedence' : Int}
    {keys keys' : List ShapeKey} :
    rankOf precedence keys < rankOf precedence' keys' ↔
      precedence < precedence' ∨
        precedence = precedence' ∧ keys' < keys := by
  unfold rankOf
  rw [Prod.Lex.toLex_lt_toLex]
  rfl

/-- A common beginning does not matter for the order of sequences. -/
theorem append_lt_append_iff
    (common first second : List ShapeKey) :
    common ++ first < common ++ second ↔ first < second := by
  induction common with
  | nil =>
      rfl
  | cons key rest inductionHypothesis =>
      rw [List.cons_append, List.cons_append, List.cons_lt_cons_iff]
      simp [inductionHypothesis]

/-! ## Walking two trees -/

/-- The state with other room reserved, and after other requests. -/
def reserved
    (state : TFSpecState)
    (capacity : TFSpecArena → Nat)
    (heap : Heap) :
    TFSpecState :=
  { state with
    spec := state.spec.withCapacity capacity
    heap := heap }

/-- Reserving makes room, or gives the split up where there was none. -/
theorem reserve_cases
    (arena : TFSpecArena)
    (needed : Nat)
    (state : TFSpecState) :
    (∃ capacity heap,
      reserve arena needed state =
          .ok ((), reserved state capacity heap) ∧
        ∀ other, state.spec.capacity other ≤ capacity other) ∨
      (reserve arena needed state = .error .outOfMemory ∧
        state.spec.capacity arena < needed) := by
  have asked :
      asks (fun s => s.capacity arena) state =
        .ok (state.spec.capacity arena, state) :=
    rfl
  have served :
      allocate state =
        .ok (state.heap.allocate.1,
          { state with heap := state.heap.allocate.2 }) :=
    rfl
  unfold reserve
  rw [Program.bind_of_ok asked]
  by_cases fits : needed ≤ state.spec.capacity arena
  · rw [if_pos fits]
    exact Or.inl
      ⟨state.spec.capacity, state.heap, rfl, fun _ => Nat.le_refl _⟩
  · have short := Nat.lt_of_not_le fits
    rw [if_neg fits]
    by_cases huge : 2 ^ 32 ≤ grownCapacity (state.spec.capacity arena) needed
    · rw [if_pos huge]
      exact Or.inr ⟨rfl, short⟩
    · rw [if_neg huge, Program.bind_of_ok served]
      by_cases answered : state.heap.allocate.1 = true
      · rw [if_pos answered]
        refine Or.inl
          ⟨fun other =>
            if other = arena then
              grownCapacity (state.spec.capacity arena) needed
            else
              state.spec.capacity other,
            state.heap.allocate.2, rfl, ?_⟩
        intro other
        dsimp only
        split
        · rename_i same
          subst same
          exact Nat.le_trans (Nat.le_of_lt short) (le_grownCapacity _ _)
        · exact Nat.le_refl _
      · rw [if_neg answered]
        exact Or.inr ⟨rfl, short⟩

/-- How a comparison can end, given its answer and the room it may ask for. -/
inductive Compared
    (before : TFSpecState)
    (answer : Bool)
    (room fuel needed : Nat) :
    Except TFSpecStop (Bool × TFSpecState) → Prop where
  /-- It answers, and has changed capacities and asked the allocator only. -/
  | answered
      (capacity : TFSpecArena → Nat)
      (heap : Heap) :
      Compared before answer room fuel needed
        (.ok (answer, reserved before capacity heap))
  /-- There was no room for the stack. -/
  | full
      (short : before.spec.capacity .scratch < room) :
      Compared before answer room fuel needed (.error .outOfMemory)
  /-- The fuel did not last for the walk. -/
  | exhausted
      (short : fuel ≤ needed) :
      Compared before answer room fuel needed (.error .stuck)

/-- A comparison after some room was made, with less left to compare. -/
theorem Compared.after_reserve
    {before : TFSpecState}
    (capacity : TFSpecArena → Nat)
    (heap : Heap)
    {answer : Bool}
    {room room' fuel fuel' needed needed' : Nat}
    {result : Except TFSpecStop (Bool × TFSpecState)}
    (compared :
      Compared (reserved before capacity heap) answer room' fuel' needed'
        result)
    (more : before.spec.capacity .scratch ≤ capacity .scratch)
    (lessRoom : room' ≤ room)
    (lasts : fuel' ≤ needed' → fuel ≤ needed) :
    Compared before answer room fuel needed result := by
  cases compared with
  | answered capacity' heap' =>
      exact .answered capacity' heap'
  | full short =>
      refine .full ?_
      simp only [reserved, withCapacity] at short
      omega
  | exhausted short =>
      exact .exhausted (lasts short)

/-- One comparison of the walk. -/
def preferStep
    (materialize : SpecM Unit)
    (pairs : List (Nat × Nat)) :
    SpecM (List (Nat × Nat) ⊕ Bool) :=
  match pairs with
  | [] => pure (.inr false)
  | (left, right) :: rest => do
      if left = right then
        pure (.inl rest)
      else
        let x ← asks (fun s => s.tree left)
        let y ← asks (fun s => s.tree right)
        if x.token.symbol ≠ y.token.symbol then
          pure (.inr (decide (y.token.symbol < x.token.symbol)))
        else
          if x.isOpaque || y.isOpaque then
            materialize
          let x ← asks (fun s => s.tree left)
          let y ← asks (fun s => s.tree right)
          if x.children.length ≠ y.children.length then
            pure (.inr (decide (y.children.length < x.children.length)))
          else
            reserve .scratch (2 * rest.length + 2 * x.children.length)
            pure (.inl (x.children.zip y.children ++ rest))

/-- The walk repeats its step. -/
theorem preferShapes_eq
    (materialize : SpecM Unit)
    (fuel : Nat)
    (pairs : List (Nat × Nat)) :
    preferShapes materialize fuel pairs =
      Program.iterate .stuck (preferStep materialize) fuel pairs :=
  rfl

section Step

variable (materialize : SpecM Unit)
variable {left right : Nat}
variable (rest : List (Nat × Nat))
variable (state : TFSpecState)

/-- Trees of different symbols are told apart by them. -/
theorem preferStep_symbols
    (apart : left ≠ right)
    (symbols :
      (state.spec.tree left).token.symbol ≠
        (state.spec.tree right).token.symbol) :
    preferStep materialize ((left, right) :: rest) state =
      .ok (.inr (decide ((state.spec.tree right).token.symbol <
        (state.spec.tree left).token.symbol)), state) := by
  have readLeft :
      asks (fun s => s.tree left) state =
        .ok (state.spec.tree left, state) :=
    rfl
  have readRight :
      asks (fun s => s.tree right) state =
        .ok (state.spec.tree right, state) :=
    rfl
  simp only [preferStep]
  rw [if_neg apart, Program.bind_of_ok readLeft,
    Program.bind_of_ok readRight, if_pos symbols]
  rfl

/-- Known trees of one symbol are told apart by their child counts. -/
theorem preferStep_children
    (apart : left ≠ right)
    (symbols :
      (state.spec.tree left).token.symbol =
        (state.spec.tree right).token.symbol)
    (knownLeft : (state.spec.tree left).isOpaque = false)
    (knownRight : (state.spec.tree right).isOpaque = false) :
    preferStep materialize ((left, right) :: rest) state =
      let x := state.spec.tree left
      let y := state.spec.tree right
      if x.children.length ≠ y.children.length then
        .ok (.inr (decide (y.children.length < x.children.length)), state)
      else
        (reserve .scratch (2 * rest.length + 2 * x.children.length) >>=
          fun _ => pure (.inl (x.children.zip y.children ++ rest)))
            state := by
  have readLeft :
      asks (fun s => s.tree left) state =
        .ok (state.spec.tree left, state) :=
    rfl
  have readRight :
      asks (fun s => s.tree right) state =
        .ok (state.spec.tree right, state) :=
    rfl
  simp only [preferStep]
  rw [if_neg apart, Program.bind_of_ok readLeft,
    Program.bind_of_ok readRight, if_neg (by simpa using symbols)]
  simp only [knownLeft, knownRight, Bool.or_self, Bool.false_eq_true,
    if_false]
  rw [Program.bind_of_ok readLeft, Program.bind_of_ok readRight]
  split <;> rfl

end Step

/-- A sequence is less if its first key is, or if its rest is. -/
theorem decide_cons_lt
    (x y : TFSpecTree)
    (keys keys' : List ShapeKey) :
    (y.shapeKey :: keys' < x.shapeKey :: keys) ↔
      y.token.symbol < x.token.symbol ∨
        y.token.symbol = x.token.symbol ∧
          (y.children.length < x.children.length ∨
            y.children.length = x.children.length ∧ keys' < keys) := by
  rw [List.cons_lt_cons_iff]
  unfold TFSpecTree.shapeKey
  rw [Prod.Lex.toLex_lt_toLex]
  simp only [EmbeddingLike.apply_eq_iff_eq, Prod.mk.injEq]
  constructor
  · rintro ((less | ⟨same, less⟩) | ⟨⟨same, count⟩, less⟩)
    · exact Or.inl less
    · exact Or.inr ⟨same, Or.inl less⟩
    · exact Or.inr ⟨same, Or.inr ⟨count, less⟩⟩
  · rintro (less | ⟨same, less | ⟨count, less⟩⟩)
    · exact Or.inl (Or.inl less)
    · exact Or.inl (Or.inr ⟨same, less⟩)
    · exact Or.inr ⟨⟨same, count⟩, less⟩

/-- The pairs of two forests' trees, and what is left below them. -/
theorem zip_append
    {first second : List Nat}
    (same : first.length = second.length)
    (rest rest' : List Nat) :
    first.zip second ++ rest.zip rest' =
      (first ++ rest).zip (second ++ rest') :=
  (List.zip_append same).symm

/--
The walk compares two forests of as many trees by their sequences.  It answers
if the fuel lasts for the sequence and the stack finds room for it.
-/
theorem preferShapes_compared
    (materialize : SpecM Unit)
    {spec : TFSpec}
    {left right : List Nat}
    {keys keys' : List ShapeKey}
    (readsLeft : Reads spec left keys)
    (readsRight : Reads spec right keys')
    (same : left.length = right.length)
    (fuel : Nat)
    (state : TFSpecState)
    (graph : ∃ capacity, state.spec = spec.withCapacity capacity) :
    Compared state (decide (keys' < keys)) (2 * keys.length) fuel
      keys.length
      (preferShapes materialize fuel (left.zip right) state) := by
  induction fuel generalizing left right keys keys' state with
  | zero =>
      exact .exhausted (Nat.zero_le _)
  | succ fuel inductionHypothesis =>
      rw [preferShapes_eq]
      obtain ⟨capacity, graphEq⟩ := graph
      have tree : ∀ id, state.spec.tree id = spec.tree id := by
        intro id
        rw [graphEq]
        rfl
      cases readsLeft with
      | done =>
          have none : right = [] := by
            simpa using same.symm
          subst none
          cases readsRight
          rw [List.zip_nil_left]
          have ended :
              preferStep materialize [] state = .ok (.inr false, state) :=
            rfl
          rw [Program.iterate_answer ended]
          exact .answered state.spec.capacity state.heap
      | @tree id rest own inside known later =>
          cases readsRight with
          | done =>
              cases same
          | @tree id' rest' own' inside' known' later' =>
              have sameRest : rest.length = rest'.length := by
                simpa using same
              rw [List.zip_cons_cons]
              by_cases apart : id = id'
              · subst apart
                obtain ⟨below, others, rfl, readsBelow, readsRest⟩ :=
                  later.split
                obtain ⟨below', others', rfl, readsBelow', readsRest'⟩ :=
                  later'.split
                have sameBelow := readsBelow.unique readsBelow'
                subst sameBelow
                have skipped :
                    preferStep materialize
                        ((id, id) :: rest.zip rest') state =
                      .ok (.inl (rest.zip rest'), state) := by
                  simp only [preferStep, if_true]
                  rfl
                rw [Program.iterate_next skipped]
                have compared :=
                  inductionHypothesis readsRest readsRest' sameRest state
                    ⟨capacity, graphEq⟩
                have answer :
                    decide
                        ((spec.tree id).shapeKey :: (below ++ others') <
                          (spec.tree id).shapeKey :: (below ++ others)) =
                      decide (others' < others) := by
                  rw [decide_eq_decide, ← List.cons_append,
                    ← List.cons_append]
                  exact append_lt_append_iff _ _ _
                rw [answer]
                refine
                  Compared.after_reserve state.spec.capacity state.heap
                    compared (Nat.le_refl _) ?_ ?_
                · simp only [List.length_cons, List.length_append]
                  omega
                · simp only [List.length_cons, List.length_append]
                  omega
              · by_cases symbols :
                    (spec.tree id).token.symbol =
                      (spec.tree id').token.symbol
                · have stepped :=
                    preferStep_children materialize (rest.zip rest')
                      state apart
                      (by rw [tree, tree, symbols])
                      (by rw [tree, known]) (by rw [tree, known'])
                  simp only [tree] at stepped
                  by_cases counts :
                      (spec.tree id).children.length =
                        (spec.tree id').children.length
                  · rw [if_neg (by simpa using counts)] at stepped
                    have answer :
                        decide
                            ((spec.tree id').shapeKey :: own' <
                              (spec.tree id).shapeKey :: own) =
                          decide (own' < own) := by
                      rw [decide_eq_decide, decide_cons_lt]
                      simp [symbols, counts]
                    have below := later.length_le
                    rw [List.length_append] at below
                    have pairs : (rest.zip rest').length = rest.length := by
                      simp [sameRest]
                    rw [answer]
                    rw [pairs] at stepped
                    rcases reserve_cases .scratch
                        (2 * rest.length +
                          2 * (spec.tree id).children.length) state with
                      ⟨capacity', heap, made, more⟩ | ⟨full, short⟩
                    · rw [Program.bind_of_ok made] at stepped
                      rw [Program.iterate_next stepped, zip_append counts]
                      have compared :=
                        inductionHypothesis later later'
                          (by simp [counts, sameRest])
                          (reserved state capacity' heap)
                          ⟨capacity', by simp [reserved, graphEq]⟩
                      refine
                        Compared.after_reserve capacity' heap compared
                          (more .scratch) ?_ ?_
                      · simp only [List.length_cons]
                        omega
                      · simp only [List.length_cons]
                        omega
                    · rw [Program.bind_of_error full] at stepped
                      rw [Program.iterate_stopped stepped]
                      refine .full ?_
                      simp only [List.length_cons]
                      omega
                  · rw [if_pos counts] at stepped
                    rw [Program.iterate_answer stepped]
                    have answer :
                        decide
                            ((spec.tree id').shapeKey :: own' <
                              (spec.tree id).shapeKey :: own) =
                          decide ((spec.tree id').children.length <
                            (spec.tree id).children.length) := by
                      rw [decide_eq_decide, decide_cons_lt]
                      have apartCounts := Ne.symm counts
                      simp [symbols, apartCounts]
                    rw [answer]
                    exact .answered state.spec.capacity state.heap
                · have stepped :=
                    preferStep_symbols materialize (rest.zip rest') state
                      apart
                      (by rw [tree, tree]; exact symbols)
                  rw [Program.iterate_answer stepped, tree, tree]
                  have answer :
                      decide
                          ((spec.tree id').shapeKey :: own' <
                            (spec.tree id).shapeKey :: own) =
                        decide ((spec.tree id').token.symbol <
                          (spec.tree id).token.symbol) := by
                    rw [decide_eq_decide, decide_cons_lt]
                    have apartSymbols := Ne.symm symbols
                    simp [apartSymbols]
                  rw [answer]
                  exact .answered state.spec.capacity state.heap

/-- Comparing two trees compares their ranks. -/
theorem prefer_compared
    (materialize : SpecM Unit)
    {spec : TFSpec}
    {a b : Nat}
    {keys keys' : List ShapeKey}
    (reads : Reads spec [a] keys)
    (reads' : Reads spec [b] keys')
    (fuel : Nat)
    (state : TFSpecState)
    (graph : ∃ capacity, state.spec = spec.withCapacity capacity) :
    Compared state (decide (spec.rank a < spec.rank b)) (2 * keys.length)
      fuel keys.length (prefer materialize fuel (some a) b state) := by
  have tree : ∀ id, state.spec.tree id = spec.tree id := by
    obtain ⟨capacity, graphEq⟩ := graph
    intro id
    rw [graphEq]
    rfl
  have readA :
      asks (fun s => s.tree a) state = .ok (spec.tree a, state) := by
    rw [← tree]
    rfl
  have readB :
      asks (fun s => s.tree b) state = .ok (spec.tree b, state) := by
    rw [← tree]
    rfl
  have order :
      spec.rank a < spec.rank b ↔
        (spec.tree a).precedence < (spec.tree b).precedence ∨
          (spec.tree a).precedence = (spec.tree b).precedence ∧
            keys' < keys := by
    unfold rank
    rw [rankOf_lt_iff, reads.preorder_eq, reads'.preorder_eq]
  simp only [prefer]
  rw [Program.bind_of_ok readA, Program.bind_of_ok readB]
  by_cases differ :
      (spec.tree a).precedence ≠ (spec.tree b).precedence
  · rw [if_pos differ]
    have answer :
        decide (spec.rank a < spec.rank b) =
          decide ((spec.tree a).precedence <
            (spec.tree b).precedence) := by
      rw [decide_eq_decide, order]
      simp [differ]
    rw [answer]
    exact .answered state.spec.capacity state.heap
  · rw [if_neg differ]
    have answer :
        decide (spec.rank a < spec.rank b) = decide (keys' < keys) := by
      rw [decide_eq_decide, order]
      simp [not_not.mp differ]
    have one := reads.length_le
    simp only [List.length_singleton] at one
    rw [answer]
    rcases reserve_cases .scratch 2 state with
      ⟨capacity, heap, made, more⟩ | ⟨full, short⟩
    · rw [Program.bind_of_ok made]
      have compared :=
        preferShapes_compared materialize reads reads' rfl fuel
          (reserved state capacity heap)
          (by
            obtain ⟨first, graphEq⟩ := graph
            exact ⟨capacity, by simp [reserved, graphEq]⟩)
      exact compared.after_reserve capacity heap (more .scratch)
        (Nat.le_refl _) id
    · rw [Program.bind_of_error full]
      exact .full (by omega)

end TFSpec

end TreeFeller
