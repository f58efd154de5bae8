import TreeFeller.Visible
import Mathlib.Data.List.Nodup
import Mathlib.Data.List.Perm.Subperm

/-!
# The slab behind the Rust interface

The parser can only carry a pointer per node, so the Rust side keeps a
visitor's values in a slab and hands out their handles.  A slot is emptied when
a parent consumes its child and filled again by a later value, the last one
emptied first.

A handle is a slot's number plus one, which the source cuts to 32 bits; no
parse has that many values at once.  The vector of free slots ends where its
list does.
-/

namespace TreeFeller

/-- Values by slot, and the slots that are empty. -/
structure Slab (V : Type) where
  items : List (Option V)
  free : List Nat
  deriving Repr, DecidableEq

namespace Slab

variable {V : Type}

/-- A slab without slots. -/
def new : Slab V :=
  ⟨[], []⟩

/-- Put a value in the slot emptied last, or in a new one: its handle. -/
def insert (self : Slab V) (value : V) : Nat × Slab V :=
  match self.free.getLast? with
  | some index =>
      (index + 1,
        ⟨self.items.set index (some value), self.free.dropLast⟩)
  | none =>
      (self.items.length + 1, ⟨self.items ++ [some value], self.free⟩)

/-- Take a value out by its handle; the null pointer is no handle. -/
def take (self : Slab V) (handle : Option Nat) : Option V × Slab V :=
  match handle.getD 0 with
  | 0 => (none, self)
  | index + 1 =>
      match self.items[index]? with
      | some (some value) =>
          (some value,
            ⟨self.items.set index none, self.free ++ [index]⟩)
      | _ => (none, self)

/-- How many slots are free. -/
def mark (self : Slab V) : Nat :=
  self.free.length

/-- Put a value back where it came from. -/
def restore (self : Slab V) (handle : Option Nat) (value : V) : Slab V :=
  { self with items := self.items.set (handle.getD 0 - 1) (some value) }

/-- Undo the frees since a mark. -/
def rollback (self : Slab V) (mark : Nat) : Slab V :=
  { self with free := self.free.take mark }

end Slab

/-- A child and the value its visitor made of it. -/
structure Child (V : Type) where
  symbol : TSSymbol
  fieldId : TSFieldId
  extra : Bool
  value : V
  deriving Repr, DecidableEq

/--
A visitor with its own state `ω`.  `hidden` also says what it leaves in the
vector of children.
-/
structure Visit (ω V : Type) where
  node : TFVisibleNode Unit → List (Child V) → ω → V × ω
  hidden :
    TFVisibleNode Unit → List (Child V) → ω →
      Option V × List (Child V) × ω

/-- A visitor that leaves the children as it found them when it declines. -/
def Visit.Polite {ω V : Type} (visit : Visit ω V) : Prop :=
  ∀ node children state,
    (visit.hidden node children state).1 = none →
      (visit.hidden node children state).2.1 = children

/-- A call of the visitor, as the slab has seen it. -/
structure SlabCall (V : Type) where
  fold : Bool
  node : TFVisibleNode Nat
  /-- The children's handles and the values taken out for them. -/
  given : List (Nat × V)
  /-- The value the visitor returned and the handle it got. -/
  answer : Option (Nat × V)
  before : Slab V
  after : Slab V

/-- What the callbacks share; the journal is recorded only. -/
structure State (ω V : Type) where
  visit : ω
  values : Slab V
  panicked : Bool
  journal : List (SlabCall V)

/-- The state a parse starts with. -/
def State.initial {ω V : Type} (visit : ω) : State ω V where
  visit := visit
  values := .new
  panicked := false
  journal := []

namespace Slab

variable {V : Type}

/-- Take the children's values out, up to the first that has none. -/
def takeAll :
    List (TFVisibleChild Nat) → Slab V → Option (List (Child V)) × Slab V
  | [], self => (some [], self)
  | child :: rest, self =>
      match self.take child.value with
      | (none, self) => (none, self)
      | (some value, self) =>
          let later := takeAll rest self
          (later.1.map
              (⟨child.symbol, child.fieldId, child.extra, value⟩ :: ·),
            later.2)

/-- Put children's values back under the handles they arrived with. -/
def restoreAll
    (self : Slab V)
    (children : List (Child V))
    (handles : List (TFVisibleChild Nat)) :
    Slab V :=
  (children.zip handles).foldl
    (fun slab pair => slab.restore pair.2.value pair.1.value) self

end Slab

/-- The handles of a node's children with the values taken out for them. -/
def givenValues {V : Type}
    (handles : List (TFVisibleChild Nat))
    (children : List (Child V)) :
    List (Nat × V) :=
  List.zipWith (fun handle child => (handle.value.getD 0, child.value))
    handles children

/--
Collect a node's children out of the slab and hand them to the visitor.  A
child without a value is a panic, after which no call does anything.
-/
def dispatch {ω V : Type}
    (visit : Visit ω V)
    (fold : Bool)
    (node : TFVisibleNode Nat)
    (state : State ω V) :
    Option Nat × State ω V :=
  if state.panicked then
    (none, state)
  else
    let mark := state.values.mark
    match Slab.takeAll node.children state.values with
    | (none, values) =>
        (none, { state with values := values, panicked := true })
    | (some children, values) =>
        let answer : Option V × List (Child V) × ω :=
          if fold then
            visit.hidden node.head children state.visit
          else
            let made := visit.node node.head children state.visit
            (some made.1, children, made.2)
        let called (values : Slab V) (answered : Option (Nat × V)) :
            State ω V :=
          {
            visit := answer.2.2
            values := values
            panicked := false
            journal :=
              state.journal ++
                [⟨fold, node, givenValues node.children children, answered,
                  state.values, values⟩]
          }
        match answer.1 with
        | some value =>
            let inserted := values.insert value
            (some inserted.1,
              called inserted.2 (some (inserted.1, value)))
        | none =>
            let restored :=
              (values.restoreAll answer.2.1 node.children).rollback mark
            (none, called restored none)

/-- The sink the Rust side installs: it takes nothing back. -/
def dispatchSink {ω V : Type}
    (visit : Visit ω V)
    (namedOnly : Bool) :
    TFVisibleSink (State ω V) Nat where
  onNode := some (dispatch visit false)
  onHidden := some (dispatch visit true)
  onDiscard := none
  namedOnly := namedOnly

/-- What `parse_with` comes to. -/
inductive ParseOutcome (V : Type) where
  /-- A panic, raised again once C is done. -/
  | panicked
  | failed (error : Option TFError)
  /-- The grammar's root rule is not a visible node. -/
  | unrooted
  | value (root : V)

/-- What `parse_with` makes of a filtered parse. -/
def ParseOutcome.ofResult {ω V : Type}
    (result : TFVisibleResult (State ω V) Nat) :
    ParseOutcome V :=
  let state := result.filter.consumer.payload
  if state.panicked then
    .panicked
  else if !result.ok then
    .failed result.error
  else
    match (state.values.take result.root).1 with
    | some root => .value root
    | none => .unrooted

/-!
## What stands in a slab

A value put into the slab is a deposit until a call takes it out for good.  It
is named by the number of the call that made it, its birth, since handles are
used again and values may be equal.
-/

/-- A value in the slab: its handle and the number of the call it is from. -/
structure Deposit (V : Type) where
  handle : Nat
  birth : Nat
  value : V
  deriving Repr, DecidableEq

namespace Slab

variable {V : Type}

/-- A slab that holds some deposits and nothing else. -/
structure Tracks (slab : Slab V) (deposits : List (Deposit V)) : Prop where
  handles : (deposits.map Deposit.handle).Nodup
  /-- A deposit's handle leads to its value. -/
  resolves :
    ∀ deposit ∈ deposits,
      ∃ index,
        deposit.handle = index + 1 ∧
          slab.items[index]? = some (some deposit.value)
  /-- Every value in a slot is a deposit's. -/
  deposited :
    ∀ index value,
      slab.items[index]? = some (some value) →
        index + 1 ∈ deposits.map Deposit.handle
  /-- The free list has each empty slot exactly once. -/
  freeNodup : slab.free.Nodup
  mem_free :
    ∀ index, index ∈ slab.free ↔ slab.items[index]? = some none

/-- A new slab holds nothing. -/
theorem Tracks.new : Tracks (Slab.new : Slab V) [] where
  handles := List.nodup_nil
  resolves := by simp
  deposited := by simp [Slab.new]
  freeNodup := List.nodup_nil
  mem_free := by simp [Slab.new]

variable {slab : Slab V}
variable {deposits : List (Deposit V)}

/-- A deposit is taken out by its handle. -/
theorem Tracks.take
    (tracks : slab.Tracks deposits)
    {deposit : Deposit V}
    (stands : deposit ∈ deposits) :
    (slab.take (some deposit.handle)).1 = some deposit.value ∧
      (slab.take (some deposit.handle)).2.Tracks
        (deposits.filter
          (fun other => decide (other.handle ≠ deposit.handle))) := by
  obtain ⟨index, handle, present⟩ := tracks.resolves deposit stands
  have inRange : index < slab.items.length := by
    by_contra outside
    rw [List.getElem?_eq_none (Nat.le_of_not_lt outside)] at present
    cases present
  have taken :
      slab.take (some deposit.handle) =
        (some deposit.value,
          ⟨slab.items.set index none, slab.free ++ [index]⟩) := by
    simp only [Slab.take, Option.getD_some, handle, present]
  rw [taken]
  refine ⟨rfl, ?_, ?_, ?_, ?_, ?_⟩
  · exact tracks.handles.sublist (List.filter_sublist.map _)
  · intro other member
    obtain ⟨isDeposit, differs⟩ := List.mem_filter.mp member
    obtain ⟨place, otherHandle, standsThere⟩ :=
      tracks.resolves other isDeposit
    have apart : index ≠ place := by
      rintro rfl
      exact of_decide_eq_true differs (otherHandle.trans handle.symm)
    refine ⟨place, otherHandle, ?_⟩
    rw [List.getElem?_set_ne apart]
    exact standsThere
  · intro place value standsThere
    rw [List.getElem?_set] at standsThere
    split at standsThere
    · cases standsThere
    · rename_i apart
      obtain ⟨other, isDeposit, otherHandle⟩ :=
        List.mem_map.mp (tracks.deposited place value standsThere)
      refine List.mem_map.mpr ⟨other, ?_, otherHandle⟩
      refine List.mem_filter.mpr ⟨isDeposit, decide_eq_true ?_⟩
      rw [otherHandle, handle]
      omega
  · have notFree : index ∉ slab.free := by
      rw [tracks.mem_free, present]
      simp
    exact List.nodup_append.mpr
      ⟨tracks.freeNodup, List.nodup_singleton _, by
        intro place member other isOther
        rw [List.mem_singleton.mp isOther]
        rintro rfl
        exact notFree member⟩
  · intro place
    rw [List.mem_append, List.mem_singleton, tracks.mem_free,
      List.getElem?_set]
    by_cases same : index = place
    · subst same
      simp [inRange]
    · simp [same, Ne.symm same]

/-- A new value gets a handle that no deposit has. -/
theorem Tracks.insert
    (tracks : slab.Tracks deposits)
    (birth : Nat)
    (value : V) :
    (slab.insert value).2.Tracks
      (⟨(slab.insert value).1, birth, value⟩ :: deposits) := by
  rcases List.eq_nil_or_concat slab.free with
    noneFree | ⟨others, index, free⟩
  · have inserted :
        slab.insert value =
          (slab.items.length + 1,
            ⟨slab.items ++ [some value], slab.free⟩) := by
      simp [Slab.insert, noneFree]
    rw [inserted]
    have within :
        ∀ deposit ∈ deposits, deposit.handle ≠ slab.items.length + 1 := by
      intro deposit member same
      obtain ⟨place, handle, standsThere⟩ := tracks.resolves deposit member
      have atEnd : place = slab.items.length := by omega
      rw [atEnd, List.getElem?_eq_none (Nat.le_refl _)] at standsThere
      cases standsThere
    refine ⟨?_, ?_, ?_, tracks.freeNodup, ?_⟩
    · refine List.nodup_cons.mpr ⟨?_, tracks.handles⟩
      intro member
      obtain ⟨deposit, isDeposit, same⟩ := List.mem_map.mp member
      exact within deposit isDeposit same
    · intro deposit member
      rcases List.mem_cons.mp member with rfl | old
      · exact ⟨slab.items.length, rfl, by simp⟩
      · obtain ⟨place, handle, standsThere⟩ := tracks.resolves deposit old
        refine ⟨place, handle, ?_⟩
        rw [List.getElem?_append]
        split
        · exact standsThere
        · rename_i outside
          rw [List.getElem?_eq_none (Nat.le_of_not_lt outside)]
            at standsThere
          cases standsThere
    · intro place found standsThere
      rw [List.map_cons, List.mem_cons]
      rw [List.getElem?_append] at standsThere
      split at standsThere
      · exact Or.inr (tracks.deposited place found standsThere)
      · rename_i outside
        refine Or.inl ?_
        by_contra other
        have beyond : 1 ≤ place - slab.items.length := by
          have apart : place ≠ slab.items.length :=
            fun same => other (congrArg (· + 1) same)
          omega
        rw [List.getElem?_eq_none (by simpa using beyond)] at standsThere
        cases standsThere
    · intro place
      rw [tracks.mem_free, List.getElem?_append]
      split
      · rfl
      · rename_i outside
        rw [List.getElem?_eq_none (Nat.le_of_not_lt outside)]
        cases place - slab.items.length <;> simp
  · rw [List.concat_eq_append] at free
    have inserted :
        slab.insert value =
          (index + 1, ⟨slab.items.set index (some value), others⟩) := by
      simp [Slab.insert, free]
    have empty : slab.items[index]? = some none := by
      rw [← tracks.mem_free, free]
      simp
    have inRange : index < slab.items.length := by
      by_contra outside
      rw [List.getElem?_eq_none (Nat.le_of_not_lt outside)] at empty
      cases empty
    have freeNodup := tracks.freeNodup
    rw [free] at freeNodup
    obtain ⟨othersNodup, _, apart⟩ := List.nodup_append.mp freeNodup
    rw [inserted]
    refine ⟨?_, ?_, ?_, othersNodup, ?_⟩
    · refine List.nodup_cons.mpr ⟨?_, tracks.handles⟩
      intro member
      obtain ⟨deposit, isDeposit, same⟩ := List.mem_map.mp member
      obtain ⟨place, handle, standsThere⟩ :=
        tracks.resolves deposit isDeposit
      have atIndex : place = index := by
        simp only at same
        omega
      rw [atIndex, empty] at standsThere
      cases standsThere
    · intro deposit member
      rcases List.mem_cons.mp member with rfl | old
      · exact ⟨index, rfl, by simp [inRange]⟩
      · obtain ⟨place, handle, standsThere⟩ := tracks.resolves deposit old
        refine ⟨place, handle, ?_⟩
        rw [List.getElem?_set_ne]
        · exact standsThere
        · rintro rfl
          rw [empty] at standsThere
          cases standsThere
    · intro place found standsThere
      rw [List.map_cons, List.mem_cons]
      rw [List.getElem?_set] at standsThere
      split at standsThere
      · rename_i same
        exact Or.inl (congrArg (· + 1) same.symm)
      · exact Or.inr (tracks.deposited place found standsThere)
    · intro place
      rw [List.getElem?_set]
      by_cases same : index = place
      · subst same
        have gone : index ∉ others :=
          fun member => apart index member index (by simp) rfl
        simp [inRange, gone]
      · rw [if_neg same, ← tracks.mem_free, free]
        simp [Ne.symm same]

/-- With no slot free, a slab has as many slots as deposits. -/
theorem Tracks.length_le
    (tracks : slab.Tracks deposits)
    (noneFree : slab.free = []) :
    slab.items.length ≤ deposits.length := by
  have within :
      (List.range slab.items.length).map (· + 1) ⊆
        deposits.map Deposit.handle := by
    intro handle member
    obtain ⟨index, inRange, rfl⟩ := List.mem_map.mp member
    rw [List.mem_range] at inRange
    cases item : slab.items[index] with
    | none =>
        have empty : slab.items[index]? = some none := by
          rw [List.getElem?_eq_getElem inRange, item]
        rw [← tracks.mem_free, noneFree] at empty
        cases empty
    | some value =>
        refine tracks.deposited index value ?_
        rw [List.getElem?_eq_getElem inRange, item]
  have distinct :
      ((List.range slab.items.length).map (· + 1)).Nodup :=
    List.nodup_range.map (fun _ _ same => Nat.succ.inj same)
  have bound := (distinct.subperm within).length_le
  simpa using bound

/-!
## Declining

Taking children out and putting them back is undone exactly: a slot that has
been emptied is not emptied again, so the writes of the way back fall on
different slots, and the frees since the mark are those of the children.
-/

/-- The slot a handle leads to. -/
def slotOf (child : TFVisibleChild Nat) : Nat :=
  child.value.getD 0 - 1

/-- What taking a value out does. -/
theorem take_some
    {handle : Option Nat}
    {value : V}
    {after : Slab V}
    (taken : slab.take handle = (some value, after)) :
    ∃ index,
      handle = some (index + 1) ∧
        slab.items[index]? = some (some value) ∧
        after = ⟨slab.items.set index none, slab.free ++ [index]⟩ := by
  unfold Slab.take at taken
  split at taken
  · cases taken
  · rename_i index isHandle
    split at taken
    · rename_i found present
      obtain ⟨sameValue, sameSlab⟩ := Prod.mk.inj taken
      cases Option.some.inj sameValue
      refine ⟨index, ?_, present, sameSlab.symm⟩
      cases handle with
      | none =>
          cases isHandle
      | some pointer =>
          exact congrArg some isHandle
    · cases taken

/-- How a run of children is taken out: the first one, then the others. -/
theorem takeAll_cons
    {child : TFVisibleChild Nat}
    {rest : List (TFVisibleChild Nat)}
    {children : List (Child V)}
    {after : Slab V}
    (taken : takeAll (child :: rest) slab = (some children, after)) :
    ∃ value between later,
      slab.take child.value = (some value, between) ∧
        takeAll rest between = (some later, after) ∧
        children =
          ⟨child.symbol, child.fieldId, child.extra, value⟩ :: later := by
  unfold takeAll at taken
  split at taken
  · cases taken
  · rename_i value between first
    obtain ⟨mapped, same⟩ := Prod.mk.inj taken
    obtain ⟨later, isLater, joined⟩ := Option.map_eq_some_iff.mp mapped
    exact ⟨value, between, later, first,
      Prod.ext isLater same, joined.symm⟩

/-- Children that can all be taken out stand in full slots. -/
theorem present_of_takeAll
    {handles : List (TFVisibleChild Nat)}
    {children : List (Child V)}
    {after : Slab V}
    (taken : takeAll handles slab = (some children, after)) :
    ∀ handle ∈ handles,
      ∃ value, slab.items[slotOf handle]? = some (some value) := by
  induction handles generalizing slab children with
  | nil =>
      simp
  | cons child rest inductionHypothesis =>
      obtain ⟨value, between, later, first, others, _⟩ :=
        takeAll_cons taken
      obtain ⟨index, isHandle, present, rfl⟩ := take_some first
      intro handle member
      rcases List.mem_cons.mp member with rfl | old
      · exact ⟨value, by simpa [slotOf, isHandle] using present⟩
      · obtain ⟨found, standsThere⟩ :=
          inductionHypothesis others handle old
        refine ⟨found, ?_⟩
        rw [List.getElem?_set] at standsThere
        split at standsThere
        · split at standsThere <;> cases standsThere
        · exact standsThere

/-- Taking children out frees their slots, in order. -/
theorem takeAll_frees
    {handles : List (TFVisibleChild Nat)}
    {children : List (Child V)}
    {after : Slab V}
    (taken : takeAll handles slab = (some children, after)) :
    after.free = slab.free ++ handles.map slotOf ∧
      after.items.length = slab.items.length := by
  induction handles generalizing slab children with
  | nil =>
      obtain ⟨_, rfl⟩ := Prod.mk.inj taken
      simp
  | cons child rest inductionHypothesis =>
      obtain ⟨value, between, later, first, others, _⟩ :=
        takeAll_cons taken
      obtain ⟨index, isHandle, _, rfl⟩ := take_some first
      obtain ⟨frees, sameLength⟩ := inductionHypothesis others
      refine ⟨?_, by simpa using sameLength⟩
      rw [frees]
      simp [slotOf, isHandle]

/-- Writes to different slots may be made in either order. -/
theorem restoreAll_restore
    (children : List (Child V))
    (handles : List (TFVisibleChild Nat))
    (index : Nat)
    (value : V)
    (apart : ∀ handle ∈ handles, slotOf handle ≠ index)
    (self : Slab V) :
    (self.restore (some (index + 1)) value).restoreAll children handles =
      (self.restoreAll children handles).restore (some (index + 1))
        value := by
  induction children generalizing self handles with
  | nil =>
      rfl
  | cons child rest inductionHypothesis =>
      cases handles with
      | nil =>
          rfl
      | cons handle others =>
          have swapped :
              (self.restore (some (index + 1)) value).restore handle.value
                  child.value =
                (self.restore handle.value child.value).restore
                  (some (index + 1)) value := by
            simp only [Slab.restore, Option.getD_some,
              Nat.add_sub_cancel]
            rw [List.set_comm]
            exact fun same => apart handle (List.mem_cons_self ..) same.symm
          simp only [restoreAll, List.zip_cons_cons, List.foldl_cons]
          rw [swapped]
          exact inductionHypothesis others
            (fun other member =>
              apart other (List.mem_cons_of_mem _ member))
            (self.restore handle.value child.value)

/-- Putting children back fills their slots again. -/
theorem restoreAll_takeAll
    {handles : List (TFVisibleChild Nat)}
    {children : List (Child V)}
    {after : Slab V}
    (taken : takeAll handles slab = (some children, after)) :
    (after.restoreAll children handles).items = slab.items ∧
      (after.restoreAll children handles).free = after.free := by
  induction handles generalizing slab children with
  | nil =>
      obtain ⟨isSome, rfl⟩ := Prod.mk.inj taken
      cases Option.some.inj isSome
      exact ⟨rfl, rfl⟩
  | cons child rest inductionHypothesis =>
      obtain ⟨value, between, later, first, others, rfl⟩ :=
        takeAll_cons taken
      obtain ⟨index, isHandle, present, rfl⟩ := take_some first
      obtain ⟨items, free⟩ := inductionHypothesis others
      have inRange : index < slab.items.length := by
        by_contra outside
        rw [List.getElem?_eq_none (Nat.le_of_not_lt outside)] at present
        cases present
      have apart : ∀ handle ∈ rest, slotOf handle ≠ index := by
        intro handle member same
        obtain ⟨found, standsThere⟩ :=
          present_of_takeAll others handle member
        rw [same] at standsThere
        simp [inRange] at standsThere
      have back :
          after.restoreAll
              (⟨child.symbol, child.fieldId, child.extra, value⟩ :: later)
              (child :: rest) =
            (after.restoreAll later rest).restore (some (index + 1))
              value := by
        rw [← restoreAll_restore later rest index value apart, ← isHandle]
        rfl
      rw [back]
      refine ⟨?_, free⟩
      simp only [Slab.restore, Option.getD_some, Nat.add_sub_cancel, items,
        List.set_set]
      refine List.ext_getElem? fun place => ?_
      rw [List.getElem?_set]
      split
      · rename_i same
        rw [← same, present]
      · rfl

/-- Declining leaves the slab as it was, the free list in order. -/
theorem rollback_restoreAll
    {handles : List (TFVisibleChild Nat)}
    {children : List (Child V)}
    {after : Slab V}
    (taken : takeAll handles slab = (some children, after)) :
    (after.restoreAll children handles).rollback slab.mark = slab := by
  obtain ⟨items, free⟩ := restoreAll_takeAll taken
  obtain ⟨frees, _⟩ := takeAll_frees taken
  simp only [Slab.rollback, Slab.mark, items, free, frees, List.take_left]

end Slab

end TreeFeller
