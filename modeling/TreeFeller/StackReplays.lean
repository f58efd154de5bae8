import TreeFeller.StackOwners

namespace TreeFeller

open StatefulProgram

/-!
# Replaying what a graph of LR stacks is left with

A replay goes over the trees of the one path that is left.  Inherited trees are
on the stack already; a leaf is shifted over a stack that ends where the leaf
begins; and a reduction takes at least one cell.
-/

namespace TFSpec

open Program

variable {graph : TFSpec}
variable {first middle last : Nat}

/-- What is left of a replay, from a byte to another. -/
inductive Laid (graph : TFSpec) : Nat → List TFReplayItem → Nat → Prop where
  | done {byte : Nat} : Laid graph byte [] byte
  | visit
      {first middle last tree : Nat}
      {rest : List TFReplayItem}
      (grown : Replayable graph first [tree] middle)
      (later : Laid graph middle rest last) :
      Laid graph first (.visit tree :: rest) last
  | reduce
      {first last tree : Nat}
      {rest : List TFReplayItem}
      (counts : (graph.tree tree).structuralCount ≠ 0)
      (later : Laid graph first rest last) :
      Laid graph first (.reduce tree :: rest) last

/-- Trees that lie one behind the other are visited one after the other. -/
theorem Replayable.laid
    {trees : List Nat}
    {items : List TFReplayItem}
    (grown : Replayable graph first trees middle)
    (later : Laid graph middle items last) :
    Laid graph first (trees.map TFReplayItem.visit ++ items) last := by
  induction trees generalizing first with
  | nil =>
      cases grown
      exact later
  | cons tree rest inductionHypothesis =>
      have rows : Replayable graph first ([tree] ++ rest) middle := grown
      obtain ⟨between, alone, behind⟩ := rows.split
      exact .visit alone (inductionHypothesis behind)

end TFSpec

namespace TFParser

/-- A plan that goes from a byte to another, and reduces only what is there. -/
inductive Rises : Nat → List Replayed → Nat → Prop where
  | done {byte : Nat} : Rises byte [] byte
  | leaf
      {first last : Nat}
      {tree : TFSpecTree}
      {plan : List Replayed}
      (spans : first < tree.token.endByte)
      (later : Rises tree.token.endByte plan last) :
      Rises first (.leaf tree :: plan) last
  | parent
      {first last : Nat}
      {tree : TFSpecTree}
      {plan : List Replayed}
      (counts : tree.structuralCount ≠ 0)
      (later : Rises first plan last) :
      Rises first (.parent tree :: plan) last

/--
The shifts and reductions of a replay rise from the top of the owner's stack,
which the inherited trees lie below.
-/
theorem rises_of_laid
    {graph : TFSpec}
    {first last : Nat}
    {items : List TFReplayItem}
    {plan : List Replayed}
    (laid : TFSpec.Laid graph first items last)
    (order : Postorder graph.tree items plan) :
    Rises (max first (topByte graph.owner.cells)) plan
      (max last (topByte graph.owner.cells)) := by
  induction order generalizing first with
  | done =>
      cases laid
      exact .done
  | reduce _ inductionHypothesis =>
      cases laid with
      | reduce counts later =>
          exact .parent counts (inductionHypothesis later)
  | @inherited index rest plan isInherited _ inductionHypothesis =>
      cases laid with
      | visit grown later =>
          have rises := inductionHypothesis later
          cases grown with
          | inherited _ _ spans _ _ below ended =>
              cases ended
              rw [Nat.max_eq_right below] at rises
              rw [Nat.max_eq_right
                (Nat.le_trans (Nat.le_of_lt spans) below)]
              exact rises
          | leaf _ _ _ own =>
              cases own.symm.trans isInherited
          | parent _ _ _ own =>
              cases own.symm.trans isInherited
  | @leaf index rest plan own isLeaf _ inductionHypothesis =>
      cases laid with
      | visit grown later =>
          have rises := inductionHypothesis later
          cases grown with
          | inherited _ _ _ isInherited =>
              cases own.symm.trans isInherited
          | leaf _ _ spans _ _ _ above_ ended =>
              cases ended
              rw [Nat.max_eq_left
                (Nat.le_trans above_ (Nat.le_of_lt spans))] at rises
              rw [Nat.max_eq_left above_]
              exact .leaf spans rises
          | parent _ _ _ _ inner =>
              cases isLeaf.symm.trans inner
  | @parent index rest plan own inner _ inductionHypothesis =>
      cases laid with
      | visit grown later =>
          cases grown with
          | inherited _ _ _ isInherited =>
              cases own.symm.trans isInherited
          | leaf _ _ _ _ isLeaf =>
              cases isLeaf.symm.trans inner
          | parent _ _ _ _ _ counts children ended =>
              cases ended
              exact inductionHypothesis (children.laid (.reduce counts later))

section Performing

variable {σ V : Type}
variable {sink : TFSink σ V}
variable {lang : TFLanguage}
variable {before after : TFParser σ V}

/-- A shift into the state over the stack keeps it one of LR cells. -/
theorem piled_shift
    {token : TFToken}
    {extra : Bool}
    {state : TSStateId}
    (piled : Piled lang startState 0 before.cells)
    (isState :
      state =
        if extra then before.state
        else lang.nextState before.state token.symbol)
    (spans : topByte before.cells < token.endByte)
    (shifted : before.shift sink token extra state = (true, after)) :
    Piled lang startState 0 after.cells ∧
      topByte after.cells = token.endByte ∧ after.lexer = before.lexer := by
  rcases before.shift_cases sink token extra state with
    ⟨heap, capacity, _, _, well⟩ | ⟨heap, failed⟩
  · rw [shifted] at well
    rw [(Prod.mk.inj well).2]
    refine ⟨piled.push isState spans, ?_, rfl⟩
    change beyond 0 (before.cells ++ [_]) = token.endByte
    rw [beyond_append]
    rfl
  · rw [shifted] at failed
    cases (Prod.mk.inj failed).1

/-- A reduction of some children does, and ends where the stack did. -/
theorem piled_reduce
    {symbol : TSSymbol}
    {childCount productionId : Nat}
    {lookahead : Option TFToken}
    (ready : Ready before)
    (piled : Piled lang startState 0 before.cells)
    (positive : 0 < childCount)
    (reduced :
      before.reduce sink lang symbol childCount productionId lookahead =
        some (true, after)) :
    Piled lang startState 0 after.cells ∧
      topByte after.cells = topByte before.cells ∧
        after.lexer = before.lexer := by
  obtain ⟨cut, cuts, ⟨_, inner⟩ | ⟨token, _, root⟩⟩ :=
    reduce_cases ready.fits reduced
  · obtain ⟨heap, capacity, _, ⟨_, _, same⟩ | ⟨failed, _⟩⟩ := inner.done
    · rw [same]
      obtain ⟨stack, ends_⟩ := piled.placed cuts positive
      exact ⟨stack, ends_, rfl⟩
    · cases failed
  · obtain ⟨heap, capacity, _, ⟨_, _, heapBefore, same⟩ | ⟨failed, _⟩⟩ :=
      root.done
    · rw [same]
      obtain ⟨stack, ends_⟩ := piled.placed cuts positive
      exact ⟨stack, ends_, rfl⟩
    · cases failed

/-- A plan that rises from the top of a stack of LR cells leaves one. -/
theorem piled_performs
    {plan : List Replayed}
    {last : Nat}
    (ready : Ready before)
    (piled : Piled lang startState 0 before.cells)
    (rises : Rises (topByte before.cells) plan last)
    (performed : Performs sink lang plan before after) :
    Piled lang startState 0 after.cells ∧ topByte after.cells = last := by
  induction performed with
  | done =>
      cases rises
      exact ⟨piled, rfl⟩
  | quiet same later inductionHypothesis =>
      refine inductionHypothesis (ready.quiet same) ?_ ?_
      · rw [same.cells]
        exact piled
      · rw [same.cells]
        exact rises
  | leaf shifted later inductionHypothesis =>
      cases rises with
      | leaf spans risesLater =>
          obtain ⟨stack, ends_, _⟩ := piled_shift piled rfl spans shifted
          refine inductionHypothesis (ready.shift shifted) stack ?_
          rw [ends_]
          exact risesLater
  | parent reduced later inductionHypothesis =>
      cases rises with
      | parent counts risesLater =>
          obtain ⟨stack, ends_, _⟩ :=
            piled_reduce ready piled (Nat.pos_of_ne_zero counts) reduced
          rcases ready.reduce reduced with
            readyMiddle | ⟨_, token, none, _⟩
          · refine inductionHypothesis readyMiddle stack ?_
            rw [ends_]
            exact risesLater
          · cases none

end Performing

end TFParser

end TreeFeller
