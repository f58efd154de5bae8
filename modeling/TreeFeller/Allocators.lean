import TreeFeller.Judgments
import TreeFeller.Library.Congruence

/-!
# Speculation does not see the allocator

Two allocators are alike under a relation when they answer alike and stay
related.  Equal allocators are, and so are any two that never fail.  A
speculative program run beside two alike allocators does the same: it stops
with the same error, or leaves the same graph and the same lexer.
-/

namespace TreeFeller

open StatefulProgram

namespace Heap

/-- A relation between allocators that answer alike, now and later. -/
structure Bisimulation (alike : Heap → Heap → Prop) : Prop where
  answers :
    ∀ {first second : Heap}, alike first second →
      first.allocate.1 = second.allocate.1
  after :
    ∀ {first second : Heap}, alike first second →
      alike first.allocate.2 second.allocate.2

/-- Two allocators that never fail. -/
def BothReliable (first second : Heap) : Prop :=
  first.Reliable ∧ second.Reliable

/-- Equal allocators answer alike. -/
theorem bisimulation_eq : Bisimulation Eq where
  answers := by
    intro first second same
    rw [same]
  after := by
    intro first second same
    rw [same]

/-- Allocators that never fail answer alike. -/
theorem bisimulation_bothReliable : Bisimulation BothReliable where
  answers := by
    intro first second both
    simp only [allocate, both.1 first.served, both.2 second.served]
  after := fun both => ⟨both.1, both.2⟩

end Heap

/-- The same graph and lexer beside two alike allocators. -/
structure TFSpecState.Alike
    (alike : Heap → Heap → Prop)
    (first second : TFSpecState) : Prop where
  spec : first.spec = second.spec
  lexer : first.lexer = second.lexer
  heap : alike first.heap second.heap

namespace TFSpec

open Program

variable {alike : Heap → Heap → Prop}

/-- What a speculative program does is the same beside alike allocators. -/
theorem judgment_respects
    (bisimulation : Heap.Bisimulation alike) :
    Judgment (fun {α} (program : SpecM α) =>
      Respects (TFSpecState.Alike alike) program) where
  pure := fun _ => Respects.pure
  stop := fun _ => Respects.stop
  bind := Respects.bind
  reading := by
    intro α change
    apply Respects.modifyGet
    intro state state' same
    rw [same.spec, same.lexer]
    exact ⟨rfl, rfl, rfl, same.heap⟩
  allocate := by
    apply Respects.modifyGet
    intro state state' same
    exact ⟨bisimulation.answers same.heap, same.spec, same.lexer,
      bisimulation.after same.heap⟩
  seeking := by
    intro lang byte point current
    apply Respects.modifyGet
    intro state state' same
    rw [same.lexer]
    exact ⟨rfl, same.spec, rfl, same.heap⟩

end TFSpec

end TreeFeller
