import BufferOwnership.Routine.Basic

/-!
# Failures

A computation on a routine can go wrong in two ways: the routine refers to something that is not
there, or it is as it should not be. The first is a `Fault`; what the second is depends on the
computation.
-/

namespace BufferOwnership

variable {ε α : Type} {x : Except ε α}

/-- Why a computation on a routine gives no answer: the routine refers to something that is not
there, or it is rejected for a reason of its own. -/
inductive Failure (ε : Type) where
  | fault (fault : Fault)
  | rejected (reason : ε)
deriving DecidableEq

/-- A query, among computations that can also reject. -/
def orFault {ε α : Type} : Except Fault α → Except (Failure ε) α
  | .ok a => .ok a
  | .error f => .error (.fault f)

/-- A computation in two steps succeeds if and only if both steps do. -/
theorem bind_eq_ok {β : Type} {f : α → Except ε β} {b : β} :
    (x >>= f) = .ok b ↔ ∃ a, x = .ok a ∧ f a = .ok b := by
  cases x with
  | error e => simp [bind, Except.bind]
  | ok a => simp [bind, Except.bind]

@[simp] theorem orFault_eq_ok {x : Except Fault α} {a : α} :
    (orFault x : Except (Failure ε) α) = .ok a ↔ x = .ok a := by
  cases x <;> simp [orFault]

theorem exists_of_toBool (h : x.toBool = true) : ∃ a, x = .ok a := by
  cases x with
  | error _ => cases h
  | ok a => exact ⟨a, rfl⟩

theorem exists_of_check {P : α → Prop} [DecidablePred P]
    (h : (x.toOption.any fun a => decide (P a)) = true) : ∃ a, x = .ok a ∧ P a := by
  cases x with
  | error _ => cases h
  | ok a => exact ⟨a, rfl, of_decide_eq_true h⟩

end BufferOwnership
