import BufferOwnership.Proofs.Indicators
import Mathlib.Data.List.Dedup

/-!
# Balances of alias classes

Instead of the indicators that a block owns, one may keep count of them. The values of a class have
one label, and under it stands the balance of the class. Joining adds balances up, an allocation is
a credit and a release a debit; a debit from nothing is refused. `Balances.Matches` says that
balances go with alias classes and owned indicators.
-/

namespace BufferOwnership

/-! ## Joined classes -/

namespace AliasClasses.Sound

variable {c : AliasClasses} {v w x : ValueId} (hc : c.Sound)
include hc

/-- Joining two values that are together changes nothing. -/
theorem same_union_of_same (hsame : c.same v w = true) (x y : ValueId) :
    (c.union v w).same x y = c.same x y := by
  rw [Bool.eq_iff_iff, (hc.union v w).2]
  refine ⟨?_, .inl⟩
  rintro (h | ⟨hx, hy⟩ | ⟨hx, hy⟩)
  · exact h
  · exact same_trans (same_trans hx hsame) (same_symm hy)
  · exact same_trans hx (same_symm (same_trans hy hsame))

/-- A joined class has the members of both. -/
theorem same_union_joined (hx : c.same x v = true ∨ c.same x w = true) (y : ValueId) :
    (c.union v w).same x y = (c.same v y || c.same w y) := by
  rw [Bool.eq_iff_iff, (hc.union v w).2, Bool.or_eq_true]
  constructor
  · rintro (h | ⟨-, hy⟩ | ⟨-, hy⟩)
    · exact hx.imp (fun hv => same_trans (same_symm hv) h) fun hw => same_trans (same_symm hw) h
    · exact .inr (same_symm hy)
    · exact .inl (same_symm hy)
  · rintro (hy | hy)
    · exact hx.elim (fun hv => .inl (same_trans hv hy)) fun hw => .inr (.inr ⟨hw, same_symm hy⟩)
    · exact hx.elim (fun hv => .inr (.inl ⟨hv, same_symm hy⟩)) fun hw => .inl (same_trans hw hy)

/-- Other classes stay as they are. -/
theorem same_union_other (hx : ¬ (c.same x v = true ∨ c.same x w = true)) (y : ValueId) :
    (c.union v w).same x y = c.same x y := by
  rw [not_or] at hx
  rw [Bool.eq_iff_iff, (hc.union v w).2]
  simp [hx.1, hx.2]

end AliasClasses.Sound

/-- The label of each value's class, and the balance of the class by its label. -/
structure Balances where
  label : ValueId → ValueId
  balance : ValueId → Nat

namespace Balances

/-- Every value is in a class of its own, and nothing is owned. -/
def start : Balances := ⟨id, fun _ => 0⟩

def of (k : Balances) (v : ValueId) : Nat := k.balance (k.label v)

/-- Joins the classes of two values. The balance of the joined class is the sum of the two. -/
def merge (k : Balances) (v w : ValueId) : Balances :=
  if k.label v = k.label w then k
  else
    { label := fun x => if k.label x = k.label w then k.label v else k.label x
      balance := Function.update k.balance (k.label v) (k.of v + k.of w) }

/-- One more is owned in the class of a value. -/
def credit (k : Balances) (v : ValueId) : Balances :=
  { k with balance := Function.update k.balance (k.label v) (k.of v + 1) }

/-- One less is owned in the class of a value, if any is. -/
def debit (k : Balances) (v : ValueId) : Option Balances :=
  if k.of v = 0 then none
  else some { k with balance := Function.update k.balance (k.label v) (k.of v - 1) }

variable {k k' : Balances} {v w x i : ValueId} {l l' : List ValueId}

theorem label_merge (h : k.label v ≠ k.label w) (x : ValueId) :
    (k.merge v w).label x = if k.label x = k.label w then k.label v else k.label x := by
  simp [merge, h]

theorem of_merge (h : k.label v ≠ k.label w) (x : ValueId) :
    (k.merge v w).of x =
      if k.label x = k.label v ∨ k.label x = k.label w then k.of v + k.of w else k.of x := by
  by_cases hxw : k.label x = k.label w
  · simp [of, merge, h, hxw]
  · by_cases hxv : k.label x = k.label v
    · simp [of, merge, h, hxv]
    · simp [of, merge, h, hxw, hxv, Function.update_of_ne]

theorem of_credit (k : Balances) (v x : ValueId) :
    (k.credit v).of x = k.of x + if k.label x = k.label v then 1 else 0 := by
  by_cases hx : k.label x = k.label v
  · simp [of, credit, hx]
  · simp [of, credit, hx, Function.update_of_ne]

/-- What a debit that is not refused does. -/
theorem debit_eq_some (h : k.debit v = some k') :
    k.of v ≠ 0 ∧ k'.label = k.label ∧
      ∀ x, k'.of x = k.of x - if k.label x = k.label v then 1 else 0 := by
  unfold debit at h
  split at h
  · cases h
  · rename_i hne
    cases h
    refine ⟨hne, rfl, fun x => ?_⟩
    by_cases hx : k.label x = k.label v
    · simp [of, hx]
    · simp [of, hx, Function.update_of_ne]

/-- Values of one class are debited alike. -/
theorem debit_congr (h : k.label v = k.label w) : k.debit v = k.debit w := by
  unfold debit of
  rw [h]

theorem debit_comm (k : Balances) (v w : ValueId) :
    (k.debit v).bind (·.debit w) = (k.debit w).bind (·.debit v) := by
  by_cases hl : k.label v = k.label w
  · -- in one class the two are the same debit
    rw [← debit_congr hl]
    cases hd : k.debit v with
    | none => rfl
    | some k' =>
      have hlabel := (debit_eq_some hd).2.1
      exact (debit_congr (by rw [hlabel, hl])).symm
  · -- in two classes neither sees what the other one changes
    by_cases hv : k.balance (k.label v) = 0 <;> by_cases hw : k.balance (k.label w) = 0 <;>
      simp [debit, of, hv, hw, Function.update_of_ne hl, Function.update_of_ne (Ne.symm hl),
        Function.update_comm hl]

/-- The order of debits does not matter. -/
theorem foldlM_debit_perm (h : l.Perm l') (k : Balances) :
    l.foldlM debit k = l'.foldlM debit k := by
  induction h generalizing k with
  | nil => rfl
  | cons v _ ih =>
    rw [List.foldlM_cons, List.foldlM_cons]
    exact bind_congr fun k' => ih k'
  | swap v w l =>
    simp only [List.foldlM_cons, ← bind_assoc]
    exact congrArg (· >>= fun k' => l.foldlM debit k') (k.debit_comm w v)
  | trans _ _ ih ih' => exact (ih k).trans (ih' k)

/-! ## Balances and what is owned -/

/-- Balances go with alias classes and owned indicators, for the first `n` values. -/
structure Matches (n : Nat) (k : Balances) (c : AliasClasses) (owned : List ValueId) : Prop where
  classes : ∀ v w, v.index < n → w.index < n → (c.same v w = true ↔ k.label v = k.label w)
  balance : ∀ v, v.index < n → owned.countP (c.same v) = k.of v

/-- What two tests that never hold together count. -/
theorem countP_or_of_disjoint {α : Type} {p q : α → Bool} {l : List α}
    (h : ∀ a, p a = true → q a = false) :
    l.countP (fun a => p a || q a) = l.countP p + l.countP q := by
  induction l with
  | nil => rfl
  | cons a l ih =>
    simp only [List.countP_cons, ih]
    cases hp : p a with
    | false =>
      simp only [Bool.false_or, Bool.false_eq_true, if_false]
      omega
    | true =>
      simp only [h a hp, Bool.or_false, Bool.false_eq_true, if_true, if_false]
      omega

namespace Matches

variable {n : Nat} {c c' : AliasClasses} {owned owned' : List ValueId}

theorem start : Matches n .start .empty [] where
  classes _ _ _ _ := AliasClasses.same_empty_iff
  balance _ _ := rfl

section Keep

variable (h : Matches n k c owned)
include h

theorem perm (hperm : owned.Perm owned') : Matches n k c owned' :=
  ⟨h.classes, fun v hv => (hperm.countP_eq _).symm.trans (h.balance v hv)⟩

/-- Only what is together among the values and the indicators matters. -/
theorem of_same (hclasses : ∀ v w, v.index < n → w.index < n → c'.same v w = c.same v w)
    (howned : ∀ v, v.index < n → ∀ i ∈ owned, c'.same v i = c.same v i) : Matches n k c' owned where
  classes v w hv hw := by rw [hclasses v w hv hw, h.classes v w hv hw]
  balance v hv := by rw [List.countP_congr fun i hi => by rw [howned v hv i hi], h.balance v hv]

/-- Two classes are joined. No indicator is in both of them, so the balances add up. -/
theorem merge (hc : c.Sound) (hv : v.index < n) (hw : w.index < n) :
    Matches n (k.merge v w) (c.union v w) owned := by
  by_cases hvw : k.label v = k.label w
  · have hsame := (h.classes v w hv hw).mpr hvw
    rw [Balances.merge, if_pos hvw]
    exact h.of_same (fun x y _ _ => hc.same_union_of_same hsame x y)
      fun x _ i _ => hc.same_union_of_same hsame x i
  · have hapart : c.same v w ≠ true := fun hsame => hvw ((h.classes v w hv hw).mp hsame)
    refine ⟨fun x y hx hy => ?_, fun x hx => ?_⟩
    · rw [(hc.union v w).2, h.classes x y hx hy, h.classes x v hx hv, h.classes x w hx hw,
        h.classes y v hy hv, h.classes y w hy hw, label_merge hvw, label_merge hvw]
      grind
    · rw [of_merge hvw]
      split
      · rename_i hjoined
        rw [← h.classes x v hx hv, ← h.classes x w hx hw] at hjoined
        rw [funext (hc.same_union_joined hjoined), countP_or_of_disjoint, h.balance v hv,
          h.balance w hw]
        intro i hvi
        rw [← Bool.not_eq_true]
        exact fun hwi => hapart (AliasClasses.same_trans hvi (AliasClasses.same_symm hwi))
      · rename_i hother
        rw [← h.classes x v hx hv, ← h.classes x w hx hw] at hother
        rw [funext (hc.same_union_other hother), h.balance x hx]

/-- An indicator in the class of one value is in that of the others with its label. -/
theorem same_iff (hv : v.index < n) (hi : c.same v i = true) (hx : x.index < n) :
    c.same x i = true ↔ k.label x = k.label v := by
  rw [← h.classes x v hx hv]
  exact ⟨fun hxi => AliasClasses.same_trans hxi (AliasClasses.same_symm hi),
    fun hxv => AliasClasses.same_trans hxv hi⟩

/-- An indicator is acquired in the class of a value. -/
theorem credit (hv : v.index < n) (hi : c.same v i = true) :
    Matches n (k.credit v) c (i :: owned) where
  classes := h.classes
  balance x hx := by
    rw [List.countP_cons, h.balance x hx, of_credit]
    simp only [h.same_iff hv hi hx]

/-- Indicators are acquired for values. -/
theorem credits {values indicators : List ValueId}
    (hpairs : List.Forall₂ (fun v i => c.same v i = true) values indicators)
    (hvalues : ∀ v ∈ values, v.index < n) :
    Matches n (values.foldl Balances.credit k) c (indicators ++ owned) := by
  induction hpairs generalizing k owned with
  | nil => exact h
  | @cons v i values indicators hi _ ih =>
    obtain ⟨hv, hvalues⟩ := List.forall_mem_cons.mp hvalues
    exact (ih (h.credit hv hi) hvalues).perm List.perm_middle

/-- An indicator in the class of a value is struck off. -/
theorem debit (hv : v.index < n) (hj : c.same v j = true)
    (hperm : owned.Perm (j :: owned')) :
    ∃ k', k.debit v = some k' ∧ Matches n k' c owned' := by
  have hall := h.perm hperm
  have hbalance : ∀ x, x.index < n →
      owned'.countP (c.same x) + (if k.label x = k.label v then 1 else 0) = k.of x := fun x hx => by
    rw [← hall.balance x hx, List.countP_cons]
    simp only [h.same_iff hv hj hx]
  have hne : k.of v ≠ 0 := by
    have hone := hbalance v hv
    rw [if_pos rfl] at hone
    omega
  cases hd : k.debit v with
  | none => simp [Balances.debit, hne] at hd
  | some k' =>
    obtain ⟨-, hlabel, hof⟩ := debit_eq_some hd
    refine ⟨k', rfl, fun x y hx hy => by rw [hlabel, h.classes x y hx hy], fun x hx => ?_⟩
    have hx := hbalance x hx
    rw [hof]
    omega

/-- Nothing in the class of a value is owned. -/
theorem debit_none (hv : v.index < n) (hnone : ∀ j ∈ owned, c.same v j ≠ true) :
    k.debit v = none := by
  have hzero : k.of v = 0 := by rw [← h.balance v hv, List.countP_eq_zero.mpr hnone]
  simp [Balances.debit, hzero]

end Keep

/-- Releases strike off what debits take away, and one that finds nothing is passed on. -/
theorem releases {held : Holdings} (h : Matches n k c held.owned.toList) (hnone : held.released = ∅)
    (hvalues : ∀ v ∈ l, v.index < n) :
    match l.foldlM Balances.debit k with
    | some k' => Matches n k' c (l.foldl (Holdings.release c) held).owned.toList ∧
        (l.foldl (Holdings.release c) held).released = ∅
    | none => (l.foldl (Holdings.release c) held).released ≠ ∅ := by
  induction l generalizing k held with
  | nil => exact ⟨h, hnone⟩
  | cons v l ih =>
    obtain ⟨hv, hvalues⟩ := List.forall_mem_cons.mp hvalues
    rw [List.foldlM_cons, List.foldl_cons]
    cases hfind : held.owned.toList.find? (c.same v) with
    | some j =>
      -- which indicator of the class is struck off makes no difference to the balance
      have hrelease : held.release c v = { held with owned := held.owned.erase j } := by
        simp [Holdings.release, hfind]
      have hperm := ValueSet.perm_cons_erase (List.mem_of_find?_eq_some hfind : j ∈ held.owned)
      obtain ⟨k', hdebit, hmatches⟩ := h.debit hv (List.find?_some hfind) hperm
      rw [hdebit, hrelease]
      exact ih hmatches hnone hvalues
    | none =>
      -- no later release takes back what is passed on here
      have hrelease : held.release c v = { held with released := held.released.insert v } := by
        simp [Holdings.release, hfind]
      rw [h.debit_none hv (List.find?_eq_none.mp hfind)]
      have hpassed : v ∈ (l.foldl (Holdings.release c) (held.release c v)).released :=
        Holdings.released_foldl (by simp [hrelease])
      exact fun hempty => ValueSet.not_mem_empty (hempty ▸ hpassed)

end Matches

end Balances

end BufferOwnership
