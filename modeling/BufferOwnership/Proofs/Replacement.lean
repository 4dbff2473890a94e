import BufferOwnership.Proofs.Queries
import Mathlib.Data.List.Sort

/-!
# Replacing a value

The uses of a value are listed by operation, and for each operation by slot. So they are given by
their members (`mem_uses`) together with their order (`pairwise_uses`), and what replacing a value
does to the lists of uses can be read off what it does to the operands, slot by slot.
-/

namespace BufferOwnership

variable {x y : OpId × Nat}

/-- A use comes before another one: in an earlier operation, or in an earlier slot of the same. -/
def UseBefore (x y : OpId × Nat) : Prop :=
  x.1.index < y.1.index ∨ x.1.index = y.1.index ∧ x.2 < y.2

def useLE (x y : OpId × Nat) : Bool :=
  x.1.index < y.1.index || x.1.index == y.1.index && x.2 ≤ y.2

theorem useLE_iff :
    useLE x y = true ↔ x.1.index < y.1.index ∨ x.1.index = y.1.index ∧ x.2 ≤ y.2 := by
  simp [useLE]

theorem UseBefore.useLE (h : UseBefore x y) : useLE x y = true := by
  rw [useLE_iff]
  unfold UseBefore at h
  omega

theorem useLE_antisymm (h : useLE x y = true) (h' : useLE y x = true) : x = y := by
  rw [useLE_iff] at h h'
  obtain ⟨⟨k⟩, slot⟩ := x
  obtain ⟨⟨k'⟩, slot'⟩ := y
  simp only [Prod.mk.injEq, OpId.mk.injEq] at h h' ⊢
  omega

instance : Std.Irrefl UseBefore where
  irrefl x h := by
    unfold UseBefore at h
    omega

instance : Std.Antisymm UseBefore where
  antisymm _ _ h h' := useLE_antisymm h.useLE h'.useLE

/-- Merging two ordered lists is the only way to order what both contain. -/
theorem eq_merge_of_perm {l l₁ l₂ : List (OpId × Nat)} (h : l.Pairwise UseBefore)
    (h₁ : l₁.Pairwise UseBefore) (h₂ : l₂.Pairwise UseBefore) (hperm : l.Perm (l₁ ++ l₂)) :
    l = l₁.merge l₂ useLE := by
  have hle : ∀ {l : List (OpId × Nat)}, l.Pairwise UseBefore →
      l.Pairwise fun x y => useLE x y = true := fun h => h.imp UseBefore.useLE
  refine List.Perm.eq_of_pairwise (fun x y _ _ => useLE_antisymm) (hle h)
    (List.pairwise_merge (fun x y z hxy hyz => ?_) (fun x y => ?_) l₁ l₂ (hle h₁) (hle h₂))
    (hperm.trans (List.merge_perm_append useLE).symm)
  · rw [useLE_iff] at hxy hyz ⊢
    omega
  · rw [Bool.or_eq_true, useLE_iff, useLE_iff]
    omega

namespace Routine

variable {r : Routine} {old new v : ValueId} {o : OpId} {slot : Nat}

/-! ## The order of uses -/

theorem pairwise_zipIdx {α : Type} (l : List α) : l.zipIdx.Pairwise fun x y => x.2 < y.2 := by
  have hmap : (l.zipIdx.map Prod.snd).Pairwise (· < ·) := by
    rw [List.zipIdx_map_snd]
    exact List.pairwise_lt_range'
  exact List.pairwise_map.mp hmap

theorem pairwise_operandSlots (d : Op) (v : ValueId) : (d.operandSlots v).Pairwise (· < ·) := by
  refine List.pairwise_filterMap.mpr ((pairwise_zipIdx d.operands).imp ?_)
  rintro ⟨x, i⟩ ⟨y, j⟩ hij a ha b hb
  obtain ⟨-, rfl⟩ : x = v ∧ i = a := by simpa using ha
  obtain ⟨-, rfl⟩ : y = v ∧ j = b := by simpa using hb
  exact hij

theorem pairwise_uses (r : Routine) (v : ValueId) : (r.uses v).Pairwise UseBefore := by
  refine List.pairwise_flatMap.mpr ⟨?_, (pairwise_zipIdx r.ops.toList).imp ?_⟩
  · -- in one operation the slots are in order
    rintro ⟨d, k⟩ -
    dsimp only
    split
    · exact .nil
    · exact List.pairwise_map.mpr ((pairwise_operandSlots d v).imp fun hlt => .inr ⟨rfl, hlt⟩)
  · -- and operations are in the order of the table
    rintro ⟨d, k⟩ ⟨d', k'⟩ hlt x hx y hy
    have hindex : ∀ {d : Op} {k : Nat} {x : OpId × Nat},
        x ∈ (if d.erased then [] else (d.operandSlots v).map fun slot => ((⟨k⟩ : OpId), slot)) →
          x.1.index = k := by
      intro d k x hx
      split at hx
      · cases hx
      · obtain ⟨slot, -, rfl⟩ := List.mem_map.mp hx
        rfl
    refine .inl ?_
    rw [hindex hx, hindex hy]
    exact hlt

theorem nodup_uses (r : Routine) (v : ValueId) : (r.uses v).Nodup := by
  refine (r.pairwise_uses v).imp ?_
  rintro x _ h rfl
  exact Std.Irrefl.irrefl x h

/-- A slot holds one value, so it is a use of one value only. -/
theorem uses_disjoint {v w : ValueId} (hne : v ≠ w) (hv : (o, slot) ∈ r.uses v) :
    (o, slot) ∉ r.uses w := by
  intro hw
  obtain ⟨d, hd, -, hslot⟩ := mem_uses.mp hv
  obtain ⟨d', hd', -, hslot'⟩ := mem_uses.mp hw
  cases hd.symm.trans hd'
  exact hne (Option.mem_unique hslot hslot')

/-! ## What is replaced -/

/-- A slot holds a value afterwards if it held it before, unless that is the value replaced, or if
the value is the replacement and the slot held what is replaced. -/
theorem getElem?_map_replace (operands : List ValueId) :
    (operands.map fun w => if w = old then new else w)[slot]? = some v ↔
      v ≠ old ∧ operands[slot]? = some v ∨ v = new ∧ operands[slot]? = some old := by
  rw [List.getElem?_map]
  cases operands[slot]? with
  | none => simp
  | some w =>
    rw [Option.map_some, Option.some.injEq, Option.some.injEq, Option.some.injEq]
    by_cases hw : w = old
    · subst hw
      rw [if_pos rfl]
      grind
    · rw [if_neg hw]
      grind

theorem mem_uses_replaceAllUses : (o, slot) ∈ (r.replaceAllUses old new).uses v ↔
    v ≠ old ∧ (o, slot) ∈ r.uses v ∨ v = new ∧ (o, slot) ∈ r.uses old := by
  simp only [mem_uses, op?_replaceAllUses]
  cases r.op? o with
  | none => simp
  | some d =>
    cases hlive : d.erased with
    | true => simp [hlive]
    | false => simpa [hlive] using getElem?_map_replace d.operands

/-- An entry keeps everything but its operands, and these too if it is erased. -/
theorem exists_operands_replaceAllUses {d : Op} (hd : r.op? o = some d) :
    ∃ operands, (r.replaceAllUses old new).op? o = some { d with operands } ∧
      (d.erased = true → operands = d.operands) := by
  rw [op?_replaceAllUses, hd, Option.map_some]
  split
  · exact ⟨d.operands, rfl, fun _ => rfl⟩
  · rename_i hlive
    exact ⟨_, rfl, fun herased => absurd herased hlive⟩

theorem replaceAllUses_replaceAllUses (hne : old ≠ new) :
    (r.replaceAllUses old new).replaceAllUses old new = r.replaceAllUses old new := by
  simp only [replaceAllUses, Array.map_map]
  congr 1
  refine Array.map_congr_left fun d _ => ?_
  cases hlive : d.erased with
  | true => simp [hlive]
  | false =>
    -- what has been put in is not what is replaced
    have htwice : ∀ w, (if (if w = old then new else w) = old then new
        else if w = old then new else w) = if w = old then new else w := by
      intro w
      by_cases hw : w = old
      · rw [if_pos hw, if_neg hne.symm]
      · rw [if_neg hw, if_neg hw]
    simp [hlive, Function.comp_def, htwice]

/-- The replacement has the uses of both, in order. -/
theorem uses_replaceAllUses_new (hne : old ≠ new) :
    (r.replaceAllUses old new).uses new = (r.uses old).merge (r.uses new) useLE := by
  refine eq_merge_of_perm (pairwise_uses _ new) (r.pairwise_uses old) (r.pairwise_uses new) ?_
  have hdisjoint : ∀ x ∈ r.uses old, ∀ y ∈ r.uses new, x ≠ y := by
    rintro ⟨o, slot⟩ hx y hy rfl
    exact uses_disjoint hne hx hy
  refine (List.perm_ext_iff_of_nodup (nodup_uses _ new) (List.nodup_append.mpr
    ⟨r.nodup_uses old, r.nodup_uses new, hdisjoint⟩)).mpr ?_
  rintro ⟨o, slot⟩
  rw [mem_uses_replaceAllUses, List.mem_append]
  simp [hne.symm, or_comm]

end Routine

open Routine

/-- **Replacing a value is a substitution on live uses.** Afterwards the old value has no uses, the
new one has the uses of both, in the order of operations and slots, and every other value has the
uses that it had. Of the tables only operands change, and only those of operations that are not
erased. To do it again changes nothing. -/
theorem replaceAllUses_substitutes (r : Routine) {old new : ValueId} (hne : old ≠ new) :
    (r.replaceAllUses old new).uses old = [] ∧
      (r.replaceAllUses old new).uses new = (r.uses old).merge (r.uses new) useLE ∧
      (∀ v, v ≠ old → v ≠ new → (r.replaceAllUses old new).uses v = r.uses v) ∧
      (∀ o d, r.op? o = some d → ∃ operands,
        (r.replaceAllUses old new).op? o = some { d with operands } ∧
          (d.erased = true → operands = d.operands)) ∧
      (r.replaceAllUses old new).ops.size = r.ops.size ∧
      { r.replaceAllUses old new with ops := r.ops } = r ∧
      (r.replaceAllUses old new).replaceAllUses old new = r.replaceAllUses old new := by
  refine ⟨?_, uses_replaceAllUses_new hne, fun v hold hnew => ?_,
    fun o d => exists_operands_replaceAllUses, by simp [replaceAllUses], rfl,
    replaceAllUses_replaceAllUses hne⟩
  · refine List.eq_nil_iff_forall_not_mem.mpr ?_
    rintro ⟨o, slot⟩ hmem
    rcases mem_uses_replaceAllUses.mp hmem with ⟨h, -⟩ | ⟨h, -⟩
    · exact h rfl
    · exact hne h
  · refine (pairwise_uses _ v).eq_of_mem_iff (r.pairwise_uses v) ?_
    rintro ⟨o, slot⟩
    rw [mem_uses_replaceAllUses]
    simp [hold, hnew]

/-- Three operations that read the same two values, of which the one in between is erased. -/
def braidedRoutine : Routine where
  values := #[⟨.scalar .index, .argument ⟨0⟩ 0⟩, ⟨.scalar .index, .argument ⟨0⟩ 1⟩]
  ops := #[
    ⟨.routine "braided", [], [], [⟨0⟩], none, false⟩,
    ⟨.generic "use" [], [⟨1⟩, ⟨0⟩, ⟨1⟩, ⟨0⟩], [], [], some ⟨0⟩, false⟩,
    ⟨.generic "use" [], [⟨0⟩, ⟨1⟩], [], [], none, true⟩,
    ⟨.ret, [⟨0⟩, ⟨1⟩], [], [], some ⟨0⟩, false⟩]
  blocks := #[⟨[⟨0⟩, ⟨1⟩], [⟨1⟩, ⟨3⟩], ⟨0⟩⟩]
  regions := #[⟨[⟨0⟩], ⟨0⟩⟩]
  root := ⟨0⟩

theorem braidedRoutine_substituted :
    (⟨0⟩ : ValueId) ≠ ⟨1⟩ ∧ (braidedRoutine.replaceAllUses ⟨0⟩ ⟨1⟩).uses ⟨0⟩ = [] ∧
      (braidedRoutine.replaceAllUses ⟨0⟩ ⟨1⟩).uses ⟨1⟩ =
        [(⟨1⟩, 0), (⟨1⟩, 1), (⟨1⟩, 2), (⟨1⟩, 3), (⟨3⟩, 0), (⟨3⟩, 1)] ∧
      (braidedRoutine.replaceAllUses ⟨0⟩ ⟨1⟩).op? ⟨2⟩ = braidedRoutine.op? ⟨2⟩ := by
  have hne : (⟨0⟩ : ValueId) ≠ ⟨1⟩ := by decide
  obtain ⟨hold, hnew, -, hops, -⟩ := replaceAllUses_substitutes braidedRoutine hne
  have hfirst : braidedRoutine.uses ⟨0⟩ = [(⟨1⟩, 1), (⟨1⟩, 3), (⟨3⟩, 0)] := by decide +kernel
  have hsecond : braidedRoutine.uses ⟨1⟩ = [(⟨1⟩, 0), (⟨1⟩, 2), (⟨3⟩, 1)] := by decide +kernel
  rw [hfirst, hsecond] at hnew
  refine ⟨hne, hold, hnew.trans (by simp [useLE]), ?_⟩
  obtain ⟨operands, hentry, herased⟩ := hops ⟨2⟩ _ rfl
  rw [hentry, herased rfl]
  rfl

end BufferOwnership
