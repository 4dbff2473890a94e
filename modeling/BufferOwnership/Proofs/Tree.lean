import BufferOwnership.Proofs.Links
import Mathlib.Data.List.Perm.Subperm

/-!
# The tree below the root

An operation has at most one operation directly around it, and the root has none. What can be
reached from the root is therefore a tree: no reached operation lies inside itself, and of two
operations around a third one is inside the other. `Depth` counts the operations around a reached
one; there are fewer of them than the table has entries. The blocks of the tree inherit this.
-/

namespace BufferOwnership

namespace Routine

/-- The operation in one of whose regions a block lies. -/
def holder? (r : Routine) (b : BlockId) : Option OpId := (r.home? b).bind r.owner?

/-- The operation directly around an operation. -/
def up? (r : Routine) (o : OpId) : Option OpId := (r.parent? o).bind r.holder?

/-- The second operation is the first or is nested in it, at any depth. -/
def Inside (r : Routine) : OpId → OpId → Prop := Relation.ReflTransGen fun p o => r.up? o = some p

def Reached (r : Routine) (o : OpId) : Prop := r.Inside r.root o

/-- A block lies in a region of an operation, or of one nested in it. -/
def InsideBlock (r : Routine) (o : OpId) (c : BlockId) : Prop :=
  ∃ p, r.Inside o p ∧ r.holder? c = some p

/-- The second block is the first or lies inside one of its operations. -/
def Under (r : Routine) (b c : BlockId) : Prop :=
  c = b ∨ ∃ q, r.parent? q = some b ∧ r.InsideBlock q c

variable {r : Routine} {o p q : OpId} {b c : BlockId} {k : Nat}

theorem up?_of_parent? (hparent : r.parent? o = some b) : r.up? o = r.holder? b := by
  simp [up?, hparent]

theorem Nested.up?_of_mem (h : r.Nested) (ho : o ∈ r.opsOf b) : r.up? o = r.holder? b :=
  up?_of_parent? ((h.op_listed o b).mp ho)

theorem exists_parent?_of_up? (hup : r.up? o = some p) :
    ∃ b, r.parent? o = some b ∧ r.holder? b = some p :=
  Option.bind_eq_some_iff.mp hup

theorem exists_op?_of_up? (hup : r.up? o = some p) : ∃ d, r.op? o = some d := by
  obtain ⟨b, hparent, -⟩ := exists_parent?_of_up? hup
  obtain ⟨d, hd, -⟩ := exists_op?_of_parent? hparent
  exact ⟨d, hd⟩

theorem exists_home?_of_holder? (hholder : r.holder? b = some o) :
    ∃ g, r.home? b = some g ∧ r.owner? g = some o :=
  Option.bind_eq_some_iff.mp hholder

theorem up?_root (hroot : r.parent? r.root = none) : r.up? r.root = none := by
  simp [up?, hroot]

theorem Inside.eq_root (hroot : r.parent? r.root = none) (h : r.Inside o r.root) : o = r.root := by
  rcases h.cases_tail with heq | ⟨p, -, hup⟩
  · exact heq.symm
  · cases (up?_root hroot).symm.trans hup

theorem Inside.step (h : r.Inside o p) (hup : r.up? q = some p) : r.Inside o q := h.tail hup

theorem Reached.step (h : r.Reached o) (hup : r.up? q = some o) : r.Reached q := h.tail hup

theorem Reached.inside (h : r.Reached o) (hin : r.Inside o p) : r.Reached p := h.trans hin

/-- The root stands in no block, so around a reached operation in a block there is another one. -/
theorem Reached.exists_holder (hroot : r.parent? r.root = none) (h : r.Reached o)
    (hparent : r.parent? o = some b) : ∃ m, r.holder? b = some m ∧ r.Reached m := by
  rcases h.cases_tail with rfl | ⟨m, hm, hup⟩
  · cases hroot.symm.trans hparent
  · exact ⟨m, (up?_of_parent? hparent).symm.trans hup, hm⟩

/-- Where links agree the holder of a block is the operation that has it in a region. -/
theorem Nested.holder?_iff (h : r.Nested) :
    r.holder? b = some o ↔ ∃ g ∈ r.regionsOf o, b ∈ r.blocksOf g := by
  constructor
  · intro hholder
    obtain ⟨g, hg, ho⟩ := exists_home?_of_holder? hholder
    exact ⟨g, (h.region_listed g o).mpr ho, (h.block_listed b g).mpr hg⟩
  · rintro ⟨g, ho, hg⟩
    simp [holder?, (h.block_listed b g).mp hg, (h.region_listed g o).mp ho]

/-- What holds a block has a region. -/
theorem Nested.regionsOf_ne_nil (h : r.Nested) (hholder : r.holder? b = some o) :
    r.regionsOf o ≠ [] := by
  obtain ⟨g, hg, -⟩ := h.holder?_iff.mp hholder
  exact List.ne_nil_of_mem hg

/-- The blocks of an operation are different from each other. -/
theorem nodup_innerBlocks (hn : r.Nested) (o : OpId) :
    ((r.regionsOf o).flatMap r.blocksOf).Nodup := by
  refine List.nodup_flatMap.mpr ⟨fun g _ => hn.blocks_nodup g, ?_⟩
  refine (hn.regions_nodup o).imp fun {g g'} hne b hb hb' => hne ?_
  rw [hn.block_listed] at hb hb'
  exact Option.mem_unique hb hb'

/-! ## No circles -/

/-- What is directly around a reached operation does not lie inside it. -/
theorem Reached.not_inside_up (hroot : r.parent? r.root = none) (h : r.Reached o)
    (hup : r.up? o = some p) : ¬ r.Inside o p := by
  induction h generalizing p with
  | refl =>
    rw [up?_root hroot] at hup
    cases hup
  | @tail m o hm hom ih =>
    obtain rfl := Option.mem_unique hom hup
    intro hin
    -- the way down from `o` to `m` ends with a step, which closes a shorter circle at `m`
    rcases hin.cases_tail with rfl | ⟨k, hk, hkm⟩
    · exact ih hom .refl
    · exact ih hkm (hk.head hom)

/-- Of two operations around a third, one is inside the other. -/
theorem Inside.total (ho : r.Inside o p) (hq : r.Inside q p) : r.Inside o q ∨ r.Inside q o := by
  have hunique : Relator.RightUnique (Function.swap fun p o => r.up? o = some p) :=
    fun _ _ _ h₁ h₂ => Option.mem_unique h₁ h₂
  have htotal := Relation.ReflTransGen.total_of_right_unique hunique
    (Relation.reflTransGen_swap.mpr ho) (Relation.reflTransGen_swap.mpr hq)
  exact (htotal.imp Relation.reflTransGen_swap.mp Relation.reflTransGen_swap.mp).symm

theorem Inside.eq_of_up? (hroot : r.parent? r.root = none) (hreached : r.Reached o)
    (hup : r.up? o = r.up? q) (h : r.Inside o q) : o = q := by
  rcases h.cases_tail with rfl | ⟨k, hk, hkq⟩
  · rfl
  · exact absurd hk (hreached.not_inside_up hroot (hup.trans hkq))

/-- Two operations with the same one around them have nothing inside in common. -/
theorem Inside.disjoint (hroot : r.parent? r.root = none) (ho : r.Reached o) (hq : r.Reached q)
    (hup : r.up? o = r.up? q) (hne : o ≠ q) (h : r.Inside o p) : ¬ r.Inside q p := by
  intro h'
  rcases h.total h' with hin | hin
  · exact hne (hin.eq_of_up? hroot ho hup)
  · exact hne (hin.eq_of_up? hroot hq hup.symm).symm

/-! ## How deep an operation is nested -/

/-- An operation has exactly that many others around it, the root being the outermost. -/
inductive Depth (r : Routine) : Nat → OpId → Prop
  | root : Depth r 0 r.root
  | inner {k : Nat} {p o : OpId} : Depth r k p → r.up? o = some p → Depth r (k + 1) o

theorem Depth.reached (h : r.Depth k o) : r.Reached o := by
  induction h with
  | root => exact .refl
  | inner _ hup ih => exact ih.step hup

theorem Reached.depth (h : r.Reached o) : ∃ k, r.Depth k o := by
  induction h with
  | refl => exact ⟨0, .root⟩
  | tail _ hup ih =>
    obtain ⟨k, hk⟩ := ih
    exact ⟨k + 1, hk.inner hup⟩

/-- There are no more different operations than entries. -/
theorem length_le_size {l : List OpId} {n : Nat} (hnodup : l.Nodup)
    (hlt : ∀ p ∈ l, p.index < n) : l.length ≤ n := by
  -- their indices are different and below `n`
  have hindices : (l.map OpId.index).Nodup := hnodup.map fun _ _ => OpId.ext
  have hsub : l.map OpId.index ⊆ List.range n := by
    intro i hi
    obtain ⟨p, hp, rfl⟩ := List.mem_map.mp hi
    exact List.mem_range.mpr (hlt p hp)
  simpa using (hindices.subperm hsub).length_le

/-- What is reached has an entry, if the root has one. -/
theorem Reached.known (h : r.Reached o) (hroot : r.root.index < r.ops.size) :
    o.index < r.ops.size := by
  rcases h.cases_tail with rfl | ⟨p, -, hup⟩
  · exact hroot
  · obtain ⟨d, hd⟩ := exists_op?_of_up? hup
    exact lt_of_op? hd

/-- The operations around an operation, itself included, are all different. -/
theorem Depth.chain (h : r.Depth k o) (hroot : r.parent? r.root = none)
    (hknown : r.root.index < r.ops.size) :
    ∃ l : List OpId, l.length = k + 1 ∧ l.Nodup ∧ ∀ p ∈ l, r.Inside p o ∧ p.index < r.ops.size := by
  induction h with
  | root => exact ⟨[r.root], rfl, List.nodup_singleton _, by simpa using ⟨.refl, hknown⟩⟩
  | @inner k p o hp hup ih =>
    obtain ⟨l, hlen, hnodup, hl⟩ := ih
    have hreached : r.Reached o := hp.reached.step hup
    -- the new operation is none of those around it, or it would lie inside itself
    have hnew : o ∉ l := fun hmem => hreached.not_inside_up hroot hup (hl o hmem).1
    refine ⟨o :: l, by simp [hlen], List.nodup_cons.mpr ⟨hnew, hnodup⟩, fun q hq => ?_⟩
    rcases List.mem_cons.mp hq with rfl | hq
    · exact ⟨.refl, hreached.known hknown⟩
    · exact ⟨(hl q hq).1.step hup, (hl q hq).2⟩

theorem Depth.lt_size (h : r.Depth k o) (hroot : r.parent? r.root = none)
    (hknown : r.root.index < r.ops.size) : k < r.ops.size := by
  obtain ⟨l, hlen, hnodup, hl⟩ := h.chain hroot hknown
  have hle := length_le_size hnodup fun p hp => (hl p hp).2
  omega

/-! ## Blocks -/

theorem InsideBlock.not_parent (hroot : r.parent? r.root = none) (h : r.Reached o)
    (hparent : r.parent? o = some b) : ¬ r.InsideBlock o b := by
  rintro ⟨p, hin, hholder⟩
  exact h.not_inside_up hroot ((up?_of_parent? hparent).trans hholder) hin

theorem InsideBlock.disjoint (hroot : r.parent? r.root = none) (ho : r.Reached o)
    (hq : r.Reached q) (hup : r.up? o = r.up? q) (hne : o ≠ q) (h : r.InsideBlock o c) :
    ¬ r.InsideBlock q c := by
  rintro ⟨p', hin', hholder'⟩
  obtain ⟨p, hin, hholder⟩ := h
  obtain rfl := Option.mem_unique hholder hholder'
  exact hin.disjoint hroot ho hq hup hne hin'

/-- A block inside an operation is under one of the operation's own blocks. -/
theorem insideBlock_iff : r.InsideBlock o c ↔ ∃ b, r.holder? b = some o ∧ r.Under b c := by
  constructor
  · rintro ⟨p, hin, hholder⟩
    rcases hin.cases_head with rfl | ⟨q, hq, hin⟩
    · exact ⟨c, hholder, .inl rfl⟩
    · obtain ⟨b, hparent, hb⟩ := exists_parent?_of_up? hq
      exact ⟨b, hb, .inr ⟨q, hparent, p, hin, hholder⟩⟩
  · rintro ⟨b, hb, rfl | ⟨q, hq, p, hin, hholder⟩⟩
    · exact ⟨o, .refl, hb⟩
    · exact ⟨p, .head ((up?_of_parent? hq).trans hb) hin, hholder⟩

theorem Under.trans {a : BlockId} (h : r.Under a b) (h' : r.Under b c) : r.Under a c := by
  rcases h' with rfl | ⟨q', hq', p', hin', hholder'⟩
  · exact h
  · rcases h with rfl | ⟨q, hq, p, hin, hholder⟩
    · exact .inr ⟨q', hq', p', hin', hholder'⟩
    · have hup : r.up? q' = some p := (up?_of_parent? hq').trans hholder
      exact .inr ⟨q, hq, p', (hin.step hup).trans hin', hholder'⟩

/-- A block of an operation is under the one that the operation stands in. -/
theorem Under.of_holder (hparent : r.parent? o = some b) (hholder : r.holder? c = some o) :
    r.Under b c :=
  .inr ⟨o, hparent, o, .refl, hholder⟩

/-- Two blocks of one operation have no block under them in common. -/
theorem Under.disjoint {b₁ b₂ : BlockId} (hroot : r.parent? r.root = none) (ho : r.Reached o)
    (h₁ : r.holder? b₁ = some o) (h₂ : r.holder? b₂ = some o) (hne : b₁ ≠ b₂)
    (h : r.Under b₁ c) : ¬ r.Under b₂ c := by
  -- a block of `o` is inside no operation of another block of `o`
  have hchild : ∀ {b₁ b₂ : BlockId} {q : OpId}, r.holder? b₁ = some o → r.holder? b₂ = some o →
      r.parent? q = some b₁ → ¬ r.InsideBlock q b₂ := by
    rintro b₁ b₂ q h₁ h₂ hq ⟨p, hin, hp⟩
    obtain rfl := Option.mem_unique h₂ hp
    have hup : r.up? q = some o := (up?_of_parent? hq).trans h₁
    exact (ho.step hup).not_inside_up hroot hup hin
  rintro (rfl | ⟨q₂, hq₂, hin₂⟩)
  · rcases h with rfl | ⟨q₁, hq₁, hin₁⟩
    · exact hne rfl
    · exact hchild h₁ h₂ hq₁ hin₁
  · rcases h with rfl | ⟨q₁, hq₁, hin₁⟩
    · exact hchild h₂ h₁ hq₂ hin₂
    -- the two operations stand in different blocks, so they are different
    · have hup₁ : r.up? q₁ = some o := (up?_of_parent? hq₁).trans h₁
      have hup₂ : r.up? q₂ = some o := (up?_of_parent? hq₂).trans h₂
      have hq : q₁ ≠ q₂ := by
        rintro rfl
        exact hne (Option.mem_unique hq₁ hq₂)
      exact hin₁.disjoint hroot (ho.step hup₁) (ho.step hup₂) (hup₁.trans hup₂.symm) hq hin₂

end Routine

end BufferOwnership
