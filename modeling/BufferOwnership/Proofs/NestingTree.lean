import BufferOwnership.Proofs.ShapeSpec

/-!
# The tree as a tree

An `OpTree` is a finite tree with an operation at each node; it unfolds a routine if below each
operation there are the operations of its blocks, in order. An unfolding holds exactly what lies
inside its top, each of it once. Where links agree and the root stands alone there is one from the
root: what would close a circle there would have two operations around it.
-/

namespace BufferOwnership

inductive OpTree where
  | node (op : OpId) (below : List OpTree)

namespace OpTree

def op : OpTree → OpId
  | node o _ => o

/-- All operations of a tree, each before those below it. -/
def ops : OpTree → List OpId
  | node o below => o :: below.flatMap ops

end OpTree

namespace Routine

variable {r : Routine} {o p : OpId} {t : OpTree} {k fuel : Nat}

/-! ## Directly inside -/

/-- The operations directly inside an operation, block by block. -/
def heldOps (r : Routine) (o : OpId) : List OpId :=
  ((r.regionsOf o).flatMap r.blocksOf).flatMap r.opsOf

theorem Nested.mem_heldOps (h : r.Nested) : p ∈ r.heldOps o ↔ r.up? p = some o := by
  constructor
  · intro hp
    obtain ⟨b, hb, hp⟩ := List.mem_flatMap.mp hp
    rw [h.up?_of_mem hp]
    exact h.holder?_iff.mpr (List.mem_flatMap.mp hb)
  · intro hup
    obtain ⟨b, hparent, hholder⟩ := exists_parent?_of_up? hup
    apply List.mem_flatMap.mpr
    exact ⟨b, List.mem_flatMap.mpr (h.holder?_iff.mp hholder), (h.op_listed p b).mpr hparent⟩

theorem Nested.nodup_heldOps (h : r.Nested) (o : OpId) : (r.heldOps o).Nodup := by
  refine List.nodup_flatMap.mpr ⟨fun b _ => h.ops_nodup b, ?_⟩
  -- an operation of two blocks would have two parents
  apply (nodup_innerBlocks h o).imp
  intro b c hne p hb hc
  exact hne (h.block_unique hb hc)

theorem Nested.innerOps (h : r.Nested) (ho : o.index < r.ops.size) :
    r.innerOps o = .ok (r.heldOps o) := by
  obtain ⟨d, hd⟩ := exists_op? ho
  rw [h.inRange.innerOps hd, heldOps, regionsOf_of hd]

/-! ## Unfoldings -/

/-- Below each operation of the tree there are the operations of its blocks, in their order. -/
inductive Unfolds (r : Routine) : OpTree → Prop
  | node {o : OpId} {below : List OpTree} :
      below.map OpTree.op = r.heldOps o → (∀ t ∈ below, Unfolds r t) → Unfolds r (.node o below)

/-- An unfolding holds what lies inside its top, and nothing else. -/
theorem Unfolds.mem_ops (h : r.Unfolds t) (hn : r.Nested) : p ∈ t.ops ↔ r.Inside t.op p := by
  induction h with
  | @node o below hbelow _ ih =>
    rw [OpTree.ops, List.mem_cons, List.mem_flatMap]
    show _ ↔ r.Inside o p
    constructor
    · rintro (rfl | ⟨t, ht, hp⟩)
      · exact .refl
      · have hheld : t.op ∈ r.heldOps o := hbelow ▸ List.mem_map_of_mem ht
        exact ((ih t ht).mp hp).head (hn.mem_heldOps.mp hheld)
    · intro hin
      rcases hin.cases_head with rfl | ⟨q, hq, hin⟩
      · exact .inl rfl
      · -- the first step down leads to the top of one of the trees below
        have hheld : q ∈ below.map OpTree.op := hbelow ▸ hn.mem_heldOps.mpr hq
        obtain ⟨t, ht, rfl⟩ := List.mem_map.mp hheld
        exact .inr ⟨t, ht, (ih t ht).mpr hin⟩

/-- No operation comes twice in an unfolding, if its top is reached. -/
theorem Unfolds.nodup_ops (h : r.Unfolds t) (hn : r.Nested) (hroot : r.parent? r.root = none)
    (hreached : r.Reached t.op) : t.ops.Nodup := by
  induction h with
  | @node o below hbelow hall ih =>
    have hup : ∀ t ∈ below, r.up? t.op = some o := fun t ht =>
      hn.mem_heldOps.mp (hbelow ▸ List.mem_map_of_mem ht)
    have hstep : ∀ t ∈ below, r.Reached t.op := fun t ht => hreached.step (hup t ht)
    rw [OpTree.ops]
    refine List.nodup_cons.mpr ⟨?_, List.nodup_flatMap.mpr ⟨fun t ht => ih t ht (hstep t ht), ?_⟩⟩
    · -- the top does not come again further down
      intro hmem
      obtain ⟨t, ht, ho⟩ := List.mem_flatMap.mp hmem
      exact (hstep t ht).not_inside_up hroot (hup t ht) (((hall t ht).mem_ops hn).mp ho)
    · -- different operations of the same blocks have nothing inside in common
      have htops : (below.map OpTree.op).Nodup := hbelow ▸ hn.nodup_heldOps o
      apply (List.pairwise_map.mp htops).imp_of_mem
      intro t u ht hu hne x hx hx'
      have hboth : r.up? t.op = r.up? u.op := (hup t ht).trans (hup u hu).symm
      exact Inside.disjoint hroot (hstep t ht) (hstep u hu) hboth hne
        (((hall t ht).mem_ops hn).mp hx) (((hall u hu).mem_ops hn).mp hx')

theorem mapM_tops {below : List OpTree} {f : OpId → Except Fault (List OpId)}
    (h : ∀ t ∈ below, f t.op = .ok t.ops) :
    (below.map OpTree.op).mapM f = .ok (below.map OpTree.ops) := by
  rw [mapM_eq_ok, List.forall₂_map_left_iff, List.forall₂_map_right_iff]
  exact List.forall₂_same.mpr h

/-- The descent lists the operations of the unfolding, if the fuel is enough for those below. -/
theorem Unfolds.subtreeWithin (h : r.Unfolds t) (hn : r.Nested) (hroot : r.parent? r.root = none)
    (hknown : r.root.index < r.ops.size) (hdepth : r.Depth k t.op)
    (hfuel : r.ops.size ≤ k + fuel) : r.subtreeWithin fuel t.op = .ok t.ops := by
  induction h generalizing k fuel with
  | @node o below hbelow _ ih =>
    replace hdepth : r.Depth k o := hdepth
    have hlt := hdepth.lt_size hroot hknown
    obtain ⟨fuel, rfl⟩ : ∃ n, fuel = n + 1 := ⟨fuel - 1, by omega⟩
    have htrees : ∀ t ∈ below, r.subtreeWithin fuel t.op = .ok t.ops := by
      intro t ht
      have hup := hn.mem_heldOps.mp (hbelow ▸ List.mem_map_of_mem ht)
      exact ih t ht (hdepth.inner hup) (by omega)
    show r.subtreeWithin (fuel + 1) o = _
    rw [Routine.subtreeWithin, bind_of_ok (hn.innerOps (hdepth.reached.known hknown)), ← hbelow,
      bind_of_ok (mapM_tops htrees), OpTree.ops, List.flatMap_def]
    rfl

/-- Trees for operations one by one are trees for all of them. -/
theorem exists_trees {l : List OpId} (h : ∀ p ∈ l, ∃ t : OpTree, t.op = p ∧ r.Unfolds t) :
    ∃ below : List OpTree, below.map OpTree.op = l ∧ ∀ t ∈ below, r.Unfolds t := by
  induction l with
  | nil => exact ⟨[], rfl, by simp⟩
  | cons p l ih =>
    obtain ⟨t, ht, hunfolds⟩ := h p (by simp)
    obtain ⟨below, hbelow, hall⟩ := ih fun q hq => h q (by simp [hq])
    refine ⟨t :: below, by rw [List.map_cons, ht, hbelow], fun u hu => ?_⟩
    rcases List.mem_cons.mp hu with rfl | hu
    · exact hunfolds
    · exact hall u hu

/-- What is reached can be unfolded: the depth grows downwards, and it is bounded. -/
theorem Depth.exists_unfolds (hdepth : r.Depth k o) (hn : r.Nested)
    (hroot : r.parent? r.root = none) (hknown : r.root.index < r.ops.size)
    (hfuel : r.ops.size ≤ k + fuel) : ∃ t : OpTree, t.op = o ∧ r.Unfolds t := by
  induction fuel generalizing k o with
  | zero =>
    have hlt := hdepth.lt_size hroot hknown
    omega
  | succ fuel ih =>
    have hinner : ∀ p ∈ r.heldOps o, ∃ t : OpTree, t.op = p ∧ r.Unfolds t := by
      intro p hp
      exact ih (hdepth.inner (hn.mem_heldOps.mp hp)) (by omega)
    obtain ⟨below, hbelow, hall⟩ := exists_trees hinner
    exact ⟨.node o below, rfl, .node hbelow hall⟩

/-- The operations that are reached form a finite tree: there is an unfolding from the root on, it
has each of them at one node, and the descent from the root lists its nodes. -/
def FormsTree (r : Routine) : Prop :=
  ∃ t : OpTree, t.op = r.root ∧ r.Unfolds t ∧ t.ops.Nodup ∧ (∀ o, o ∈ t.ops ↔ r.Reached o) ∧
    r.subtree r.root = .ok t.ops

theorem Nested.formsTree (hn : r.Nested) (hroot : r.parent? r.root = none)
    (hknown : r.root.index < r.ops.size) : r.FormsTree := by
  have hfuel : r.ops.size ≤ 0 + r.depthBound := by simp [depthBound]
  obtain ⟨t, htop, ht⟩ := Depth.root.exists_unfolds hn hroot hknown hfuel
  have hreached : r.Reached t.op := htop ▸ .refl
  refine ⟨t, htop, ht, ht.nodup_ops hn hroot hreached, fun o => ?_, ?_⟩
  · rw [ht.mem_ops hn, htop]
    rfl
  · rw [← htop]
    exact ht.subtreeWithin hn hroot hknown (htop ▸ .root) hfuel

end Routine

end BufferOwnership
