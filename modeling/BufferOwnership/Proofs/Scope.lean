import BufferOwnership.Proofs.Tree

/-!
# Scopes

A value can be used where it is visible: an argument in its block, a result after its operation,
and either of them in everything nested there. `WellFormed` is what is asked of a routine and kept
by all that is done to it. An edit carries visibility over if it keeps arguments, results and the
order in blocks, up to a renaming (`Carries`).
-/

namespace BufferOwnership

namespace Routine

/-- A value can be used in a block, after the operations `front` of it. -/
inductive Visible (r : Routine) : BlockId → List OpId → ValueId → Prop
  | argument {b : BlockId} {front : List OpId} {v : ValueId} :
      v ∈ r.argsOf b → Visible r b front v
  | earlier {b : BlockId} {front : List OpId} {v : ValueId} {p : OpId} :
      p ∈ front → v ∈ r.resultsOf p → Visible r b front v
  | enclosing {b c : BlockId} {front before after : List OpId} {v : ValueId} {o : OpId} :
      r.holder? b = some o → r.opsOf c = before ++ o :: after → Visible r c before v →
      Visible r b front v

/-- A value can be used by an operation. -/
def InScope (r : Routine) (o : OpId) (v : ValueId) : Prop :=
  ∃ b front rest, r.opsOf b = front ++ o :: rest ∧ r.Visible b front v

/-- A routine in which every part is where its links say, and every operand is defined. -/
structure WellFormed (r : Routine) : Prop where
  linked : r.Linked
  known : ∀ o, ∀ v ∈ r.operandsOf o, v.index < r.values.size
  root_routine : ∃ name, r.kind? r.root = some (.routine name)
  only_root : ∀ o name, r.kind? o = some (.routine name) → o = r.root
  root_unlinked : r.parent? r.root = none
  live : ∀ o, r.Reached o → r.isErased o = false
  in_scope : ∀ o, r.Reached o → ∀ v ∈ r.operandsOf o, r.InScope o v

variable {r r' : Routine} {o p : OpId} {b c : BlockId} {v : ValueId}
variable {front front' rest pre post pre' post' : List OpId}

/-! ## Places in a block -/

theorem Nested.block_unique (h : r.Nested) (hb : o ∈ r.opsOf b) (hc : o ∈ r.opsOf c) :
    b = c := by
  rw [h.op_listed] at hb hc
  exact Option.mem_unique hb hc

/-- An operation is listed only once. -/
theorem Nested.listed_once (h : r.Nested) (hlist : r.opsOf b = pre ++ o :: post) :
    o ∉ pre ∧ o ∉ post := by
  have hnodup := h.ops_nodup b
  rw [hlist, List.nodup_middle, List.nodup_cons, List.mem_append, not_or] at hnodup
  exact hnodup.1

/-- An operation stands in one place. -/
theorem Nested.place_unique (h : r.Nested) (hb : r.opsOf b = pre ++ o :: post)
    (hc : r.opsOf c = pre' ++ o :: post') : b = c ∧ pre = pre' ∧ post = post' := by
  obtain rfl : b = c := h.block_unique (o := o) (by simp [hb]) (by simp [hc])
  obtain ⟨hpre, hpost⟩ := h.listed_once hb
  rw [hb] at hc
  obtain ⟨rfl, -, rfl⟩ := (List.append_cons_inj_of_notMem hpre hpost).mp hc
  exact ⟨rfl, rfl, rfl⟩

/-- A result comes from the operation that lists it. -/
theorem Linked.origin?_of_result (h : r.Linked) (hres : v ∈ r.resultsOf o) :
    ∃ i, r.origin? v = some (.result o i) := by
  obtain ⟨i, hi⟩ := List.mem_iff_getElem?.mp hres
  exact ⟨i, (h.result_listed v o i).mp hi⟩

theorem Linked.origin?_of_arg (h : r.Linked) (harg : v ∈ r.argsOf b) :
    ∃ i, r.origin? v = some (.argument b i) := by
  obtain ⟨i, hi⟩ := List.mem_iff_getElem?.mp harg
  exact ⟨i, (h.arg_listed v b i).mp hi⟩

theorem Linked.not_arg_of_result (h : r.Linked) (hres : v ∈ r.resultsOf o) : v ∉ r.argsOf b := by
  intro harg
  obtain ⟨i, hi⟩ := h.origin?_of_result hres
  obtain ⟨j, hj⟩ := h.origin?_of_arg harg
  cases hi.symm.trans hj

theorem Linked.result_unique (h : r.Linked) (ho : v ∈ r.resultsOf o) (hp : v ∈ r.resultsOf p) :
    o = p := by
  obtain ⟨i, hi⟩ := h.origin?_of_result ho
  obtain ⟨j, hj⟩ := h.origin?_of_result hp
  cases hi.symm.trans hj
  rfl

theorem Linked.arg_unique (h : r.Linked) (hb : v ∈ r.argsOf b) (hc : v ∈ r.argsOf c) : b = c := by
  obtain ⟨i, hi⟩ := h.origin?_of_arg hb
  obtain ⟨j, hj⟩ := h.origin?_of_arg hc
  cases hi.symm.trans hj
  rfl

theorem lt_of_origin? {origin : ValueOrigin} (h : r.origin? v = some origin) :
    v.index < r.values.size := by
  obtain ⟨V, hV, -⟩ := Option.map_eq_some_iff.mp h
  exact lt_of_value? hV

theorem Linked.result_known (h : r.Linked) (hv : v ∈ r.resultsOf o) : v.index < r.values.size :=
  lt_of_origin? (h.origin?_of_result hv).choose_spec

theorem Linked.arg_known (h : r.Linked) (hv : v ∈ r.argsOf b) : v.index < r.values.size :=
  lt_of_origin? (h.origin?_of_arg hv).choose_spec

/-- In a linked routine, an operand in scope is visible where its operation stands. -/
theorem InScope.visible (hlinked : r.Linked) (h : r.InScope o v)
    (hlist : r.opsOf b = front ++ o :: rest) : r.Visible b front v := by
  obtain ⟨c, front', rest', hc, hvis⟩ := h
  obtain ⟨rfl, rfl, -⟩ := hlinked.place_unique hlist hc
  exact hvis

/-- What is visible has an entry. -/
theorem Visible.known (hlinked : r.Linked) (h : r.Visible b front v) :
    v.index < r.values.size := by
  induction h with
  | argument harg => exact hlinked.arg_known harg
  | earlier _ hres => exact hlinked.result_known hres
  | enclosing _ _ _ ih => exact ih

theorem InScope.known (hlinked : r.Linked) (h : r.InScope o v) : v.index < r.values.size := by
  obtain ⟨b, front, rest, -, hvis⟩ := h
  exact hvis.known hlinked

/-- What is reached has an entry. -/
theorem WellFormed.op?_of_reached (h : r.WellFormed) (ho : r.Reached o) : r.op? o ≠ none := by
  rcases ho.cases_tail with hroot | ⟨p, -, hup⟩
  · obtain ⟨name, hkind⟩ := h.root_routine
    obtain ⟨d, hd, -⟩ := exists_op?_of_kind? hkind
    simp [hroot, hd]
  · obtain ⟨d, hd⟩ := exists_op?_of_up? hup
    simp [hd]

theorem Linked.op?_of_holder (h : r.Linked) (hholder : r.holder? b = some o) :
    r.op? o ≠ none := by
  obtain ⟨g, hg, -⟩ := h.holder?_iff.mp hholder
  obtain ⟨d, hd, -⟩ := exists_op?_of_mem_regionsOf hg
  simp [hd]

theorem Linked.op?_of_listed (h : r.Linked) (ho : o ∈ r.opsOf b) : r.op? o ≠ none := by
  obtain ⟨d, hd, -⟩ := exists_op?_of_parent? ((h.op_listed o b).mp ho)
  simp [hd]

/-! ## Where values are declared -/

/-- A value is an argument of a block, or a result of one of its operations. -/
def Declares (r : Routine) (b : BlockId) (v : ValueId) : Prop :=
  v ∈ r.argsOf b ∨ ∃ p ∈ r.opsOf b, v ∈ r.resultsOf p

/-- A value is declared in one block. -/
theorem Declares.unique (h : r.Declares b v) (h' : r.Declares c v) (hl : r.Linked) : b = c := by
  rcases h with hb | ⟨p, hp, hb⟩ <;> rcases h' with hc | ⟨q, hq, hc⟩
  · exact hl.arg_unique hb hc
  · exact absurd hb (hl.not_arg_of_result hc)
  · exact absurd hc (hl.not_arg_of_result hb)
  · rw [hl.result_unique hb hc] at hp
    exact hl.block_unique hp hq

/-- What is visible in a block is declared there or in one around it. -/
theorem Visible.declared (h : r.Visible b front v) (hl : r.Linked)
    (hfront : ∀ p ∈ front, p ∈ r.opsOf b) : ∃ a, r.Declares a v ∧ r.Under a b := by
  induction h with
  | argument harg => exact ⟨_, .inl harg, .inl rfl⟩
  | earlier hp hres => exact ⟨_, .inr ⟨_, hfront _ hp, hres⟩, .inl rfl⟩
  | @enclosing b c _ before after _ o hholder hlist _ ih =>
    obtain ⟨a, ha, hunder⟩ := ih fun p hp => by simp [hlist, hp]
    have hparent := (hl.op_listed o c).mp (by simp [hlist])
    exact ⟨a, ha, hunder.trans (.of_holder hparent hholder)⟩

/-! ## Carrying visibility over -/

/-- Arguments, results and the order in blocks are kept up to names; what is lost holds no block. -/
structure Carries (r r' : Routine) (lost : OpId → Prop) (σ : OpId → OpId)
    (τ : ValueId → ValueId) : Prop where
  args : ∀ b, ∀ v ∈ r.argsOf b, τ v ∈ r'.argsOf b
  results : ∀ p, ¬ lost p → ∀ v ∈ r.resultsOf p, τ v ∈ r'.resultsOf (σ p)
  holder : ∀ b o, r.holder? b = some o → ¬ lost o ∧ r'.holder? b = some (σ o)
  lists : ∀ b front o rest, r.opsOf b = front ++ o :: rest → ¬ lost o →
    ∃ front' rest', r'.opsOf b = front' ++ σ o :: rest' ∧ ∀ p ∈ front, ¬ lost p → σ p ∈ front'

section Carries

variable {lost : OpId → Prop} {σ : OpId → OpId} {τ : ValueId → ValueId}

theorem Visible.carry (hc : Carries r r' lost σ τ) (h : r.Visible b front v)
    (hv : ∀ p, lost p → v ∉ r.resultsOf p) (hfront : ∀ p ∈ front, ¬ lost p → σ p ∈ front') :
    r'.Visible b front' (τ v) := by
  induction h generalizing front' with
  | argument harg => exact .argument (hc.args _ _ harg)
  | earlier hp hres =>
    have hkept := fun hl => hv _ hl hres
    exact .earlier (hfront _ hp hkept) (hc.results _ hkept _ hres)
  -- what is around a block is not lost, since it holds the block
  | enclosing hholder hlist _ ih =>
    obtain ⟨hkept, hholder'⟩ := hc.holder _ _ hholder
    obtain ⟨before', after', hlist', hbefore⟩ := hc.lists _ _ _ _ hlist hkept
    exact .enclosing hholder' hlist' (ih hv hbefore)

theorem InScope.carry (hc : Carries r r' lost σ τ) (h : r.InScope o v) (ho : ¬ lost o)
    (hv : ∀ p, lost p → v ∉ r.resultsOf p) : r'.InScope (σ o) (τ v) := by
  obtain ⟨b, front, rest, hlist, hvis⟩ := h
  obtain ⟨front', rest', hlist', hfront⟩ := hc.lists _ _ _ _ hlist ho
  exact ⟨b, front', rest', hlist', hvis.carry hc hv hfront⟩

end Carries

/-! ## Companions

An indicator that is recorded for a buffer is visible wherever the buffer is, as far as it
matters: at terminators and at operations that hold blocks. -/

/-- An operation whose place in a block matters to scopes: it ends the block, or holds others. -/
def Structural (r : Routine) (o : OpId) : Prop :=
  r.regionsOf o ≠ [] ∨ ∃ k, r.kind? o = some k ∧ k.isTerminator = true

/-- The second operation comes before every structural operation before which the first comes. -/
def Follows (r : Routine) (p q : OpId) : Prop :=
  ∀ b front o rest, r.opsOf b = front ++ o :: rest → r.Structural o → p ∈ front → q ∈ front

/-- Two arguments of one block, or results of two operations, the second with the indicator. -/
inductive Companion (r : Routine) (v i : ValueId) : Prop
  | arguments {b : BlockId} : v ∈ r.argsOf b → i ∈ r.argsOf b → Companion r v i
  | results {p q : OpId} : v ∈ r.resultsOf p → i ∈ r.resultsOf q → r.kind? q = some .own →
      r.Follows p q → Companion r v i

theorem Companion.visible (hlinked : r.Linked) {i : ValueId} (h : r.Companion v i)
    (hlist : r.opsOf b = front ++ o :: rest) (ho : r.Structural o) (hvis : r.Visible b front v) :
    r.Visible b front i := by
  induction hvis generalizing o rest with
  | argument harg =>
    cases h with
    | arguments hv hi =>
      obtain rfl := hlinked.arg_unique harg hv
      exact .argument hi
    | results hv => exact absurd harg (hlinked.not_arg_of_result hv)
  | earlier hp hres =>
    cases h with
    | arguments hv => exact absurd hv (hlinked.not_arg_of_result hres)
    | results hv hi _ hfollows =>
      obtain rfl := hlinked.result_unique hres hv
      exact .earlier (hfollows _ _ _ _ hlist ho hp) hi
  | enclosing hholder hlist' _ ih =>
    -- the operation around holds the block, so its place matters too
    exact .enclosing hholder hlist' (ih h hlist' (.inl (hlinked.regionsOf_ne_nil hholder)))

end Routine

end BufferOwnership
