import BufferOwnership.Proofs.Tokens
import BufferOwnership.Proofs.UseCounts

/-!
# The ledger of indicators

A stretch of the work is kept account of by a `Ledger`: it is given some indicators that are still
to be consumed, and leaves others. An indicator from before keeps its balance, the number of its
uses together with the times that it is still to be consumed. One that the stretch introduces has
balance one, if the stretch is sound; if not, one of them has balance zero, and is lost for good.
Ledgers compose, and the edits that threading consists of have sound ones.
-/

namespace BufferOwnership

open Routine

/-! ## Indicators that were introduced -/

/-- The last results of an operation, as many as there are buffers among the results. -/
def Routine.indicatorResults (r : Routine) (x : OpId) : List ValueId :=
  (r.resultsOf x).drop ((r.resultsOf x).length - r.bufferCount (r.resultsOf x))

/-- An indicator that a routine `r` has and the routine `f` that it comes from has not: a result of
an own or of a retain that was inserted, an argument that was appended to a block, or one of the
results that a construct got when it was rebuilt. -/
inductive Introduced (f r : Routine) (v : ValueId) : Prop
  | own {x : OpId} : f.op? x = none → r.kind? x = some .own → v ∈ r.resultsOf x → Introduced f r v
  | retain {x : OpId} {n : Nat} : f.op? x = none → r.kind? x = some (.retain n) →
      v ∈ r.resultsOf x → Introduced f r v
  | argument {b : BlockId} : v ∈ (r.argsOf b).drop (f.argsOf b).length → Introduced f r v
  | result {x : OpId} : f.op? x = none → r.isConstruct x = true → v ∈ r.indicatorResults x →
      Introduced f r v

variable {f r r' r'' : Routine} {v i : ValueId} {o x : OpId} {b : BlockId}

theorem Routine.mem_resultsOf_of_indicator (h : v ∈ r.indicatorResults x) : v ∈ r.resultsOf x :=
  List.mem_of_mem_drop h

/-- What is introduced belongs to an operation that was not there, or to a block. -/
theorem Introduced.place (h : Introduced f r v) :
    (∃ x, f.op? x = none ∧ v ∈ r.resultsOf x) ∨ ∃ b, v ∈ r.argsOf b := by
  cases h with
  | own hx _ hv => exact .inl ⟨_, hx, hv⟩
  | retain hx _ hv => exact .inl ⟨_, hx, hv⟩
  | argument hv => exact .inr ⟨_, List.mem_of_mem_drop hv⟩
  | result hx _ hv => exact .inl ⟨_, hx, mem_resultsOf_of_indicator hv⟩

theorem Introduced.known (h : Introduced f r v) (hl : r.Linked) : v.index < r.values.size := by
  rcases h.place with ⟨x, -, hv⟩ | ⟨b, hv⟩
  · exact hl.result_known hv
  · exact Visible.known hl (.argument hv : r.Visible b [] v)

/-- The results that an operation had from the beginning are not introduced. -/
theorem Introduced.not_result (h : Introduced f r v) (hl : r.Linked) (hfo : f.op? o ≠ none) :
    v ∉ r.resultsOf o := by
  intro hv
  rcases h.place with ⟨x, hx, hvx⟩ | ⟨b, hvb⟩
  · rw [hl.result_unique hvx hv] at hx
    exact hfo hx
  · exact hl.not_arg_of_result hv hvb

/-- Nothing is introduced at the start. -/
theorem not_introduced_self : ¬ Introduced f f v := by
  rintro (⟨hx, -, hv⟩ | ⟨hx, -, hv⟩ | ⟨hv⟩ | ⟨hx, -, hv⟩)
  · simp [resultsOf, hx] at hv
  · simp [resultsOf, hx] at hv
  · simp at hv
  · simpa [resultsOf, hx] using mem_resultsOf_of_indicator hv

namespace Kept

theorem indicatorResults (h : Kept r r') (hl : r.Linked) (hx : r.op? x ≠ none) :
    r'.indicatorResults x = r.indicatorResults x := by
  rw [Routine.indicatorResults, Routine.indicatorResults, h.resultsOf hx,
    h.bufferCount fun v hv => hl.result_known hv]

/-- What is introduced stays so. -/
theorem introduced (h : Kept r r') (hl : r.Linked) (hv : Introduced f r v) :
    Introduced f r' v := by
  cases hv with
  | @own x hx hkind hv =>
    have hop : r.op? x ≠ none := by rintro he; simp [Routine.kind?, he] at hkind
    exact .own hx ((h.kind?_eq hop).trans hkind) (h.mem_resultsOf hv)
  | @retain x n hx hkind hv =>
    have hop : r.op? x ≠ none := by rintro he; simp [Routine.kind?, he] at hkind
    exact .retain hx ((h.kind?_eq hop).trans hkind) (h.mem_resultsOf hv)
  | @argument b hv =>
    obtain ⟨extra, hextra⟩ := h.args b
    refine .argument (b := b) ?_
    rw [← hextra, List.drop_append]
    exact List.mem_append_left _ hv
  | @result x hx hcons hv =>
    have hop : r.op? x ≠ none := by rintro he; simp [isConstruct, Routine.kind?, he] at hcons
    refine .result hx ?_ (by rwa [h.indicatorResults hl hop])
    rwa [isConstruct, h.kind?_eq hop]

/-- A value that was there is introduced now only if it was so before. -/
theorem introduced_of_known (h : Kept r r') (hl : r.Linked) (hl' : r'.Linked)
    (hknown : v.index < r.values.size) (hv : Introduced f r' v) : Introduced f r v := by
  obtain ⟨V, hV⟩ := exists_value? hknown
  have horigin : r'.origin? v = r.origin? v := by
    rw [origin?_of hV, origin?_of (h.value v V hV)]
  -- the operation that it is a result of was there
  have hresult : ∀ {x}, v ∈ r'.resultsOf x → v ∈ r.resultsOf x ∧ r.op? x ≠ none := by
    intro x hx
    obtain ⟨k, hk⟩ := List.mem_iff_getElem?.mp hx
    rw [hl'.result_listed, horigin, ← hl.result_listed] at hk
    have hmem := List.mem_of_getElem? hk
    obtain ⟨d, hd, -⟩ := exists_op?_of_mem_resultsOf hmem
    exact ⟨hmem, by simp [hd]⟩
  cases hv with
  | own hx hkind hv =>
    obtain ⟨hv, hop⟩ := hresult hv
    exact .own hx ((h.kind?_eq hop).symm.trans hkind) hv
  | retain hx hkind hv =>
    obtain ⟨hv, hop⟩ := hresult hv
    exact .retain hx ((h.kind?_eq hop).symm.trans hkind) hv
  | @argument b hv =>
    obtain ⟨k, hk⟩ := List.mem_iff_getElem?.mp hv
    rw [List.getElem?_drop, hl'.arg_listed, horigin, ← hl.arg_listed, ← List.getElem?_drop] at hk
    exact .argument (List.mem_of_getElem? hk)
  | result hx hcons hv =>
    obtain ⟨-, hop⟩ := hresult (mem_resultsOf_of_indicator hv)
    refine .result hx ?_ (by rwa [← h.indicatorResults hl hop])
    rwa [isConstruct, ← h.kind?_eq hop]

end Kept

/-! ## Ledgers -/

/-- A routine that comes from `f` and whose indicators can be kept account of. -/
structure Booked (f r : Routine) : Prop where
  linked : r.Linked
  known : ∀ o, ∀ v ∈ r.operandsOf o, v.index < r.values.size
  source : Kept f r
  typed : ∀ v, Introduced f r v → r.ty? v = some .ownership

namespace Booked

theorem start (hw : f.WellFormed) : Booked f f where
  linked := hw.linked
  known := hw.known
  source := .refl f
  typed _ hv := absurd hv not_introduced_self

/-- A value that is not there yet is not used. -/
theorem useCount_fresh (h : Booked f r) (hv : r.values.size ≤ v.index) : r.useCount v = 0 :=
  useCount_eq_zero fun o hmem => Nat.not_lt.mpr hv (h.known o v hmem)

theorem op?_fresh (h : Booked f r) : f.op? r.freshOp = none := by
  by_contra hne
  obtain ⟨d, hd⟩ := Option.ne_none_iff_exists'.mp hne
  obtain ⟨e, he, -⟩ := h.source.op _ d hd
  rw [op?_freshOp] at he
  cases he

/-- A buffer is not an indicator. -/
theorem not_introduced_of_buffer (h : Booked f r) (hv : r.holdsBuffer v = true) :
    ¬ Introduced f r v := by
  intro hi
  simp [holdsBuffer, h.typed v hi, Ty.isBuffer] at hv

end Booked

/-- The indicators of a threaded session can be kept account of. -/
theorem Threaded.booked {s : Session} (ht : Threaded f s) (hw : f.WellFormed) :
    Booked f s.routine := by
  obtain ⟨δ, hδ⟩ := ht.embedded
  refine ⟨ht.wellFormed.linked, ht.wellFormed.known, hδ.change.keeps, fun v hv => ?_⟩
  have hmade : ∀ {x}, f.op? x = none → s.routine.kind? x ≠ none → Made f s.routine x :=
    fun hx hkind => hδ.made _ hx fun hnone => hkind (by simp [Routine.kind?, hnone])
  cases hv with
  | own hx hkind hv =>
    exact (hmade hx (by simp [hkind])).typed (by simp [isConstruct, hkind, OpKind.construct?]) v hv
  | retain hx hkind hv =>
    exact (hmade hx (by simp [hkind])).typed (by simp [isConstruct, hkind, OpKind.construct?]) v hv
  | @argument b hv =>
    obtain ⟨extra, hargs, htyped⟩ := hδ.change.args b
    rw [hargs, List.drop_left] at hv
    exact htyped v hv
  | @result x hx hcons hv =>
    have hx' : s.routine.op? x ≠ none := by
      rintro he
      simp [isConstruct, Routine.kind?, he] at hcons
    -- a construct that was not there is one that was rebuilt
    obtain ⟨p, rfl, hp⟩ : ∃ p, δ.op p = x ∧ δ.op p ≠ p := by
      rcases hδ.change.only x hx' with hf | hnew | hp | ⟨-, n, hkind⟩
      · exact absurd hx hf
      · obtain ⟨-, e, he, hins⟩ := hδ.change.new x hnew
        rw [isConstruct_of he] at hcons
        rcases hins.kind with hkind | hkind | ⟨n, hkind, -⟩ <;>
          simp [hkind, OpKind.construct?] at hcons
      · exact hp
      · simp [isConstruct, hkind, OpKind.construct?] at hcons
    obtain ⟨d, e, hd, he, hgrown⟩ := hδ.change.image_of_renamed hp
    obtain ⟨extra, hresults, htyped, -, hcount⟩ := hgrown.results
    have hleading : s.routine.bufferCount (d.results.map δ.value) = f.bufferCount d.results :=
      hδ.change.bufferCount_map fun w hw' => hw.linked.result_known (o := p) (resultsOf_of hd ▸ hw')
    have hextra : s.routine.bufferCount extra = 0 := by
      refine List.countP_eq_zero.mpr fun w hw => ?_
      simp [holdsBuffer, htyped w hw, Ty.isBuffer]
    have hbuffers : s.routine.bufferCount (d.results.map δ.value ++ extra) = extra.length := by
      rw [hcount hp, bufferCount, List.countP_append, ← bufferCount, ← bufferCount, hleading,
        hextra, Nat.add_zero]
    rw [indicatorResults, resultsOf_of he, hresults, hbuffers] at hv
    refine htyped v ?_
    rwa [List.drop_left' (by simp)] at hv

/-- The account of a stretch of the work, from `r` to `r'`: what it is given to be consumed, what it
leaves to be consumed, and whether it is sound. -/
structure Ledger (f r : Routine) (given : List ValueId) (r' : Routine) (left : List ValueId)
    (sound : Prop) : Prop where
  booked : Booked f r
  booked' : Booked f r'
  kept : Kept r r'
  carried : ∀ v, Introduced f r v → r'.useCount v + left.count v = r.useCount v + given.count v
  spent : sound → ∀ v, Introduced f r' v → ¬ Introduced f r v → r'.useCount v + left.count v = 1
  lost : ¬ sound → ∃ v, Introduced f r' v ∧ ¬ Introduced f r v ∧ r'.useCount v + left.count v = 0

namespace Ledger

variable {given given' left left' mid : List ValueId} {sound sound' all : Prop}

/-- Nothing happens. -/
theorem refl (hb : Booked f r) (given : List ValueId) : Ledger f r given r given True where
  booked := hb
  booked' := hb
  kept := .refl r
  carried _ _ := rfl
  spent _ _ hv hnot := absurd hv hnot
  lost h := absurd trivial h

/-- Only the balances of indicators count. -/
theorem congr (h : Ledger f r given r' left sound)
    (hgiven : ∀ v, Introduced f r v → given'.count v = given.count v)
    (hleft : ∀ v, Introduced f r' v → left'.count v = left.count v) :
    Ledger f r given' r' left' sound :=
  { h with
    carried := fun v hv => by
      rw [hleft v (h.kept.introduced h.booked.linked hv), hgiven v hv, h.carried v hv]
    spent := fun hs v hv hnot => by rw [hleft v hv, h.spent hs v hv hnot]
    lost := fun hs => by
      obtain ⟨v, hv, hnot, hzero⟩ := h.lost hs
      exact ⟨v, hv, hnot, by rw [hleft v hv, hzero]⟩ }

/-- One stretch after another: what the first one introduces keeps its balance in the second. -/
theorem trans (h : Ledger f r given r' mid sound) (h' : Ledger f r' mid r'' left sound')
    (hall : all ↔ sound ∧ sound') : Ledger f r given r'' left all where
  booked := h.booked
  booked' := h'.booked'
  kept := h.kept.trans h'.kept
  carried v hv := by
    rw [h'.carried v (h.kept.introduced h.booked.linked hv), h.carried v hv]
  spent hs v hv hnot := by
    obtain ⟨hs, hs'⟩ := hall.mp hs
    by_cases hmid : Introduced f r' v
    · rw [h'.carried v hmid, h.spent hs v hmid hnot]
    · exact h'.spent hs' v hv hmid
  lost hs := by
    by_cases hs₁ : sound
    · obtain ⟨v, hv, hnot, hzero⟩ := h'.lost fun hs' => hs (hall.mpr ⟨hs₁, hs'⟩)
      exact ⟨v, hv, fun hr => hnot (h.kept.introduced h.booked.linked hr), hzero⟩
    · obtain ⟨v, hv, hnot, hzero⟩ := h.lost hs₁
      exact ⟨v, h'.kept.introduced h.booked'.linked hv, hnot, by rw [h'.carried v hv, hzero]⟩

/-- A sound stretch can be put behind any other. -/
theorem andThen (h : Ledger f r given r' mid sound) (h' : Ledger f r' mid r'' left True) :
    Ledger f r given r'' left sound :=
  h.trans h' (by simp)

section

variable (h : Ledger f r given r' left sound)
include h

/-- Further indicators pass by. -/
theorem frame (others : List ValueId) (hothers : ∀ v ∈ others, v.index < r.values.size) :
    Ledger f r (given ++ others) r' (left ++ others) sound := by
  have hnew : ∀ v, Introduced f r' v → ¬ Introduced f r v → others.count v = 0 := by
    intro v hv hnot
    refine List.count_eq_zero.mpr fun hmem => hnot ?_
    exact h.kept.introduced_of_known h.booked.linked h.booked'.linked (hothers v hmem) hv
  exact {
    booked := h.booked
    booked' := h.booked'
    kept := h.kept
    carried := fun v hv => by
      have := h.carried v hv
      simp only [List.count_append]
      omega
    spent := fun hs v hv hnot => by
      rw [List.count_append, hnew v hv hnot, Nat.add_zero, h.spent hs v hv hnot]
    lost := fun hs => by
      obtain ⟨v, hv, hnot, hzero⟩ := h.lost hs
      exact ⟨v, hv, hnot, by rw [List.count_append, hnew v hv hnot, Nat.add_zero, hzero]⟩ }

/-- If an indicator that was introduced is dropped from what is left, then it is lost. -/
theorem broken (hall : ¬ all) (hleft : ∀ v, Introduced f r v → left'.count v = left.count v)
    (hlost : ∃ v, Introduced f r' v ∧ ¬ Introduced f r v ∧ r'.useCount v + left'.count v = 0) :
    Ledger f r given r' left' all :=
  { h with
    carried := fun v hv => by rw [hleft v hv, h.carried v hv]
    spent := fun hs => absurd hs hall
    lost := fun _ => hlost }

theorem frame_left (others : List ValueId) (hothers : ∀ v ∈ others, v.index < r.values.size) :
    Ledger f r (others ++ given) r' (others ++ left) sound :=
  (h.frame others hothers).congr (fun v _ => by simp [Nat.add_comm])
    fun v _ => by simp [Nat.add_comm]

theorem size_values : r.values.size ≤ r'.values.size :=
  h.kept.size_values

end

/-- The ledger of an edit: old indicators keep their balance, and each new one has balance one. -/
theorem edit (hb : Booked f r) (hl' : r'.Linked)
    (hknown : ∀ o, ∀ v ∈ r'.operandsOf o, v.index < r'.values.size) (hkept : Kept r r')
    (hold : ∀ v, Introduced f r v → r'.useCount v + left.count v = r.useCount v + given.count v)
    (hnew : ∀ v, Introduced f r' v → r.values.size ≤ v.index →
      r'.ty? v = some .ownership ∧ r'.useCount v + left.count v = 1) :
    Ledger f r given r' left True := by
  have hsplit : ∀ v, Introduced f r' v → Introduced f r v ∨ r.values.size ≤ v.index := by
    intro v hv
    by_cases hlt : v.index < r.values.size
    · exact .inl (hkept.introduced_of_known hb.linked hl' hlt hv)
    · exact .inr (Nat.not_lt.mp hlt)
  have hb' : Booked f r' := by
    refine ⟨hl', hknown, hb.source.trans hkept, fun v hv => ?_⟩
    rcases hsplit v hv with hr | hfresh
    · exact hkept.ty? (hb.typed v hr)
    · exact (hnew v hv hfresh).1
  refine ⟨hb, hb', hkept, hold, fun _ v hv hnot => ?_, fun h => absurd trivial h⟩
  exact (hnew v hv ((hsplit v hv).resolve_left hnot)).2

end Ledger

/-! ## The edits -/

theorem Routine.nodup_freshValues (r : Routine) (n : Nat) : (r.freshValues n).Nodup := by
  refine List.nodup_iff_getElem?_ne_getElem?.mpr fun j k hjk hk => ?_
  rw [length_freshValues] at hk
  rw [getElem?_freshValues, getElem?_freshValues, if_pos hk, if_pos (by omega)]
  intro he
  have := congrArg ValueId.index (Option.some.inj he)
  simp only at this
  omega

/-- A fresh value occurs once among the fresh values, and no other value does. -/
theorem Routine.count_freshValues (r : Routine) (n : Nat) (v : ValueId) :
    (r.freshValues n).count v =
      if r.values.size ≤ v.index ∧ v.index < r.values.size + n then 1 else 0 := by
  split
  · rename_i hv
    exact List.count_eq_one_of_mem (r.nodup_freshValues n) (mem_freshValues.mpr hv)
  · rename_i hv
    exact List.count_eq_zero.mpr fun hmem => hv (mem_freshValues.mp hmem)

theorem Emitted.kept {pre post : List OpId} {kind : OpKind} {operands : List ValueId}
    {types : List Ty} (h : Emitted r r' b pre post kind operands types) : Kept r r' where
  value _ _ hv := h.value?_old hv
  op _ d hd := ⟨d, (h.op?_of_ne (ne_freshOp hd)).trans hd, rfl, rfl, id⟩
  args c := by rw [h.argsOf_eq]

/-- The operands of the operations are known after an emission, too. -/
theorem Emitted.known {pre post : List OpId} {kind : OpKind} {operands : List ValueId}
    {types : List Ty} (h : Emitted r r' b pre post kind operands types) (hb : Booked f r)
    (hoperands : ∀ v ∈ operands, v.index < r.values.size) :
    ∀ o, ∀ v ∈ r'.operandsOf o, v.index < r'.values.size := by
  intro o v hv
  rw [h.size_values]
  by_cases ho : o = r.freshOp
  · rw [ho, operandsOf_of h.op?_fresh] at hv
    exact Nat.lt_add_right _ (hoperands v hv)
  · rw [operandsOf, h.op?_of_ne ho] at hv
    exact Nat.lt_add_right _ (hb.known o v hv)

section Edits

variable {point : InsertPoint}

/-- An operation on indicators consumes those that it is given and leaves its results. -/
theorem Booked.emit (hb : Booked f r) (others given : List ValueId)
    (h : Emit.operation point kind (others ++ given) types 0 r = .ok (x, r'))
    (hothers : ∀ v ∈ others, ¬ Introduced f r v)
    (hknown : ∀ v ∈ others ++ given, v.index < r.values.size)
    (htypes : ∀ ty ∈ types, ty = .ownership) :
    Ledger f r given r' (r.freshValues types.length) True := by
  obtain ⟨rfl, b, pre, post, -, hem⟩ := Emit.operation_emitted h
  have hl' := hb.linked.operation h
  apply Ledger.edit hb hl' (hem.known hb hknown) hem.kept
  · intro v hv
    have hlt := hv.known hb.linked
    have hzero : others.count v = 0 := List.count_eq_zero.mpr fun hmem => hothers v hmem hv
    rw [hem.useCount, List.count_append, hzero, count_freshValues, if_neg (by omega)]
    omega
  · intro v hv hfresh
    have hlt := hv.known hl'
    rw [hem.size_values] at hlt
    have hunused : (others ++ given).count v = 0 :=
      List.count_eq_zero.mpr fun hmem => Nat.not_lt.mpr hfresh (hknown v hmem)
    constructor
    · -- what is new can only be one of the results
      exact hem.ty?_fresh htypes (mem_freshValues.mpr ⟨hfresh, hlt⟩)
    · rw [hem.useCount, hunused, hb.useCount_fresh hfresh, count_freshValues,
        if_pos ⟨hfresh, hlt⟩]

/-- A null is no indicator that has to be consumed. -/
theorem Booked.emit_null (hb : Booked f r)
    (h : Emit.operation point .null [] [.ownership] 0 r = .ok (x, r')) :
    Ledger f r [] r' [] True ∧ ¬ Introduced f r' ⟨r.values.size⟩ := by
  obtain ⟨rfl, b, pre, post, -, hem⟩ := Emit.operation_emitted h
  have hl' := hb.linked.operation h
  have hkind : r'.kind? r.freshOp = some .null := kind?_of hem.op?_fresh
  have hresult : (⟨r.values.size⟩ : ValueId) ∈ r'.resultsOf r.freshOp := by
    rw [resultsOf_of hem.op?_fresh]
    simp [mem_freshValues]
  -- a value has one origin, and a null is none of those that introduce
  have hnot : ¬ Introduced f r' ⟨r.values.size⟩ := by
    rintro (⟨-, hown, hv⟩ | ⟨-, hretain, hv⟩ | ⟨hv⟩ | ⟨-, hcons, hv⟩)
    · rw [hl'.result_unique hv hresult, hkind] at hown
      cases hown
    · rw [hl'.result_unique hv hresult, hkind] at hretain
      cases hretain
    · exact hl'.not_arg_of_result hresult (List.mem_of_mem_drop hv)
    · rw [isConstruct, hl'.result_unique (mem_resultsOf_of_indicator hv) hresult, hkind] at hcons
      cases hcons
  refine ⟨Ledger.edit hb hl' (hem.known hb (by simp)) hem.kept ?_ ?_, hnot⟩
  · intro v _
    rw [hem.useCount, List.count_nil]
  · intro v hv hfresh
    have hlt := hv.known hl'
    rw [hem.size_values, List.length_singleton] at hlt
    obtain rfl : v = ⟨r.values.size⟩ := by
      obtain ⟨k⟩ := v
      simp only [ValueId.mk.injEq] at hfresh hlt ⊢
      omega
    exact absurd hv hnot

/-- An argument for an indicator leaves itself. -/
theorem Booked.addBlockArg (hb : Booked f r) (h : r.addBlockArg b .ownership = .ok (i, r')) :
    Ledger f r [] r' [i] True ∧ Introduced f r' i := by
  have hi := addBlockArg_arg h
  have hl' := hb.linked.addBlockArg h
  have hargs : r'.argsOf b = r.argsOf b ++ [i] := by rw [argsOf_addBlockArg h, if_pos rfl]
  constructor
  · apply Ledger.edit hb hl' ?_ (change_addBlockArg h).keeps
    · intro v hv
      have hlt := hv.known hb.linked
      have hne : i ≠ v := by
        rintro rfl
        rw [hi] at hlt
        exact Nat.lt_irrefl _ hlt
      rw [useCount_addBlockArg h, List.count_singleton, beq_false_of_ne hne]
      rfl
    · -- the argument is the only new value
      intro v hv hfresh
      have hlt := hv.known hl'
      rw [size_values_addBlockArg h] at hlt
      obtain rfl : v = i := by
        rw [hi]
        obtain ⟨k⟩ := v
        simp only [ValueId.mk.injEq] at hfresh hlt ⊢
        omega
      refine ⟨ty?_addBlockArg_new h, ?_⟩
      rw [useCount_addBlockArg h, hb.useCount_fresh hfresh, List.count_singleton_self]
    · intro o v hv
      rw [operandsOf, op?_addBlockArg h] at hv
      rw [size_values_addBlockArg h]
      exact Nat.lt_succ_of_lt (hb.known o v hv)
  · refine .argument (b := b) ?_
    have hle := (hb.source.args b).length_le
    rw [hargs, List.drop_append_of_le_length hle]
    simp

/-- A terminator consumes what is appended to its operands. -/
theorem Booked.appendOperands {t : OpId} {vs : List ValueId} (hb : Booked f r)
    (h : r.appendOperands t vs = .ok r') (hterm : r.isTerminator t = true)
    (hlive : r.isErased t = false) (hvs : ∀ v ∈ vs, v.index < r.values.size) :
    Ledger f r vs r' [] True := by
  have hl' := hb.linked.appendOperands h
  obtain ⟨d, hd, hr'⟩ := appendOperands_eq_ok h
  have hsize : r'.values.size = r.values.size := by rw [hr']; rfl
  apply Ledger.edit hb hl' ?_ (change_appendOperands h hterm hlive).keeps
  · intro v _
    rw [useCount_appendOperands h hlive, List.count_nil, Nat.add_zero]
  · intro v hv hfresh
    have hlt := hv.known hl'
    omega
  · intro o v hv
    rw [hsize]
    by_cases ho : o = t
    · subst ho
      rw [operandsOf_of (op?_appendOperands_self h hd)] at hv
      rcases List.mem_append.mp hv with hv | hv
      · exact hb.known o v (by rwa [operandsOf_of hd])
      · exact hvs v hv
    · rw [operandsOf, op?_appendOperands_of_ne h ho] at hv
      exact hb.known o v hv

end Edits

/-! ## Rebuilding a construct -/

namespace Rebuilt

variable {d : Op} {pre post : List OpId} {indicators : List ValueId} {types : List Ty}
variable (h : Rebuilt r r' o d b pre post indicators types)
include h

theorem kept : Kept r r' where
  value _ _ hv := h.value?_old hv
  op p e he := by
    by_cases hp : p = o
    · subst hp
      obtain rfl := Option.mem_unique h.old he
      exact ⟨_, h.op?_old, d.renew_kind _, d.renew_results _, fun _ => rfl⟩
    · refine ⟨_, h.op?_of_ne hp he, e.renew_kind _, e.renew_results _, fun herased => ?_⟩
      rwa [Op.renew, if_pos herased]
  args c := by rw [h.argsOf_eq]

theorem bufferCount_renewed (hl : r.Linked) :
    r'.bufferCount (d.results.map (r.renewed d.results types)) = r.bufferCount d.results := by
  rw [bufferCount, List.countP_map, bufferCount]
  refine List.countP_congr fun w hw => ?_
  obtain ⟨W, hW⟩ := exists_value? (hl.result_known (o := o) (by rwa [resultsOf_of h.old]))
  simp only [Function.comp_apply, holdsBuffer, h.ty?_renewed hl hW, ty?_of hW]

/-- The results behind those that take the place of the old ones are the indicators. -/
theorem indicatorResults (hl : r.Linked) :
    r'.indicatorResults r.freshOp = (r'.resultsOf r.freshOp).drop d.results.length := by
  obtain ⟨extra, hresults, htyped, hlength⟩ := h.results_eq hl
  have hextra : r'.bufferCount extra = 0 := by
    refine List.countP_eq_zero.mpr fun v hv => ?_
    simp [holdsBuffer, htyped v hv, Ty.isBuffer]
  rw [Routine.indicatorResults, resultsOf_of h.op?_fresh, hresults, bufferCount,
    List.countP_append, ← bufferCount, ← bufferCount, h.bufferCount_renewed hl, hextra]
  congr 1
  simp only [List.length_append, List.length_map]
  omega

/-- A rebuilt construct consumes indicators among its operands and leaves those of its results. -/
theorem ledger (hb : Booked f r) (hl' : r'.Linked) (hfo : f.op? o ≠ none)
    (hlive : d.erased = false) (hcons : d.kind.construct?.isSome = true)
    (hindicators : ∀ v ∈ indicators, v.index < r.values.size) :
    Ledger f r indicators r' (r'.indicatorResults r.freshOp) True := by
  obtain ⟨extra, hresults, htyped, -⟩ := h.results_eq hb.linked
  have hfreshOp : r'.resultsOf r.freshOp = r.freshValues (rebuiltTypes types).length :=
    resultsOf_of h.op?_fresh
  have hextra : r'.indicatorResults r.freshOp = extra := by
    rw [h.indicatorResults hb.linked, hfreshOp, hresults]
    exact List.drop_left' (List.length_map _)
  have hnodup := r.nodup_freshValues (rebuiltTypes types).length
  rw [hresults, List.nodup_append] at hnodup
  obtain ⟨-, hnodup, hdisjoint⟩ := hnodup
  have hfresh : ∀ v ∈ d.results.map (r.renewed d.results types) ++ extra,
      r.values.size ≤ v.index := fun v hv =>
    (mem_freshValues.mp (hresults ▸ hv)).1
  apply Ledger.edit hb hl' (h.operands_known hb.known hindicators) h.kept
  · intro v hv
    have hlt := hv.known hb.linked
    have hold : v ∉ d.results := fun hmem =>
      hv.not_result hb.linked hfo (by rwa [resultsOf_of h.old])
    have hnew : v ∉ d.results.map (r.renewed d.results types) ++ extra := fun hmem =>
      Nat.not_lt.mpr (hfresh v hmem) hlt
    rw [List.mem_append, not_or] at hnew
    rw [h.useCount hlive hold hnew.1, hextra, List.count_eq_zero.mpr hnew.2, Nat.add_zero]
  · intro v hv hge
    -- it is a result of the new construct, so it is one of the indicators there
    have hresult : v ∈ r'.resultsOf r.freshOp := by
      have hlt := hv.known hl'
      rw [h.size_values] at hlt
      rw [hfreshOp, mem_freshValues]
      exact ⟨hge, hlt⟩
    have hmem : v ∈ extra := by
      have hkind : r'.kind? r.freshOp = some d.kind := (kind?_of h.op?_fresh :)
      rcases hv with ⟨-, hown, hx⟩ | ⟨-, hretain, hx⟩ | ⟨hx⟩ | ⟨-, -, hx⟩
      · rw [hl'.result_unique hx hresult, hkind] at hown
        rw [Option.some.inj hown] at hcons
        cases hcons
      · rw [hl'.result_unique hx hresult, hkind] at hretain
        rw [Option.some.inj hretain] at hcons
        cases hcons
      · exact absurd (List.mem_of_mem_drop hx) (hl'.not_arg_of_result hresult)
      · rwa [hl'.result_unique (mem_resultsOf_of_indicator hx) hresult, hextra] at hx
    have hold : v ∉ d.results := by
      intro hin
      have hlt := hb.linked.result_known (o := o) (v := v) (by rwa [resultsOf_of h.old])
      omega
    have hnew : v ∉ d.results.map (r.renewed d.results types) := fun hin =>
      hdisjoint v hin v hmem rfl
    have hunused : indicators.count v = 0 :=
      List.count_eq_zero.mpr fun hin => Nat.not_lt.mpr hge (hindicators v hin)
    refine ⟨htyped v hmem, ?_⟩
    rw [h.useCount hlive hold hnew, hb.useCount_fresh hge, hunused, hextra,
      List.count_eq_one_of_mem hnodup hmem]

end Rebuilt

end BufferOwnership
