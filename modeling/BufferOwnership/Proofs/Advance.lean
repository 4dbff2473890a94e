import BufferOwnership.Proofs.Coherence
import BufferOwnership.Proofs.Edits

/-!
# Edits of coherent routines

On a coherent routine, each edit that ownership threading makes succeeds, and leaves a coherent
routine. `Advance` says what these edits, and so every run made up of them, leave as it was: kinds,
results and origins stay, an operation that loses its place keeps no region, and the last operation
of a block never changes.
-/

namespace BufferOwnership

variable {r r' r'' : Routine} {o p x : OpId} {b : BlockId} {v : ValueId} {pre post : List OpId}
variable {point : InsertPoint} {d : Op} {types : List Ty}

namespace Routine

/-- What stays, from one moment of a run to a later one. -/
structure Advance (r r' : Routine) : Prop where
  root : r'.root = r.root
  size_ops : r.ops.size ≤ r'.ops.size
  size_values : r.values.size ≤ r'.values.size
  value : ∀ v V, r.value? v = some V → r'.value? v = some V
  kind : ∀ p k, r.kind? p = some k → r'.kind? p = some k
  results : ∀ p, r.op? p ≠ none → r'.resultsOf p = r.resultsOf p
  operands : ∀ p, (r.operandsOf p).length ≤ (r'.operandsOf p).length
  parent : ∀ p c, r.op? p ≠ none → r'.parent? p = some c → r.parent? p = some c
  regions : ∀ p, r.op? p ≠ none → r'.regionsOf p = r.regionsOf p ∨
    r.parent? p ≠ none ∧ r'.parent? p = none ∧ r'.regionsOf p = []
  home : ∀ b, r'.home? b = r.home? b
  blocks : ∀ g, r'.blocksOf g = r.blocksOf g
  last : ∀ b, (r'.opsOf b).getLast? = (r.opsOf b).getLast?
  retains : ∀ x n, r.op? x = none → r'.kind? x = some (.retain n) →
    r'.regionsOf x = [] ∧ (r'.resultsOf x).length = n ∧ n ≤ (r'.operandsOf x).length
  origin : ∀ v x i, r.value? v = none → r'.origin? v = some (.result x i) → r.op? x = none

theorem kind?_eq_none : r.kind? p = none ↔ r.op? p = none := by simp [kind?]

theorem op?_ne_none (h : p.index < r.ops.size) : r.op? p ≠ none := by
  obtain ⟨d, hd⟩ := exists_op? h
  simp [hd]

theorem op?_eq_none_iff : r.op? p = none ↔ r.ops.size ≤ p.index := Array.getElem?_eq_none_iff

theorem value?_eq_none_iff : r.value? v = none ↔ r.values.size ≤ v.index :=
  Array.getElem?_eq_none_iff

namespace Advance

theorem refl (r : Routine) : Advance r r where
  root := rfl
  size_ops := Nat.le_refl _
  size_values := Nat.le_refl _
  value _ _ h := h
  kind _ _ h := h
  results _ _ := rfl
  operands _ := Nat.le_refl _
  parent _ _ _ h := h
  regions _ _ := .inl rfl
  home _ := rfl
  blocks _ := rfl
  last _ := rfl
  retains x n hx hk := by simp [kind?, hx] at hk
  origin v x i hv ho := by simp [origin?, hv] at ho

/-- An operation that is there stays there. -/
theorem op?_ne_none (h : Advance r r') (hp : r.op? p ≠ none) : r'.op? p ≠ none := by
  obtain ⟨k, hk⟩ := Option.ne_none_iff_exists'.mp (kind?_eq_none.not.mpr hp)
  have hk' := h.kind p k hk
  obtain ⟨d, hd, -⟩ := exists_op?_of_kind? hk'
  simp [hd]

theorem kind?_eq (h : Advance r r') (hp : r.op? p ≠ none) : r'.kind? p = r.kind? p := by
  obtain ⟨k, hk⟩ := Option.ne_none_iff_exists'.mp (kind?_eq_none.not.mpr hp)
  rw [hk, h.kind p k hk]

theorem origin?_eq (h : Advance r r') (hv : v.index < r.values.size) :
    r'.origin? v = r.origin? v := by
  obtain ⟨V, hV⟩ := exists_value? hv
  rw [origin?_of hV, origin?_of (h.value v V hV)]

/-- What is taken out of its block does not come back. -/
theorem parent?_eq_none (h : Advance r r') (hp : r.op? p ≠ none) (hnone : r.parent? p = none) :
    r'.parent? p = none := by
  cases hparent : r'.parent? p with
  | none => rfl
  | some c => cases hnone.symm.trans (h.parent p c hp hparent)

theorem trans (h : Advance r r') (h' : Advance r' r'') : Advance r r'' where
  root := h'.root.trans h.root
  size_ops := Nat.le_trans h.size_ops h'.size_ops
  size_values := Nat.le_trans h.size_values h'.size_values
  value v V hV := h'.value v V (h.value v V hV)
  kind p k hk := h'.kind p k (h.kind p k hk)
  results p hp := (h'.results p (h.op?_ne_none hp)).trans (h.results p hp)
  operands p := Nat.le_trans (h.operands p) (h'.operands p)
  parent p c hp hparent := h.parent p c hp (h'.parent p c (h.op?_ne_none hp) hparent)
  regions p hp := by
    have hp' := h.op?_ne_none hp
    rcases h.regions p hp with hsame | ⟨hlinked, hout, hnil⟩
    · rcases h'.regions p hp' with hsame' | ⟨hlinked', hout', hnil'⟩
      · exact .inl (hsame'.trans hsame)
      · exact .inr ⟨fun hnone => hlinked' (h.parent?_eq_none hp hnone), hout', hnil'⟩
    · -- once out of its block, nothing more happens to it
      rcases h'.regions p hp' with hsame' | ⟨hlinked', -, -⟩
      · exact .inr ⟨hlinked, h'.parent?_eq_none hp' hout, hsame'.trans hnil⟩
      · exact absurd hout hlinked'
  home b := (h'.home b).trans (h.home b)
  blocks g := (h'.blocks g).trans (h.blocks g)
  last b := (h'.last b).trans (h.last b)
  retains x n hx hk := by
    by_cases hx' : r'.op? x = none
    · exact h'.retains x n hx' hk
    · rw [h'.kind?_eq hx'] at hk
      obtain ⟨hregions, hresults, hoperands⟩ := h.retains x n hx hk
      refine ⟨?_, by rw [h'.results x hx', hresults], Nat.le_trans hoperands (h'.operands x)⟩
      exact (h'.regions x hx').elim (·.trans hregions) fun h => h.2.2
  origin v x i hv ho := by
    by_cases hv' : r'.value? v = none
    · have hx := h'.origin v x i hv' ho
      by_contra hne
      exact h.op?_ne_none hne hx
    · have hlt : v.index < r'.values.size := by
        rw [value?_eq_none_iff] at hv'
        omega
      exact h.origin v x i hv ((h'.origin?_eq hlt).symm.trans ho)

end Advance

/-- An edit of operations and lists keeps a routine coherent if links and operands are right. -/
theorem Coherent.relinked (hc : r.Coherent) (hrel : Relinked r r') (hn : r'.Nested)
    (hoperands : ∀ p, ∀ v ∈ r'.operandsOf p, v.index < r.values.size)
    (hunlinked : r'.parent? r.root = none) : r'.Coherent where
  toNested := hn
  operands_known := by rwa [hrel.values]
  results_known p v hv := by
    rw [hrel.resultsOf_eq] at hv
    rw [hrel.values]
    exact hc.results_known p v hv
  args_known c v hv := by
    rw [hrel.argsOf_eq] at hv
    rw [hrel.values]
    exact hc.args_known c v hv
  origin_known v o i ho := by
    rw [hrel.size_ops]
    exact hc.origin_known v o i (by simpa only [origin?, value?, hrel.values] using ho)
  root_routine := by
    rw [hrel.root, hrel.kind?_eq]
    exact hc.root_routine
  root_unlinked := by rw [hrel.root, hunlinked]

theorem Advance.relinked (hrel : Relinked r r')
    (hoperands : ∀ p, (r.operandsOf p).length ≤ (r'.operandsOf p).length)
    (hparent : ∀ p c, r'.parent? p = some c → r.parent? p = some c)
    (hlast : ∀ c, (r'.opsOf c).getLast? = (r.opsOf c).getLast?) : Advance r r' where
  root := hrel.root
  size_ops := Nat.le_of_eq hrel.size_ops.symm
  size_values := Nat.le_of_eq (congrArg Array.size hrel.values.symm)
  value v V hV := by simpa only [value?, hrel.values] using hV
  kind p k hk := by rw [hrel.kind?_eq, hk]
  results p _ := hrel.resultsOf_eq p
  operands := hoperands
  parent p c _ := hparent p c
  regions p _ := .inl (hrel.regionsOf_eq p)
  home := hrel.home?_eq
  blocks := blocksOf_congr hrel.regions
  last := hlast
  retains x n hx hk := by
    rw [hrel.kind?_eq] at hk
    simp [kind?, hx] at hk
  origin v x i hv ho := by
    have hv' : r'.value? v = none := by simpa only [value?, hrel.values] using hv
    simp [origin?, hv'] at ho

/-! ## Putting an operation into a block -/

/-- A point that splits the list of a block is found there. -/
theorem resolvePoint_of_splits {B : Block} (hB : r.block? b = some B) (hops : B.ops = pre ++ post)
    (h : r.Splits b pre post point) : r.resolvePoint point = .ok (b, pre.length) := by
  have hblock : r.block b = .ok B := block_eq_ok.mpr hB
  cases point with
  | before anchor =>
    obtain ⟨hparent, hpre, rest, rfl⟩ := h
    obtain ⟨d, hd, hdparent⟩ := exists_op?_of_parent? hparent
    simp only [resolvePoint, bind_of_ok (op_of hd), hdparent, bind_of_ok hblock, hops,
      idxOf?_append_cons hpre]
    rfl
  | atEnd c =>
    obtain ⟨rfl, rfl⟩ := h
    simp only [resolvePoint, bind_of_ok hblock, hops, List.append_nil]
    rfl

/-- An operation can be put at a point that splits the list of a block. -/
theorem emit_of_splits {B : Block} (hB : r.block? b = some B) (hops : B.ops = pre ++ post)
    (h : r.Splits b pre post point) (kind : OpKind) (operands : List ValueId) (types : List Ty)
    (n : Nat) :
    ∃ r', Emit.operation point kind operands types n r = .ok (r.freshOp, r') ∧
      (∀ p, r'.op? p = if p = r.freshOp then
          some { kind, operands, results := r.freshValues types.length
                 regions := r.freshRegions n, parent := some b, erased := false }
        else r.op? p) ∧
      ∀ c, r'.block? c =
        if c = b then some { B with ops := pre ++ r.freshOp :: post } else r.block? c := by
  have hnew := (op?_createOp r kind operands types n r.freshOp).trans (if_pos rfl)
  have hplace : (r.createOp kind operands types n).2.resolvePoint point = .ok (b, pre.length) := by
    refine resolvePoint_of_splits (r := (r.createOp kind operands types n).2) hB hops ?_
    cases point with
    | before anchor => exact ⟨(parent?_createOp ..).trans h.1, h.2⟩
    | atEnd c => exact h
  obtain ⟨r', rfl, hins⟩ : ∃ r', r' = ((r.createOp kind operands types n).2.modifyBlock b
      fun data => { data with ops := data.ops.insertIdx pre.length r.freshOp }).modifyOp
      r.freshOp (fun data => { data with parent := some b }) ∧
      (r.createOp kind operands types n).2.insertOp r.freshOp point = .ok r' := by
    refine ⟨_, rfl, ?_⟩
    rw [insertOp, bind_of_ok (op_of hnew)]
    exact bind_of_ok hplace
  refine ⟨_, bind_of_ok hins, fun p => ?_, fun c => ?_⟩
  · rw [op?_modifyOp, op?_modifyBlock, op?_createOp]
    by_cases hp : p = r.freshOp <;> simp [hp]
  · rw [block?_modifyOp, block?_modifyBlock, block?_createOp]
    by_cases hc : c = b
    · simp [hc, hB, hops, insertIdx_length_append]
    · simp [hc]

/-- An operation can be put before one that is listed. -/
theorem Nested.emit (hn : r.Nested) (hlist : r.opsOf b = pre ++ o :: post) (kind : OpKind)
    (operands : List ValueId) (types : List Ty) :
    ∃ r', Emit.operation (.before o) kind operands types 0 r = .ok (r.freshOp, r') ∧
      Emitted r r' b pre (o :: post) kind operands types := by
  have hmem : o ∈ r.opsOf b := by simp [hlist]
  obtain ⟨B, hB, -⟩ := exists_block?_of_mem_opsOf hmem
  have hsplits : r.Splits b pre (o :: post) (.before o) :=
    ⟨(hn.op_listed o b).mp hmem, (hn.listed_once hlist).1, post, rfl⟩
  obtain ⟨r', hr', -⟩ := emit_of_splits hB ((opsOf_of hB).symm.trans hlist) hsplits
    kind operands types 0
  refine ⟨r', hr', ?_⟩
  -- the place that was found is the one that was meant, since an operation has only one
  obtain ⟨-, c, pre', post', ⟨hc, -, rest, rfl⟩, hem⟩ := Emit.operation_emitted hr'
  obtain ⟨rfl, rfl, rfl⟩ := hn.place_unique hlist hem.opsOf_old
  exact hem

end Routine

open Routine

namespace Emitted

variable {kind : OpKind} {operands : List ValueId}
variable (h : Emitted r r' b pre post kind operands types)
include h

theorem parent?_eq (p : OpId) :
    r'.parent? p = if p = r.freshOp then some b else r.parent? p := by
  simp only [parent?, h.op]
  by_cases hp : p = r.freshOp <;> simp [hp]

theorem kind?_eq (p : OpId) :
    r'.kind? p = if p = r.freshOp then some kind else r.kind? p := by
  simp only [kind?, h.op]
  by_cases hp : p = r.freshOp <;> simp [hp]

theorem regionsOf_eq (p : OpId) : r'.regionsOf p = r.regionsOf p := by
  simp only [regionsOf, h.op]
  by_cases hp : p = r.freshOp
  · simp [hp, op?_freshOp]
  · simp [hp]

theorem resultsOf_eq (p : OpId) : r'.resultsOf p =
    if p = r.freshOp then r.freshValues types.length else r.resultsOf p := by
  simp only [resultsOf, h.op]
  by_cases hp : p = r.freshOp <;> simp [hp]

theorem operandsOf_eq (p : OpId) :
    r'.operandsOf p = if p = r.freshOp then operands else r.operandsOf p := by
  simp only [operandsOf, h.op]
  by_cases hp : p = r.freshOp <;> simp [hp]

theorem origin?_new {o : ValueOrigin} (hv : r.values.size ≤ v.index)
    (ho : r'.origin? v = some o) : o = .result r.freshOp (v.index - r.values.size) := by
  obtain ⟨V, hV, rfl⟩ := Option.map_eq_some_iff.mp ho
  rw [h.value, if_neg (by omega)] at hV
  obtain ⟨ty, -, rfl⟩ := Option.map_eq_some_iff.mp hV
  rfl

theorem coherent (hc : r.Coherent) (hn : r'.Nested)
    (hknown : ∀ v ∈ operands, v.index < r.values.size) : r'.Coherent := by
  have hgrow : ∀ {v : ValueId}, v.index < r.values.size → v.index < r'.values.size := by
    intro v hv
    rw [h.size_values]
    omega
  obtain ⟨name, hname⟩ := hc.root_routine
  obtain ⟨d, hd, -⟩ := exists_op?_of_kind? hname
  have hroot := ne_freshOp hd
  exact {
    toNested := hn
    operands_known := fun p v hv => by
      rw [h.operandsOf_eq] at hv
      split at hv
      · exact hgrow (hknown v hv)
      · exact hgrow (hc.operands_known p v hv)
    results_known := fun p v hv => by
      -- its results are the new entries
      rw [h.resultsOf_eq] at hv
      split at hv
      · rw [h.size_values]
        exact (mem_freshValues.mp hv).2
      · exact hgrow (hc.results_known p v hv)
    args_known := fun c v hv => by
      rw [h.argsOf_eq] at hv
      exact hgrow (hc.args_known c v hv)
    origin_known := fun v o i ho => by
      rw [h.size_ops]
      by_cases hv : v.index < r.values.size
      · obtain ⟨V, hV⟩ := exists_value? hv
        rw [origin?_of (h.value?_old hV), ← origin?_of hV] at ho
        have := hc.origin_known v o i ho
        omega
      · cases h.origin?_new (by omega) ho
        exact Nat.lt_succ_self _
    root_routine := ⟨name, by rw [h.root, h.kind?_eq, if_neg hroot, hname]⟩
    root_unlinked := by rw [h.root, h.parent?_eq, if_neg hroot, hc.root_unlinked] }

theorem advance (hpost : post ≠ [])
    (hkind : ∀ n, kind = .retain n → types.length = n ∧ n ≤ operands.length) : Advance r r' where
  root := h.root
  size_ops := by rw [h.size_ops]; omega
  size_values := by rw [h.size_values]; omega
  value v V hV := h.value?_old hV
  kind p k hk := by
    obtain ⟨d, hd, -⟩ := exists_op?_of_kind? hk
    rw [h.kind?_eq, if_neg (ne_freshOp hd), hk]
  results p hp := by
    obtain ⟨d, hd⟩ := Option.ne_none_iff_exists'.mp hp
    rw [h.resultsOf_eq, if_neg (ne_freshOp hd)]
  operands p := by
    rw [h.operandsOf_eq]
    split
    · rename_i hp
      simp [hp, operandsOf, op?_freshOp]
    · exact Nat.le_refl _
  parent p c hp hparent := by
    obtain ⟨d, hd⟩ := Option.ne_none_iff_exists'.mp hp
    rwa [h.parent?_eq, if_neg (ne_freshOp hd)] at hparent
  regions p _ := .inl (h.regionsOf_eq p)
  home := h.home?_eq
  blocks := blocksOf_congr h.regions
  last := h.getLast?_eq hpost
  retains x n hx hk := by
    -- the new operation is the only one that was not there
    rw [h.kind?_eq] at hk
    split at hk
    · rename_i hx
      subst hx
      obtain ⟨hlen, hle⟩ := hkind n (Option.some.inj hk)
      rw [h.regionsOf_eq, h.resultsOf_eq, h.operandsOf_eq, if_pos rfl, if_pos rfl]
      exact ⟨by simp [regionsOf, op?_freshOp], by simpa using hlen, hle⟩
    · simp [kind?, hx] at hk
  origin v x i hv ho := by
    cases h.origin?_new (value?_eq_none_iff.mp hv) ho
    exact op?_freshOp r

end Emitted

namespace Routine

/-! ## Arguments and operands -/

theorem addBlockArg_ok {B : Block} (hB : r.block? b = some B) (ty : Ty) :
    ∃ r', r.addBlockArg b ty = .ok (⟨r.values.size⟩, r') := by
  rw [Routine.addBlockArg, bind_of_ok (block_eq_ok.mpr hB)]
  exact ⟨_, rfl⟩

section AddBlockArg

variable {arg : ValueId} (h : r.addBlockArg b .ownership = .ok (arg, r'))
include h

theorem tables_addBlockArg : r'.ops = r.ops ∧ r'.regions = r.regions ∧ r'.root = r.root := by
  obtain ⟨B, -, -, rfl⟩ := addBlockArg_eq_ok h
  exact ⟨rfl, rfl, rfl⟩

theorem Coherent.addBlockArg (hc : r.Coherent) : r'.Coherent := by
  obtain ⟨hops, -, hroot⟩ := tables_addBlockArg h
  have hsize := size_values_addBlockArg h
  have hop : ∀ p, r'.op? p = r.op? p := op?_addBlockArg h
  exact {
    toNested := hc.toNested.addBlockArg h
    operands_known := fun p v hv => by
      have hlt := hc.operands_known p v (by simpa only [operandsOf, hop] using hv)
      omega
    results_known := fun p v hv => by
      have hlt := hc.results_known p v (by simpa only [resultsOf, hop] using hv)
      omega
    args_known := fun c v hv => by
      -- the new argument is the last entry
      rw [argsOf_addBlockArg h] at hv
      split at hv
      · rcases List.mem_append.mp hv with hv | hv
        · have hlt := hc.args_known b v hv
          omega
        · rw [List.mem_singleton.mp hv, addBlockArg_arg h, hsize]
          exact Nat.lt_succ_self _
      · have hlt := hc.args_known c v hv
        omega
    origin_known := fun v o i ho => by
      rw [origin?_addBlockArg h] at ho
      split at ho
      · cases ho
      · rw [hops]
        exact hc.origin_known v o i ho
    root_routine := by
      rw [hroot]
      simpa only [kind?, hop] using hc.root_routine
    root_unlinked := by
      rw [hroot]
      simpa only [parent?, hop] using hc.root_unlinked }

theorem Advance.addBlockArg : Advance r r' := by
  obtain ⟨hops, hregions, hroot⟩ := tables_addBlockArg h
  have hop : ∀ p, r'.op? p = r.op? p := op?_addBlockArg h
  exact {
    root := hroot
    size_ops := Nat.le_of_eq (congrArg Array.size hops.symm)
    size_values := by rw [size_values_addBlockArg h]; omega
    value := fun v V hV => value?_addBlockArg_old h hV
    kind := fun p k hk => by simpa only [kind?, hop] using hk
    results := fun p _ => by simp only [resultsOf, hop]
    operands := fun p => by simp only [operandsOf, hop]; exact Nat.le_refl _
    parent := fun p c _ hparent => by simpa only [parent?, hop] using hparent
    regions := fun p _ => .inl (by simp only [regionsOf, hop])
    home := home?_addBlockArg h
    blocks := blocksOf_congr hregions
    last := fun c => by rw [opsOf_addBlockArg h]
    retains := fun x n hx hk => by simp [kind?, hop, hx] at hk
    origin := fun v x i hv ho => by
      rw [origin?_addBlockArg h] at ho
      split at ho
      · cases ho
      · simp [origin?, hv] at ho }

end AddBlockArg

theorem appendOperands_ok (hd : r.op? o = some d) (vs : List ValueId) :
    ∃ r', r.appendOperands o vs = .ok r' := by
  rw [Routine.appendOperands, bind_of_ok (op_of hd)]
  exact ⟨_, rfl⟩

section AppendOperands

variable {vs : List ValueId} (h : r.appendOperands o vs = .ok r')
include h

theorem op?_appendOperands (p : OpId) : r'.op? p =
    if p = o then (r.op? p).map fun d => { d with operands := d.operands ++ vs } else r.op? p := by
  obtain ⟨d, -, rfl⟩ := appendOperands_eq_ok h
  exact op?_modifyOp ..

theorem tables_appendOperands : r'.values = r.values ∧ r'.blocks = r.blocks ∧
    r'.regions = r.regions ∧ r'.root = r.root ∧ r'.ops.size = r.ops.size := by
  obtain ⟨d, -, rfl⟩ := appendOperands_eq_ok h
  exact ⟨rfl, rfl, rfl, rfl, by simp [modifyOp]⟩

theorem operandsOf_appendOperands (p : OpId) : r'.operandsOf p =
    if p = o then r.operandsOf p ++ vs else r.operandsOf p := by
  obtain ⟨d, hd, -⟩ := appendOperands_eq_ok h
  simp only [operandsOf, op?_appendOperands h]
  by_cases hp : p = o
  · simp [hp, hd]
  · simp [hp]

theorem Coherent.appendOperands (hc : r.Coherent) (hvs : ∀ v ∈ vs, v.index < r.values.size) :
    r'.Coherent := by
  have hrel := Relabelled.appendOperands h
  refine hc.relinked hrel.relinked (hc.toNested.relabelled hrel) (fun p v hv => ?_) ?_
  · -- the operands that come in are known by assumption
    rw [operandsOf_appendOperands h] at hv
    split at hv
    · rcases List.mem_append.mp hv with hv | hv
      · exact hc.operands_known p v hv
      · exact hvs v hv
    · exact hc.operands_known p v hv
  · rw [hrel.parent?_eq, hc.root_unlinked]

theorem Advance.appendOperands : Advance r r' := by
  have hrel := Relabelled.appendOperands h
  refine .relinked hrel.relinked (fun p => ?_) (fun p c hp => ?_) fun c => ?_
  · rw [operandsOf_appendOperands h]
    split
    · simp
    · exact Nat.le_refl _
  · rwa [hrel.parent?_eq] at hp
  · rw [opsOf_congr hrel.blocks]

end AppendOperands

/-! ## Erasing an operation without regions -/

theorem eraseLeaf_ok (hd : r.op? x = some d) (hleaf : d.regions = [])
    (hparent : ∀ b, d.parent = some b → r.block? b ≠ none) : ∃ r', r.eraseOp x = .ok r' := by
  obtain ⟨mid, hmid⟩ : ∃ mid, r.unlink x = .ok mid := by
    rw [Routine.unlink, bind_of_ok (op_of hd)]
    cases hp : d.parent with
    | none => exact ⟨_, rfl⟩
    | some b =>
      obtain ⟨B, hB⟩ := Option.ne_none_iff_exists'.mp (hparent b hp)
      simp only [bind_of_ok (block_eq_ok.mpr hB)]
      exact ⟨_, rfl⟩
  obtain ⟨hop, -⟩ := unlink_entries hd hmid
  have hx := (hop x).trans (if_pos rfl)
  rw [Routine.eraseOp, bind_of_ok hmid, bind_of_ok (subtree_leaf hx hleaf)]
  exact ⟨_, rfl⟩

theorem Nested.eraseLeaf (hn : r.Nested) (hd : r.op? x = some d)
    (hleaf : d.regions = []) : ∃ r', r.eraseOp x = .ok r' := by
  refine eraseLeaf_ok hd hleaf fun b hb => ?_
  have hmem := (hn.op_listed x b).mpr ((parent?_of hd).trans hb)
  obtain ⟨B, hB, -⟩ := exists_block?_of_mem_opsOf hmem
  simp [hB]

/-- What is not the last of a list can go, and the last stays. -/
theorem getLast?_filter_ne {l : List OpId} (h : l.getLast? ≠ some x) :
    (l.filter fun p => !decide (p = x)).getLast? = l.getLast? := by
  rcases List.eq_nil_or_concat l with rfl | ⟨init, t, rfl⟩
  · rfl
  · have ht : t ≠ x := by simpa using h
    simp [List.filter_append, ht]

section EraseLeaf

variable (hd : r.op? x = some d) (hleaf : d.regions = []) (h : r.eraseOp x = .ok r')
include hd hleaf h

theorem operandsOf_eraseLeaf (p : OpId) : r'.operandsOf p = r.operandsOf p := by
  obtain ⟨hop, -⟩ := eraseOp_leaf_entries hd hleaf h
  simp only [operandsOf, hop]
  by_cases hp : p = x
  · simp [hp, hd]
  · simp [hp]

theorem Coherent.eraseLeaf (hc : r.Coherent) : r'.Coherent := by
  refine hc.relinked (.eraseOp h) (hc.toNested.eraseOp h) (fun p v hv => ?_) ?_
  · rw [operandsOf_eraseLeaf hd hleaf h] at hv
    exact hc.operands_known p v hv
  · rw [parent?_eraseOp h, hc.root_unlinked, ite_self]

theorem Advance.eraseLeaf (hn : r.Nested) (hlast : ∀ c, (r.opsOf c).getLast? ≠ some x) :
    Advance r r' := by
  refine .relinked (.eraseOp h) (fun p => ?_) (fun p c hp => ?_) fun c => ?_
  · exact Nat.le_of_eq (by rw [operandsOf_eraseLeaf hd hleaf h])
  · rw [parent?_eraseOp h] at hp
    split at hp
    · cases hp
    · exact hp
  · rw [opsOf_eraseOp hn hd hleaf h]
    exact getLast?_filter_ne (hlast c)

end EraseLeaf

/-! ## Rebuilding a construct -/

theorem reparentRegions_ok {gs : List RegionId} (hgs : ∀ g ∈ gs, r.region? g ≠ none) :
    ∃ r', r.reparentRegions o gs = .ok r' := by
  induction gs generalizing r with
  | nil => exact ⟨r, rfl⟩
  | cons g gs ih =>
    obtain ⟨G, hG⟩ := Option.ne_none_iff_exists'.mp (hgs g (by simp))
    rw [Routine.reparentRegions, bind_of_ok (region_eq_ok.mpr hG)]
    refine ih fun g' hg' => ?_
    rw [region?_modifyRegion]
    have hne := hgs g' (by simp [hg'])
    split
    · simpa using hne
    · exact hne

theorem moveRegions_ok {d e : Op} (ho : r.op? o = some d) (hx : r.op? x = some e)
    (hregions : ∀ g ∈ d.regions, r.region? g ≠ none) : ∃ r', r.moveRegions o x = .ok r' := by
  obtain ⟨mid, hmid⟩ : ∃ mid, (r.modifyOp o fun data => { data with regions := [] }).reparentRegions
      x d.regions = .ok mid := reparentRegions_ok hregions
  obtain ⟨-, hops, -⟩ := reparentRegions_entries hmid
  obtain ⟨e', he'⟩ : ∃ e', mid.op? x = some e' := by
    refine exists_op? ?_
    rw [hops]
    simpa [modifyOp] using lt_of_op? hx
  rw [Routine.moveRegions, bind_of_ok (op_of ho), bind_of_ok hmid, bind_of_ok (op_of he')]
  exact ⟨_, rfl⟩

/-- A construct can be rebuilt where it stands. -/
theorem Coherent.rebuild (hc : r.Coherent) {pre post : List OpId}
    (hlist : r.opsOf b = pre ++ o :: post) (indicators : List ValueId) :
    ∃ d r' types, rebuildConstruct o indicators r = .ok (r.freshOp, r') ∧
      Rebuilt r r' o d b pre post indicators types := by
  have hmem : o ∈ r.opsOf b := by simp [hlist]
  obtain ⟨d, hd, hparent⟩ := exists_op?_of_parent? ((hc.op_listed o b).mp hmem)
  have hne := ne_freshOp hd
  obtain ⟨types, htypes⟩ : ∃ types, d.results.mapM r.typeOf = .ok types :=
    mapM_typeOf_ok fun v hv => hc.results_known o v (by rwa [resultsOf_of hd])
  obtain ⟨r₁, hemit, hem⟩ := hc.emit hlist d.kind (d.operands ++ indicators) (rebuiltTypes types)
  have ho₁ : r₁.op? o = some d := by rw [hem.op?_of_ne hne, hd]
  obtain ⟨r₂, hmove⟩ : ∃ r₂, r₁.moveRegions o r.freshOp = .ok r₂ := by
    refine moveRegions_ok ho₁ hem.op?_fresh fun g hg => ?_
    have hregion := hc.inRange.regions o g (by rwa [regionsOf_of hd])
    simpa only [region?, hem.regions] using hregion
  obtain ⟨d₁, hd₁, hop₂, -, hblocks₂, -⟩ := moveRegions_entries hne hmove
  obtain ⟨e, he⟩ : ∃ e, r₂.op? r.freshOp = some e := by
    rw [hop₂, if_neg (Ne.symm hne), if_pos rfl, hem.op?_fresh]
    exact ⟨_, rfl⟩
  -- the old operation holds no region any more, so taking it out is all there is to do
  have ho₂ : (r₂.replaceEach (d.results.zip e.results)).op? o = some
      (Op.renew (substitute (d.results.zip e.results)) { d₁ with regions := [] }) := by
    rw [op?_replaceEach, hop₂, if_pos rfl]
    rfl
  obtain ⟨-, hblocks₃, -⟩ := replaceEach_tables r₂ (d.results.zip e.results)
  obtain ⟨r₃, herase⟩ : ∃ r₃, (r₂.replaceEach (d.results.zip e.results)).eraseOp o = .ok r₃ := by
    refine eraseLeaf_ok ho₂ (by simp) fun c hc => ?_
    obtain rfl : b = c := by
      rw [Op.renew_parent] at hc
      rw [ho₁] at hd₁
      cases hd₁
      exact Option.mem_unique hparent hc
    obtain ⟨B, hB, -⟩ := hem.there
    have hsame : (r₂.replaceEach (d.results.zip e.results)).block? b = r₁.block? b := by
      simp only [block?, hblocks₃, hblocks₂]
    rw [hsame, hem.block, if_pos rfl, hB]
    simp
  have hbuild : rebuildConstruct o indicators r = .ok (r.freshOp, r₃) :=
    rebuildConstruct_eq_ok.mpr ⟨d, types, r₁, r₂, e, hd, htypes, hemit, hmove, he, herase⟩
  obtain ⟨-, pre', post', types', hrep⟩ :=
    rebuildConstruct_rebuilt hd hparent (hc.ops_nodup b) hbuild
  obtain ⟨B, hB, hops⟩ := hrep.there
  obtain ⟨-, rfl, rfl⟩ := hc.place_unique hlist ((opsOf_of hB).trans hops)
  exact ⟨d, r₃, types', hbuild, hrep⟩

end Routine

namespace Rebuilt

variable {indicators : List ValueId} (h : Rebuilt r r' o d b pre post indicators types)
include h

/-- Of another operation, at most the operands have changed. -/
theorem entry_of_ne (hp : p ≠ r.freshOp) (hpo : p ≠ o) :
    r'.parent? p = r.parent? p ∧ r'.kind? p = r.kind? p ∧ r'.regionsOf p = r.regionsOf p ∧
      r'.resultsOf p = r.resultsOf p := by
  simp only [parent?, kind?, regionsOf, resultsOf, h.op, if_neg hp, if_neg hpo]
  cases r.op? p with
  | none => exact ⟨rfl, rfl, rfl, rfl⟩
  | some e => simp

theorem parent?_eq (p : OpId) : r'.parent? p =
    if p = r.freshOp then some b else if p = o then none else r.parent? p := by
  by_cases hp : p = r.freshOp
  · simp [parent?, h.op, hp]
  · by_cases hpo : p = o
    · simp [parent?, h.op, hpo, h.ne_fresh]
    · simp [hp, hpo, (h.entry_of_ne hp hpo).1]

theorem kind?_eq (p : OpId) :
    r'.kind? p = if p = r.freshOp then some d.kind else r.kind? p := by
  by_cases hp : p = r.freshOp
  · simp [kind?, h.op, hp]
  · by_cases hpo : p = o
    · simp [kind?, h.op, hpo, h.ne_fresh, h.old]
    · simp [hp, (h.entry_of_ne hp hpo).2.1]

theorem regionsOf_eq (p : OpId) : r'.regionsOf p =
    if p = r.freshOp then d.regions else if p = o then [] else r.regionsOf p := by
  by_cases hp : p = r.freshOp
  · simp [regionsOf, h.op, hp]
  · by_cases hpo : p = o
    · simp [regionsOf, h.op, hpo, h.ne_fresh]
    · simp [hp, hpo, (h.entry_of_ne hp hpo).2.2.1]

theorem resultsOf_eq (p : OpId) : r'.resultsOf p =
    if p = r.freshOp then r.freshValues (rebuiltTypes types).length else r.resultsOf p := by
  by_cases hp : p = r.freshOp
  · simp [resultsOf, h.op, hp]
  · by_cases hpo : p = o
    · simp [resultsOf, h.op, hpo, h.ne_fresh, h.old]
    · simp [hp, (h.entry_of_ne hp hpo).2.2.2]

theorem origin?_new {e : ValueOrigin} (hv : r.values.size ≤ v.index) (he : r'.origin? v = some e) :
    e = .result r.freshOp (v.index - r.values.size) := by
  obtain ⟨V, hV, rfl⟩ := Option.map_eq_some_iff.mp he
  rw [h.value, if_neg (by omega)] at hV
  obtain ⟨ty, -, rfl⟩ := Option.map_eq_some_iff.mp hV
  rfl

theorem root_kept (hc : r.Coherent) : r.root ≠ r.freshOp ∧ r.root ≠ o := by
  obtain ⟨name, hname⟩ := hc.root_routine
  obtain ⟨e, he, -⟩ := exists_op?_of_kind? hname
  refine ⟨ne_freshOp he, ?_⟩
  intro heq
  have hparent := (hc.op_listed o b).mp (by simp [h.opsOf_old])
  rw [← heq, hc.root_unlinked] at hparent
  cases hparent

theorem coherent (hc : r.Coherent) (hn : r'.Nested)
    (hknown : ∀ v ∈ indicators, v.index < r.values.size) : r'.Coherent where
  toNested := hn
  operands_known := h.operands_known hc.operands_known hknown
  results_known p v hv := by
    rw [h.resultsOf_eq] at hv
    rw [h.size_values]
    split at hv
    · exact (mem_freshValues.mp hv).2
    · have hlt := hc.results_known p v hv
      omega
  args_known c v hv := by
    rw [h.argsOf_eq] at hv
    have hlt := hc.args_known c v hv
    rw [h.size_values]
    omega
  origin_known v x i hx := by
    rw [h.size_ops]
    by_cases hv : v.index < r.values.size
    · obtain ⟨V, hV⟩ := exists_value? hv
      rw [origin?_of (h.value?_old hV), ← origin?_of hV] at hx
      have hlt := hc.origin_known v x i hx
      omega
    · cases h.origin?_new (by omega) hx
      exact Nat.lt_succ_self _
  root_routine := by
    obtain ⟨name, hname⟩ := hc.root_routine
    exact ⟨name, by rw [h.root, h.kind?_eq, if_neg (h.root_kept hc).1, hname]⟩
  root_unlinked := by
    rw [h.root, h.parent?_eq, if_neg (h.root_kept hc).1, if_neg (h.root_kept hc).2,
      hc.root_unlinked]

theorem advance (hn : r.Nested) (hpost : post ≠ []) (hkind : d.kind.construct? ≠ none) :
    Advance r r' where
  root := h.root
  size_ops := by rw [h.size_ops]; omega
  size_values := by rw [h.size_values]; omega
  value v V hV := h.value?_old hV
  kind p k hk := by
    obtain ⟨e, he, -⟩ := exists_op?_of_kind? hk
    rw [h.kind?_eq, if_neg (ne_freshOp he), hk]
  results p hp := by
    obtain ⟨e, he⟩ := Option.ne_none_iff_exists'.mp hp
    rw [h.resultsOf_eq, if_neg (ne_freshOp he)]
  operands p := by
    by_cases hp : p = r.freshOp
    · simp [hp, operandsOf, op?_freshOp]
    · rcases h.operandsOf_of_ne hp with heq | heq <;> simp [heq]
  parent p c hp hparent := by
    obtain ⟨e, he⟩ := Option.ne_none_iff_exists'.mp hp
    rw [h.parent?_eq, if_neg (ne_freshOp he)] at hparent
    split at hparent
    · cases hparent
    · exact hparent
  regions p hp := by
    obtain ⟨e, he⟩ := Option.ne_none_iff_exists'.mp hp
    rw [h.regionsOf_eq, h.parent?_eq, if_neg (ne_freshOp he), if_neg (ne_freshOp he)]
    by_cases hpo : p = o
    · -- the old operation has lost its regions, but it was linked before
      subst hpo
      have hparent := (hn.op_listed p b).mp (by simp [h.opsOf_old])
      simp [hparent]
    · simp [hpo]
  home := h.home?_eq
  blocks := h.blocksOf_eq
  last c := by
    rw [h.opsOf_eq]
    by_cases hc : c = b
    · subst hc
      have hlast := List.getLast?_eq_some_getLast hpost
      simp [h.opsOf_old, List.getLast?_append, List.getLast?_cons, hlast]
    · simp [hc]
  retains x n hx hk := by
    rw [h.kind?_eq] at hk
    split at hk
    · rw [Option.some.inj hk] at hkind
      exact absurd rfl hkind
    · simp [kind?, hx] at hk
  origin v x i hv hx := by
    cases h.origin?_new (value?_eq_none_iff.mp hv) hx
    exact op?_freshOp r

end Rebuilt

end BufferOwnership
