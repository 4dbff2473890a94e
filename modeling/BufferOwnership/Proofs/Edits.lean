import BufferOwnership.Proofs.Composition

/-!
# Edits are changes

Five edits make up what ownership threading does to a routine: an operation on indicators is put
into a block, a block gets an argument, a terminator gets operands, a construct is rebuilt, and a
retain is taken out. Each of them is a change, and a sound one if what it uses is in scope.
-/

namespace BufferOwnership

open Routine

variable {r r' : Routine} {b : BlockId} {o p t x : OpId} {d e : Op} {pre post : List OpId}
variable {vs : List ValueId} {types : List Ty}

/-- An operation that keeps its name and gets nothing. -/
theorem Op.Grown.same {δ : Delta} (hop : δ.op p = p) (hvalue : δ.value = id)
    (hadded : δ.added p = []) (hlive : d.erased = false) :
    Op.Grown r r' δ p d d where
  kind := rfl
  regions := rfl
  parent := rfl
  live := hlive
  operands := by simp [hvalue, hadded]
  results := ⟨[], by simp [hvalue], by simp, fun _ => rfl, fun hne => absurd hop hne⟩

theorem filter_not_of_notMem {l : List OpId} (h : x ∉ l) :
    l.filter (fun p => !decide (p = x)) = l := by
  simpa only [bne, beq_eq_decide] using filter_ne_of_notMem h

/-! ## Putting an operation into a block -/

namespace Emitted

variable {kind : OpKind} {v : ValueId} {V : Value} {operands : List ValueId}
variable (h : Emitted r r' b pre post kind operands types)
include h

theorem op?_of_ne (hp : p ≠ r.freshOp) : r'.op? p = r.op? p := by
  rw [h.op, if_neg hp]

theorem op?_fresh : r'.op? r.freshOp = some
    { kind, operands, results := r.freshValues types.length, regions := [], parent := some b
      erased := false } := by
  rw [h.op, if_pos rfl]

theorem opsOf_old : r.opsOf b = pre ++ post := by
  obtain ⟨B, hB, hops⟩ := h.there
  rw [opsOf_of hB, hops]

theorem opsOf_eq (c : BlockId) :
    r'.opsOf c = if c = b then pre ++ r.freshOp :: post else r.opsOf c := by
  obtain ⟨B, hB, -⟩ := h.there
  simp only [opsOf, h.block]
  by_cases hc : c = b <;> simp [hc, hB]

/-- What stands in a block afterwards stood there before, but for the new operation. -/
theorem mem_opsOf_old {c : BlockId} {q : OpId} (hq : q ∈ r'.opsOf c) (hne : q ≠ r.freshOp) :
    q ∈ r.opsOf c := by
  rw [h.opsOf_eq] at hq
  split at hq
  · rename_i hc
    rw [hc, h.opsOf_old]
    simpa [hne] using hq
  · exact hq

theorem argsOf_eq (c : BlockId) : r'.argsOf c = r.argsOf c := by
  simp only [argsOf, h.block]
  split <;> cases r.block? c <;> rfl

theorem home?_eq (c : BlockId) : r'.home? c = r.home? c := by
  simp only [home?, h.block]
  split <;> cases r.block? c <;> rfl

theorem value?_old (hv : r.value? v = some V) : r'.value? v = some V := by
  rw [h.value, if_pos (lt_of_value? hv), hv]

/-- What the emission does. -/
def delta (_ : Emitted r r' b pre post kind operands types) : Delta where
  new p := p = r.freshOp

/-- What is put into a block before another operation is not its last. -/
theorem getLast?_eq (hpost : post ≠ []) (c : BlockId) :
    (r'.opsOf c).getLast? = (r.opsOf c).getLast? := by
  rw [h.opsOf_eq]
  by_cases hc : c = b
  · subst hc
    have hlast := List.getLast?_eq_some_getLast hpost
    simp [h.opsOf_old, List.getLast?_append, List.getLast?_cons, hlast]
  · simp [hc]

theorem change (hl : r.Linked) (hpost : post ≠ [])
    (hkind : kind = .own ∨ kind = .null ∨
      ∃ n, kind = .retain n ∧ n ≤ operands.length ∧ types.length = n) :
    Change r r' h.delta where
  root := h.root
  value v V hV := h.value?_old hV
  home := h.home?_eq
  blocksOf := blocksOf_congr h.regions
  owner g := by simp [owner?_congr h.regions, delta]
  args c := ⟨[], by simp [h.argsOf_eq], by simp⟩
  lists c := by
    -- without the new operation, the list is the old one
    have hout : r.freshOp ∉ r.opsOf c := fun hmem => hl.op?_of_listed hmem (op?_freshOp r)
    have hsame := filter_not_of_notMem hout
    rw [h.opsOf_eq]
    by_cases hc : c = b
    · subst hc
      rw [h.opsOf_old, List.filter_append] at hsame
      simp [delta, h.opsOf_old, hsame]
    · simp [delta, hc, hsame]
  last c := by simp [h.getLast?_eq hpost, delta]
  kept p d hd := ⟨d, by rw [h.op?_of_ne (ne_freshOp hd), hd], rfl, rfl, fun _ => rfl⟩
  image p d hd hlive _ :=
    ⟨d, (h.op?_of_ne (ne_freshOp hd)).trans hd, .same rfl rfl rfl hlive⟩
  renamed p hp := absurd rfl hp
  injective p q hpq _ _ := hpq
  lost p hp := by cases hp
  new x hx := by
    obtain rfl : x = r.freshOp := by simpa [delta] using hx
    refine ⟨op?_freshOp r, _, h.op?_fresh, ?_, rfl, rfl⟩
    simpa using hkind
  only q hq := by
    by_cases hfresh : q = r.freshOp
    · exact .inr (.inl (by simp [delta, hfresh]))
    · exact .inl (by rwa [← h.op?_of_ne hfresh])
  moved v hv := absurd rfl hv
  type v V hV := ty?_of (h.value?_old hV)
  added p _ hp := absurd rfl hp
  added_count p hp := absurd rfl hp

theorem sound (hw : r.WellFormed) (hc : Change r r' h.delta)
    (hvis : ∀ v ∈ operands, r.Visible b pre v) : Change.Sound r r' h.delta where
  known o v hv := by
    have hlt : ∀ w : ValueId, w.index < r.values.size → w.index < r'.values.size := by
      intro w hw
      rw [h.size_values]
      omega
    obtain ⟨e, he, hv⟩ := exists_op?_of_mem_operandsOf hv
    by_cases ho : o = r.freshOp
    · subst ho
      rw [h.op?_fresh] at he
      cases he
      exact hlt v ((hvis v hv).known hw.linked)
    · rw [h.op?_of_ne ho] at he
      exact hlt v (hw.known o v (by rwa [operandsOf_of he]))
  added p v hv := by cases hv
  new x hx v hv := by
    obtain rfl : x = r.freshOp := by simpa [delta] using hx
    rw [operandsOf_of h.op?_fresh] at hv
    refine ⟨b, pre, post, by simp [h.opsOf_eq], ?_⟩
    exact (hvis v hv).carry (hc.carries hw.linked) (by simp [delta]) (by simp [delta])
  unused p hp := by cases hp

end Emitted

/-! ## Arguments -/

section AddBlockArg

variable {arg : ValueId} (h : r.addBlockArg b .ownership = .ok (arg, r'))
include h

theorem value?_addBlockArg_old (hv : r.value? v = some V) : r'.value? v = some V := by
  have hne : v ≠ arg := by
    rintro rfl
    have hlt := lt_of_value? hv
    rw [addBlockArg_arg h] at hlt
    simp at hlt
  rw [value?_addBlockArg h, if_neg hne, hv]

theorem ty?_addBlockArg_new : r'.ty? arg = some .ownership := by
  have hval := value?_addBlockArg h arg
  rw [if_pos rfl] at hval
  exact ty?_of hval

theorem change_addBlockArg : Change r r' {} where
  root := by
    obtain ⟨B, -, -, rfl⟩ := addBlockArg_eq_ok h
    rfl
  value v V hV := value?_addBlockArg_old h hV
  home := home?_addBlockArg h
  blocksOf g := by simp only [blocksOf, region?_addBlockArg h]
  owner g := by simp [owner?, region?_addBlockArg h]
  args c := by
    rw [argsOf_addBlockArg h]
    split
    · rename_i hc
      subst hc
      refine ⟨[arg], rfl, fun v hv => ?_⟩
      obtain rfl := List.mem_singleton.mp hv
      exact ty?_addBlockArg_new h
    · exact ⟨[], by simp, by simp⟩
  lists c := by simp [opsOf_addBlockArg h]
  last c := by simp [opsOf_addBlockArg h]
  kept p d hd := ⟨d, by rw [op?_addBlockArg h, hd], rfl, rfl, fun _ => rfl⟩
  image p d hd hlive _ := ⟨d, (op?_addBlockArg h p).trans hd, .same rfl rfl rfl hlive⟩
  renamed p hp := absurd rfl hp
  injective p q hpq _ _ := hpq
  lost p hp := by cases hp
  new x hx := by cases hx
  only q hq := .inl (by rwa [← op?_addBlockArg h])
  moved v hv := absurd rfl hv
  type v V hV := ty?_of (value?_addBlockArg_old h hV)
  added p _ hp := absurd rfl hp
  added_count p hp := absurd rfl hp

theorem sound_addBlockArg (hw : r.WellFormed) : Change.Sound r r' {} where
  known o v hv := by
    obtain ⟨e, he, hv⟩ := exists_op?_of_mem_operandsOf hv
    rw [op?_addBlockArg h] at he
    have hlt := hw.known o v (by rwa [operandsOf_of he])
    rw [size_values_addBlockArg h]
    omega
  added p v hv := by cases hv
  new x hx := by cases hx
  unused p hp := by cases hp

end AddBlockArg

/-! ## Operands of terminators -/

section AppendOperands

/-- What it does to give an operation more operands. -/
def extension (t : OpId) (vs : List ValueId) : Delta where
  added p := if p = t then vs else []

variable (h : r.appendOperands t vs = .ok r')
include h

theorem op?_appendOperands_of_ne (hp : p ≠ t) : r'.op? p = r.op? p := by
  obtain ⟨d, -, rfl⟩ := appendOperands_eq_ok h
  rw [op?_modifyOp, if_neg hp]

theorem op?_appendOperands_self (hd : r.op? t = some d) :
    r'.op? t = some { d with operands := d.operands ++ vs } := by
  obtain ⟨-, -, rfl⟩ := appendOperands_eq_ok h
  rw [op?_modifyOp, if_pos rfl, hd]
  rfl

theorem change_appendOperands (hterm : r.isTerminator t = true) (hlive : r.isErased t = false) :
    Change r r' (extension t vs) := by
  have hother {p : OpId} := op?_appendOperands_of_ne h (p := p)
  have hself {d : Op} := op?_appendOperands_self h (d := d)
  obtain ⟨dt, hdt, rfl⟩ := appendOperands_eq_ok h
  exact {
    root := rfl
    value := fun v V hV => hV
    home := fun c => rfl
    blocksOf := fun g => rfl
    owner := fun g => by simp [extension, owner?]
    args := fun c => ⟨[], by simp [argsOf], by simp⟩
    lists := fun c => by simp [extension, opsOf]
    last := fun c => by simp [extension, opsOf]
    kept := by
      intro p d hd
      by_cases hp : p = t
      · subst hp
        refine ⟨_, hself hd, rfl, rfl, fun herased => ?_⟩
        rw [isErased_of hd, herased] at hlive
        cases hlive
      · exact ⟨d, (hother hp).trans hd, rfl, rfl, fun _ => rfl⟩
    image := by
      intro p d hd hdlive _
      by_cases hp : p = t
      · subst hp
        refine ⟨_, hself hd, ?_⟩
        exact {
          kind := rfl
          regions := rfl
          parent := rfl
          live := hdlive
          operands := by simp [extension]
          results := ⟨[], by simp [extension], by simp, fun _ => rfl, fun hne => absurd rfl hne⟩ }
      · exact ⟨d, (hother hp).trans hd, .same rfl rfl (by simp [extension, hp]) hdlive⟩
    renamed := fun p hp => absurd rfl hp
    injective := fun p q hpq _ _ => hpq
    lost := fun p hp => by cases hp
    new := fun x hx => by cases hx
    only := by
      intro q hq
      left
      by_cases hqt : q = t
      · simp [hqt, hdt]
      · rwa [← hother hqt]
    moved := fun v hv => absurd rfl hv
    type := fun v V hV => ty?_of hV
    added := by
      intro p _ hp
      by_cases hpt : p = t
      · exact .inr (hpt ▸ hterm)
      · simp [extension, hpt] at hp
    added_count := fun p hp => absurd rfl hp }

theorem sound_appendOperands (hw : r.WellFormed)
    (hvs : ∀ v ∈ vs, r.InScope t v ∧ r.ty? v = some .ownership) :
    Change.Sound r r' (extension t vs) where
  known o v hv := by
    have hsize : r'.values.size = r.values.size := by
      obtain ⟨-, -, rfl⟩ := appendOperands_eq_ok h
      rfl
    obtain ⟨dt, hdt, -⟩ := appendOperands_eq_ok h
    obtain ⟨e, he, hv⟩ := exists_op?_of_mem_operandsOf hv
    rw [hsize]
    by_cases ho : o = t
    · subst ho
      rw [op?_appendOperands_self h hdt] at he
      cases he
      rcases List.mem_append.mp hv with hv | hv
      · exact hw.known o v (by rwa [operandsOf_of hdt])
      · exact (hvs v hv).1.known hw.linked
    · rw [op?_appendOperands_of_ne h ho] at he
      exact hw.known o v (by rwa [operandsOf_of he])
  added p v hv := by
    by_cases hp : p = t
    · subst hp
      exact hvs v (by simpa [extension] using hv)
    · simp [extension, hp] at hv
  new x hx := by cases hx
  unused p hp := by cases hp

end AppendOperands

/-! ## Taking out a retain -/

section EraseOp

variable {front rest : List OpId}

/-- What it does to take out an operation. -/
def removal (x : OpId) : Delta where
  lost p := p = x

/-- Erasing takes an operation out of its block, and changes no other one. -/
theorem opsOf_eraseOp (hn : r.Nested) (hd : r.op? x = some d) (hleaf : d.regions = [])
    (h : r.eraseOp x = .ok r') (c : BlockId) :
    r'.opsOf c = (r.opsOf c).filter fun p => !decide (p = x) := by
  obtain ⟨-, hblock, -⟩ := eraseOp_leaf_entries hd hleaf h
  simpa only [bne, beq_eq_decide] using hn.opsOf_of_filtered hd hblock c

/-- The last operation of a block stays, as it is another one that is erased. -/
theorem getLast?_eraseOp (hl : r.Linked) (hd : r.op? x = some d) (hleaf : d.regions = [])
    (hlist : r.opsOf b = front ++ x :: rest) (hrest : rest ≠ []) (h : r.eraseOp x = .ok r')
    (c : BlockId) : (r'.opsOf c).getLast? = (r.opsOf c).getLast? := by
  rw [opsOf_eraseOp hl.toNested hd hleaf h]
  by_cases hmem : x ∈ r.opsOf c
  · obtain rfl := hl.block_unique (by simp [hlist] : x ∈ r.opsOf b) hmem
    have hx : x ∉ rest := (hl.listed_once hlist).2
    have hlast := List.getLast?_eq_some_getLast hrest
    simp [hlist, filter_not_of_notMem hx, List.getLast?_append, List.getLast?_cons, hlast]
  · rw [filter_not_of_notMem hmem]

theorem change_eraseOp (hl : r.Linked) (hd : r.op? x = some d)
    (hkind : d.kind = .retain d.operands.length) (hleaf : d.regions = []) (hlive : d.erased = false)
    (hlist : r.opsOf b = front ++ x :: rest) (hrest : rest ≠ [])
    (h : r.eraseOp x = .ok r') : Change r r' (removal x) := by
  obtain ⟨hop, hblock, hregions, hvalues, hroot, -, -⟩ := eraseOp_leaf_entries hd hleaf h
  have hops := opsOf_eraseOp hl.toNested hd hleaf h
  have hne : ∀ p, p ≠ x → r'.op? p = r.op? p := fun p hp => by rw [hop, if_neg hp]
  have hgone := hop x
  rw [if_pos rfl] at hgone
  have hvalue v V (hV : r.value? v = some V) : r'.value? v = some V := by rwa [value?, hvalues]
  exact {
    root := hroot
    value := hvalue
    home := (Relinked.eraseOp h).home?_eq
    blocksOf := blocksOf_congr hregions
    owner := fun g => by simp [owner?_congr hregions, removal]
    args := fun c => ⟨[], by rw [(Relinked.eraseOp h).argsOf_eq, List.append_nil], by simp⟩
    lists := fun c => by simp [removal, hops]
    last := fun c => by simp [removal, getLast?_eraseOp hl hd hleaf hlist hrest h c]
    kept := by
      intro p e he
      by_cases hp : p = x
      · subst hp
        obtain rfl := Option.mem_unique hd he
        refine ⟨_, hgone, rfl, rfl, fun herased => ?_⟩
        rw [hlive] at herased
        cases herased
      · exact ⟨e, (hne p hp).trans he, rfl, rfl, fun _ => rfl⟩
    image := by
      intro p e he hlive hkept
      have hp : p ≠ x := by simpa [removal] using hkept
      exact ⟨e, (hne p hp).trans he, .same rfl rfl rfl hlive⟩
    renamed := fun p hp => absurd rfl hp
    injective := fun p q hpq _ _ => hpq
    lost := by
      intro p hp
      obtain rfl : p = x := by simpa [removal] using hp
      -- what is lost is a retain without regions, and it keeps its operands
      refine ⟨by rw [kind?_of hd, operandsOf_of hd, hkind], by rw [regionsOf_of hd, hleaf],
        isErased_of hgone, ?_⟩
      rw [operandsOf_of hgone, operandsOf_of hd]
    new := fun x hx => by cases hx
    only := by
      intro q hq
      left
      by_cases hqx : q = x
      · simp [hqx, hd]
      · rwa [← hne q hqx]
    moved := fun v hv => absurd rfl hv
    type := fun v V hV => ty?_of (hvalue v V hV)
    added := fun p _ hp => absurd rfl hp
    added_count := fun p hp => absurd rfl hp }

theorem sound_eraseOp (hw : r.WellFormed) (hd : r.op? x = some d) (hleaf : d.regions = [])
    (h : r.eraseOp x = .ok r')
    (hunused : ∀ o e, r.op? o = some e → e.erased = false → ∀ v ∈ e.operands, v ∉ d.results) :
    Change.Sound r r' (removal x) where
  known o v hv := by
    obtain ⟨hop, -, -, hvalues, -, -, -⟩ := eraseOp_leaf_entries hd hleaf h
    obtain ⟨e, he, hv⟩ := exists_op?_of_mem_operandsOf hv
    rw [hop] at he
    rw [hvalues]
    split at he
    · rename_i ho
      cases he
      exact hw.known o v (by rwa [ho, operandsOf_of hd])
    · exact hw.known o v (by rwa [operandsOf_of he])
  added p v hv := by cases hv
  new x hx := by cases hx
  unused p hp o e he hlive v hv := by
    obtain rfl : p = x := by simpa [removal] using hp
    rw [resultsOf_of hd]
    exact hunused o e he hlive v (by simpa [removal] using hv)

end EraseOp

/-! ## Rebuilding a construct -/

theorem Routine.Linked.results_nodup (h : r.Linked) (o : OpId) : (r.resultsOf o).Nodup := by
  refine List.nodup_iff_getElem?_ne_getElem?.mpr fun i j hij hj he => ?_
  obtain ⟨v, hv⟩ : ∃ v, (r.resultsOf o)[j]? = some v := ⟨_, List.getElem?_eq_getElem hj⟩
  have hi := (h.result_listed v o i).mp (he.trans hv)
  rw [(h.result_listed v o j).mp hv] at hi
  cases hi
  omega

/-- There are as many indicators as there are buffers. -/
theorem length_indicatorTypes (h : vs.map r.ty? = types.map some) :
    (indicatorTypes types).length = r.bufferCount vs := by
  simp only [indicatorTypes, List.length_map, bufferCount]
  induction vs generalizing types with
  | nil =>
    cases types with
    | nil => rfl
    | cons ty types => simp at h
  | cons v vs ih =>
    cases types with
    | nil => simp at h
    | cons ty types =>
      obtain ⟨hv, hrest⟩ := List.cons.inj h
      by_cases hbuf : ty.isBuffer = true <;> simp [hbuf, holdsBuffer, hv, ← ih hrest]

/-- A replacement gives the value itself or one of the new ones. -/
theorem Routine.substitute_cases (pairs : List (ValueId × ValueId)) (v : ValueId) :
    substitute pairs v = v ∨ substitute pairs v ∈ pairs.map Prod.snd := by
  induction pairs generalizing v with
  | nil => exact .inl rfl
  | cons pair pairs ih =>
    obtain ⟨old, new⟩ := pair
    rw [substitute_cons]
    split
    · rcases ih new with h | h <;> exact .inr (by simp [h])
    · exact (ih v).imp_right fun h => by simp [h]

namespace Rebuilt

variable {indicators : List ValueId} (h : Rebuilt r r' o d b pre post indicators types)
include h

theorem ne_fresh : o ≠ r.freshOp := ne_freshOp h.old

theorem op?_of_ne (hp : p ≠ o) (he : r.op? p = some e) :
    r'.op? p = some (e.renew (r.renewed d.results types)) := by
  rw [h.op, if_neg (ne_freshOp he), if_neg hp, he]
  rfl

theorem op?_fresh : r'.op? r.freshOp = some
    { kind := d.kind, operands := (d.operands ++ indicators).map (r.renewed d.results types)
      results := r.freshValues (rebuiltTypes types).length, regions := d.regions
      parent := some b, erased := false } := by
  rw [h.op, if_pos rfl]

theorem op?_old : r'.op? o = some
    { d.renew (r.renewed d.results types) with regions := [], parent := none, erased := true } := by
  rw [h.op, if_neg h.ne_fresh, if_pos rfl]

theorem opsOf_old : r.opsOf b = pre ++ o :: post := by
  obtain ⟨B, hB, hops⟩ := h.there
  rw [opsOf_of hB, hops]

/-- What the rebuilding does. -/
def delta (_ : Rebuilt r r' o d b pre post indicators types) : Delta where
  op p := if p = o then r.freshOp else p
  value := r.renewed d.results types
  added p := if p = o then indicators else []

theorem opsOf_eq (c : BlockId) :
    r'.opsOf c = if c = b then pre ++ r.freshOp :: post else r.opsOf c := by
  obtain ⟨B, hB, -⟩ := h.there
  simp only [opsOf, h.block]
  by_cases hc : c = b <;> simp [hc, hB]

theorem opsOf_new : r'.opsOf b = pre ++ r.freshOp :: post := by
  rw [h.opsOf_eq, if_pos rfl]

theorem argsOf_eq (c : BlockId) : r'.argsOf c = r.argsOf c := by
  simp only [argsOf, h.block]
  split <;> cases r.block? c <;> rfl

theorem home?_eq (c : BlockId) : r'.home? c = r.home? c := by
  simp only [home?, h.block]
  split <;> cases r.block? c <;> rfl

theorem blocksOf_eq (g : RegionId) : r'.blocksOf g = r.blocksOf g := by
  simp only [blocksOf, h.region]
  split <;> cases r.region? g <;> rfl

theorem opsOf_map (hl : r.Linked) (c : BlockId) : r'.opsOf c = (r.opsOf c).map h.delta.op := by
  have hfix : ∀ l : List OpId, o ∉ l → l.map h.delta.op = l := by
    intro l hout
    refine (List.map_congr_left fun p hp => ?_).trans (List.map_id _)
    have hne : p ≠ o := fun e => hout (e ▸ hp)
    simp [delta, hne]
  by_cases hc : c = b
  · subst hc
    obtain ⟨hpre, hpost⟩ := hl.listed_once h.opsOf_old
    rw [h.opsOf_new, h.opsOf_old, List.map_append, List.map_cons, hfix pre hpre, hfix post hpost]
    simp [delta]
  · have hout : o ∉ r.opsOf c := by
      intro hm
      exact hc (hl.block_unique hm (by simp [h.opsOf_old]))
    rw [hfix _ hout, h.opsOf_eq, if_neg hc]

/-! ### The new results -/

theorem length_types : types.length = d.results.length := by
  have hlen := congrArg List.length h.typed
  simpa using hlen.symm

omit h in
theorem renewed_of_notMem (hv : v ∉ d.results) : r.renewed d.results types v = v := by
  refine substitute_of_notMem fun hm => hv ?_
  obtain ⟨q, hq, rfl⟩ := List.mem_map.mp hm
  exact (List.of_mem_zip hq).1

theorem map_renewed (hl : r.Linked) : d.results.map (r.renewed d.results types) =
    (r.freshValues (rebuiltTypes types).length).take d.results.length := by
  have hnodup := hl.results_nodup o
  rw [resultsOf_of h.old] at hnodup
  refine map_substitute_zip hnodup (fun v hv hold => ?_) ?_
  · have hlt := hl.result_known (o := o) (by rwa [resultsOf_of h.old])
    have hge := (mem_freshValues.mp hv).1
    omega
  · simp [rebuiltTypes, h.length_types]

theorem getElem?_rebuiltTypes {i : Nat} (hi : i < d.results.length) :
    (rebuiltTypes types)[i]? = types[i]? := by
  rw [rebuiltTypes, List.getElem?_append_left (by rw [h.length_types]; exact hi)]

theorem ty?_fresh (i : Nat) : r'.ty? ⟨r.values.size + i⟩ = (rebuiltTypes types)[i]? := by
  have hval := h.value ⟨r.values.size + i⟩
  rw [if_neg (by simp)] at hval
  simp [ty?, hval, Function.comp_def]

theorem value?_old (hv : r.value? v = some V) : r'.value? v = some V := by
  rw [h.value, if_pos (lt_of_value? hv), hv]

/-- A value has the type of what it gives way to. -/
theorem ty?_renewed (hl : r.Linked) (hv : r.value? v = some V) :
    r'.ty? (r.renewed d.results types v) = some V.ty := by
  by_cases hmem : v ∈ d.results
  · obtain ⟨i, hi⟩ := List.mem_iff_getElem?.mp hmem
    obtain ⟨hlt, -⟩ := List.getElem?_eq_some_iff.mp hi
    have hnew := congrArg (fun l => l[i]?) (h.map_renewed hl)
    simp only [List.getElem?_map, hi, Option.map_some, List.getElem?_take, hlt, if_true,
      getElem?_freshValues] at hnew
    have htype := congrArg (fun l => l[i]?) h.typed
    simp only [List.getElem?_map, hi, Option.map_some, ty?_of hv] at htype
    obtain ⟨ty, hty, hty'⟩ := Option.map_eq_some_iff.mp htype.symm
    split at hnew
    · rw [Option.some.inj hnew, h.ty?_fresh, h.getElem?_rebuiltTypes hlt, hty]
      simpa using hty'
    · cases hnew
  · rw [renewed_of_notMem hmem]
    exact ty?_of (h.value?_old hv)

/-- Behind the results that replace the old ones come the indicators, one for each buffer. -/
theorem results_eq (hl : r.Linked) : ∃ extra,
    r.freshValues (rebuiltTypes types).length =
      d.results.map (r.renewed d.results types) ++ extra ∧
    (∀ v ∈ extra, r'.ty? v = some .ownership) ∧ extra.length = r.bufferCount d.results := by
  refine ⟨(r.freshValues (rebuiltTypes types).length).drop d.results.length, ?_, ?_, ?_⟩
  · rw [h.map_renewed hl, List.take_append_drop]
  · -- the types behind the old ones are those of indicators
    intro v hv
    obtain ⟨j, hj⟩ := List.mem_iff_getElem?.mp hv
    rw [List.getElem?_drop, getElem?_freshValues] at hj
    split at hj
    · rename_i hlt
      cases hj
      have hty : (rebuiltTypes types)[d.results.length + j]? =
          (indicatorTypes types)[j]? := by
        rw [rebuiltTypes, List.getElem?_append_right (by rw [h.length_types]; omega),
          h.length_types]
        simp
      have hj' : j < (indicatorTypes types).length := by
        rw [rebuiltTypes, List.length_append, h.length_types] at hlt
        omega
      rw [h.ty?_fresh, hty, List.getElem?_eq_getElem hj']
      simp [indicatorTypes]
    · cases hj
  · rw [← length_indicatorTypes h.typed]
    simp [rebuiltTypes, h.length_types]

theorem operandsOf_of_ne (hp : p ≠ r.freshOp) :
    r'.operandsOf p = r.operandsOf p ∨
      r'.operandsOf p = (r.operandsOf p).map (r.renewed d.results types) := by
  have hrenew : ∀ e : Op, (e.renew (r.renewed d.results types)).operands = e.operands ∨
      (e.renew (r.renewed d.results types)).operands =
        e.operands.map (r.renewed d.results types) := by
    intro e
    unfold Op.renew
    split <;> simp
  simp only [operandsOf, h.op, if_neg hp]
  by_cases hpo : p = o
  · subst hpo
    simpa [h.old] using hrenew d
  · rw [if_neg hpo]
    cases r.op? p with
    | none => exact .inl rfl
    | some e => exact hrenew e

theorem renewed_known (hv : v.index < r.values.size) :
    (r.renewed d.results types v).index < r'.values.size := by
  rw [h.size_values]
  unfold renewed
  rcases substitute_cases (d.results.zip (r.freshValues (rebuiltTypes types).length)) v
    with heq | hmem
  · rw [heq]
    omega
  · obtain ⟨q, hq, hq'⟩ := List.mem_map.mp hmem
    rw [← hq']
    exact (mem_freshValues.mp (List.of_mem_zip hq).2).2

/-- All operands are renewed, but for those of operations that were erased before. -/
theorem operands_known (hknown : ∀ p, ∀ v ∈ r.operandsOf p, v.index < r.values.size)
    (hind : ∀ v ∈ indicators, v.index < r.values.size) :
    ∀ p, ∀ v ∈ r'.operandsOf p, v.index < r'.values.size := by
  intro p v hv
  by_cases hp : p = r.freshOp
  · rw [hp, operandsOf_of h.op?_fresh] at hv
    obtain ⟨w, hw, rfl⟩ := List.mem_map.mp hv
    refine h.renewed_known ?_
    rcases List.mem_append.mp hw with hw | hw
    · exact hknown o w (by rwa [operandsOf_of h.old])
    · exact hind w hw
  · rcases h.operandsOf_of_ne hp with heq | heq <;> rw [heq] at hv
    · rw [h.size_values]
      exact Nat.lt_add_right _ (hknown p v hv)
    · obtain ⟨w, hw, rfl⟩ := List.mem_map.mp hv
      exact h.renewed_known (hknown p w hw)

/-- Only the construct gets another name. -/
theorem eq_of_renamed (hp : h.delta.op p ≠ p) : p = o := by
  by_contra hne
  exact hp (if_neg hne)

/-- Only the construct gets operands. -/
theorem eq_of_added (hp : h.delta.added p ≠ []) : p = o := by
  by_contra hne
  exact hp (if_neg hne)

/-- The new operation is the construct, grown by the indicators. -/
theorem grown_old (hl : r.Linked) :
    ∃ e, r'.op? (h.delta.op o) = some e ∧ Op.Grown r r' h.delta o d e := by
  refine ⟨_, by simpa [delta] using h.op?_fresh, ?_⟩
  obtain ⟨extra, hres, htyped, hlen⟩ := h.results_eq hl
  exact {
    kind := rfl
    regions := rfl
    parent := by
      rw [← parent?_of h.old]
      exact ((hl.op_listed o b).mp (by simp [h.opsOf_old])).symm
    live := rfl
    operands := by simp [delta]
    results := ⟨extra, hres, htyped,
      fun hop => absurd hop (by simp [delta, Ne.symm h.ne_fresh]), fun _ => hlen⟩ }

/-- Another operation only reads the new results for the old ones; its own keep their names. -/
theorem grown_of_ne (hl : r.Linked) (hp : p ≠ o) (he : r.op? p = some e)
    (hlive : e.erased = false) :
    ∃ e', r'.op? (h.delta.op p) = some e' ∧ Op.Grown r r' h.delta p e e' := by
  refine ⟨_, by simpa [delta, hp] using h.op?_of_ne hp he, ?_⟩
  have hfix : e.results.map (r.renewed d.results types) = e.results := by
    refine (List.map_congr_left fun v hv => renewed_of_notMem fun hold => hp ?_).trans
      (List.map_id _)
    exact hl.result_unique (v := v) (by rwa [resultsOf_of he]) (by rwa [resultsOf_of h.old])
  rw [Op.renew_of_live _ _ hlive]
  exact {
    kind := rfl
    regions := rfl
    parent := rfl
    live := hlive
    operands := by simp [delta, hp]
    results := ⟨[], by simp [delta, hfix], by simp, fun _ => rfl,
      fun hne => absurd (if_neg hp) hne⟩ }

theorem change (hl : r.Linked) (hcons : d.kind.construct?.isSome = true)
    (hlive : d.erased = false) (hcount : indicators.length = r.bufferCount d.operands) :
    Change r r' h.delta where
  root := h.root
  value v V hV := h.value?_old hV
  home := h.home?_eq
  blocksOf := h.blocksOf_eq
  owner g := by
    have hmem : g ∈ d.regions ↔ r.owner? g = some o := by
      rw [← hl.region_listed, regionsOf_of h.old]
    cases hg : r.region? g with
    | none => simp [owner?, h.region, hg]
    | some G =>
      by_cases hgo : G.parent = o <;> simp [owner?, h.region, hg, hmem, hgo, delta]
  args c := ⟨[], by rw [h.argsOf_eq, List.append_nil], by simp⟩
  lists c := by simp [h.opsOf_map hl, delta]
  last c := by rw [h.opsOf_map hl, List.getLast?_map]
  kept p e he := by
    by_cases hp : p = o
    · subst hp
      obtain rfl := Option.mem_unique h.old he
      refine ⟨_, h.op?_old, d.renew_kind _, d.renew_results _, fun herased => ?_⟩
      rw [hlive] at herased
      cases herased
    · exact ⟨_, h.op?_of_ne hp he, e.renew_kind _, e.renew_results _, fun herased => if_pos herased⟩
  image p e he helive _ := by
    by_cases hp : p = o
    · subst hp
      obtain rfl := Option.mem_unique h.old he
      exact h.grown_old hl
    · exact h.grown_of_ne hl hp he helive
  renamed p hp := by
    obtain rfl := h.eq_of_renamed hp
    refine ⟨by simp [isConstruct_of h.old, hcons], by rw [isErased_of h.old, hlive], ?_,
      isErased_of h.op?_old⟩
    simpa [delta] using op?_freshOp r
  injective p q hpq hp hq := by
    -- the new name is none that an operation had before
    simp only [delta] at hpq
    split at hpq
    · rename_i hpo
      split at hpq
      · rename_i hqo
        rw [hpo, hqo]
      · exact absurd (hpq ▸ op?_freshOp r) hq
    · split at hpq
      · exact absurd (hpq ▸ op?_freshOp r) hp
      · exact hpq
  lost p hp := by cases hp
  new x hx := by cases hx
  only q hq := by
    by_cases hqn : q = r.freshOp
    · exact .inr (.inr (.inl ⟨o, by simp [delta, hqn], by simp [delta, Ne.symm h.ne_fresh]⟩))
    · left
      by_cases hqo : q = o
      · simp [hqo, h.old]
      · intro hnone
        rw [h.op, if_neg hqn, if_neg hqo, hnone] at hq
        exact hq rfl
  moved v hv := by
    refine ⟨o, by simp [delta, Ne.symm h.ne_fresh], ?_⟩
    rw [resultsOf_of h.old]
    by_contra hmem
    exact hv (renewed_of_notMem hmem)
  type v V hV := h.ty?_renewed hl hV
  added p _ hp := by
    left
    obtain rfl := h.eq_of_added hp
    simp [delta, Ne.symm h.ne_fresh]
  added_count p hp := by
    obtain rfl := h.eq_of_renamed hp
    rw [operandsOf_of h.old, ← hcount]
    simp [delta]

theorem sound (hw : r.WellFormed)
    (hind : ∀ v ∈ indicators, r.InScope o v ∧ r.ty? v = some .ownership) :
    Change.Sound r r' h.delta where
  known := h.operands_known hw.known fun v hv => (hind v hv).1.known hw.linked
  added p v hv := by
    by_cases hp : p = o
    · subst hp
      exact hind v (by simpa [delta] using hv)
    · simp [delta, hp] at hv
  new x hx := by cases hx
  unused p hp := by cases hp

end Rebuilt

end BufferOwnership
