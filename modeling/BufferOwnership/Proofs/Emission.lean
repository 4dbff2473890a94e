import BufferOwnership.Ownership.Construct
import BufferOwnership.Proofs.Entries
import Mathlib.Data.List.Forall2

/-!
# What an emission does

Three composite edits make up all that ownership threading does to the operations of a routine:
an operation is put into a block, a construct is rebuilt, and an operation without regions is
erased. Each gets one structure here that describes the tables afterwards, and one theorem that
reads it off the edit.
-/

namespace BufferOwnership

open Routine

variable {r r' : Routine} {indicators : List ValueId} {types : List Ty} {x o : OpId} {b : BlockId}
variable {v : ValueId}

/-! ## Substitution -/

namespace Routine

theorem substitute_of_notMem {pairs : List (ValueId × ValueId)} (h : v ∉ pairs.map Prod.fst) :
    substitute pairs v = v := by
  induction pairs with
  | nil => rfl
  | cons pair pairs ih =>
    obtain ⟨old, new⟩ := pair
    simp only [List.map_cons, List.mem_cons, not_or] at h
    rw [substitute_cons, if_neg h.1, ih h.2]

/-- If no new value is an old one, the replacements do not interfere. -/
theorem map_substitute_zip {olds news : List ValueId} (hnodup : olds.Nodup)
    (hfresh : ∀ v ∈ news, v ∉ olds) (hlen : olds.length ≤ news.length) :
    olds.map (substitute (olds.zip news)) = news.take olds.length := by
  induction olds generalizing news with
  | nil => simp
  | cons old olds ih =>
    cases news with
    | nil => simp at hlen
    | cons new news =>
      obtain ⟨hold, hnodup⟩ := List.nodup_cons.mp hnodup
      have hnew : new ∉ olds := fun hm => hfresh new (by simp) (by simp [hm])
      have hhead : substitute ((old :: olds).zip (new :: news)) old = new := by
        rw [List.zip_cons_cons, substitute_cons, if_pos rfl]
        refine substitute_of_notMem fun hm => hnew ?_
        obtain ⟨q, hq, rfl⟩ := List.mem_map.mp hm
        exact (List.of_mem_zip hq).1
      -- no old value comes again behind the first one
      have htail : olds.map (substitute ((old :: olds).zip (new :: news))) =
          olds.map (substitute (olds.zip news)) := by
        refine List.map_congr_left fun v hv => ?_
        have hne : v ≠ old := fun e => hold (e ▸ hv)
        rw [List.zip_cons_cons, substitute_cons, if_neg hne]
      rw [List.map_cons, hhead, htail, ih hnodup
        (fun v hv hm => hfresh v (by simp [hv]) (by simp [hm])) (by simpa using hlen)]
      simp

end Routine

/-! ## Putting an operation into a block -/

/-- An operation without regions was put into a block, between `pre` and `post`. -/
structure Emitted (r r' : Routine) (b : BlockId) (pre post : List OpId) (kind : OpKind)
    (operands : List ValueId) (types : List Ty) : Prop where
  there : ∃ B, r.block? b = some B ∧ B.ops = pre ++ post
  op : ∀ p, r'.op? p = if p = r.freshOp then
      some { kind, operands, results := r.freshValues types.length, regions := []
             parent := some b, erased := false }
    else r.op? p
  block : ∀ c, r'.block? c = if c = b
    then (r.block? c).map fun B => { B with ops := pre ++ r.freshOp :: post }
    else r.block? c
  value : ∀ v, r'.value? v = if v.index < r.values.size then r.value? v
    else types[v.index - r.values.size]?.map fun ty =>
      { ty, origin := .result r.freshOp (v.index - r.values.size) }
  regions : r'.regions = r.regions
  root : r'.root = r.root
  size_ops : r'.ops.size = r.ops.size + 1
  size_blocks : r'.blocks.size = r.blocks.size
  size_values : r'.values.size = r.values.size + types.length

/-- An operation is emitted by making it and putting it in its place. -/
theorem Emit.operation_eq_ok {point : InsertPoint} {kind : OpKind} {operands : List ValueId}
    {n : Nat} (h : Emit.operation point kind operands types n r = .ok (x, r')) :
    x = r.freshOp ∧ (r.createOp kind operands types n).2.insertOp r.freshOp point = .ok r' := by
  have hsteps : ((r.createOp kind operands types n).2.insertOp r.freshOp point >>= fun r' =>
      pure (r.freshOp, r')) = .ok (x, r') := h
  obtain ⟨r'', hins, hrest⟩ := bind_eq_ok.mp hsteps
  cases hrest
  exact ⟨rfl, hins⟩

theorem Emit.operation_emitted {point : InsertPoint} {kind : OpKind} {operands : List ValueId}
    (h : Emit.operation point kind operands types 0 r = .ok (x, r')) :
    x = r.freshOp ∧ ∃ b pre post, r.Splits b pre post point ∧
      Emitted r r' b pre post kind operands types := by
  obtain ⟨rfl, hins⟩ := Emit.operation_eq_ok h
  refine ⟨rfl, ?_⟩
  obtain ⟨d, b, B, pre, post, hd, hnone, hB, hsplit, hpost, hop, hblock, hregions, hvalues, hroot,
    hsize, hbsize⟩ := insertOp_entries hins
  simp only [op?_createOp, if_true, Option.some.injEq] at hd
  subst hd
  refine ⟨b, pre, post, ?_, ⟨B, by simpa using hB, hsplit⟩, ?_, ?_, ?_, ?_, ?_, ?_, ?_, ?_⟩
  -- the new operation stands in no block yet, so it is not the anchor
  · cases point with
    | before anchor =>
      obtain ⟨hparent, hrest⟩ := hpost
      refine ⟨?_, hrest⟩
      simp only [Routine.parent?, op?_createOp] at hparent ⊢
      split at hparent
      · simp at hparent
      · exact hparent
    | atEnd c => exact hpost
  · intro p
    rw [hop, op?_createOp]
    by_cases hp : p = r.freshOp <;> simp [hp]
  · intro c
    rw [hblock]
    by_cases hc : c = b
    · subst hc
      have hB' : r.block? c = some B := by simpa using hB
      simp [hB']
    · simp [hc]
  · intro v
    rw [← value?_createOp r kind operands types 0 v]
    unfold Routine.value?
    rw [hvalues]
  · rw [hregions]
    simp [createOp]
  · rw [hroot, root_createOp]
  · rw [hsize, size_ops_createOp]
  · rw [hbsize]
    rfl
  · rw [hvalues, size_values_createOp]

/-! ## Lists of computations -/

section Computations

variable {α β γ ε : Type} {l : List α} {out : List β} {f : α → Except ε β}

/-- Computations one after another give answers if and only if each of them gives its own. -/
theorem mapM_eq_ok : l.mapM f = .ok out ↔ List.Forall₂ (fun a b => f a = .ok b) l out := by
  induction l generalizing out with
  | nil =>
    rw [List.forall₂_nil_left_iff, List.mapM_nil]
    exact ⟨fun h => (Except.ok.inj h).symm, fun h => h ▸ rfl⟩
  | cons a l ih =>
    rw [List.mapM_cons, bind_eq_ok, List.forall₂_cons_left_iff]
    constructor
    · rintro ⟨b, hb, h⟩
      obtain ⟨rest, hrest, h⟩ := bind_eq_ok.mp h
      cases h
      exact ⟨b, rest, hb, ih.mp hrest, rfl⟩
    · rintro ⟨b, rest, hb, hrest, rfl⟩
      exact ⟨b, hb, bind_eq_ok.mpr ⟨rest, ih.mpr hrest, rfl⟩⟩

theorem exists_mapM_eq_ok : (∃ out, l.mapM f = .ok out) ↔ ∀ a ∈ l, ∃ b, f a = .ok b := by
  simp only [mapM_eq_ok]
  induction l with
  | nil => exact ⟨fun _ => by simp, fun _ => ⟨[], .nil⟩⟩
  | cons a l ih =>
    rw [List.forall_mem_cons, ← ih]
    constructor
    · rintro ⟨out, h⟩
      obtain ⟨b, rest, hb, hrest, rfl⟩ := List.forall₂_cons_left_iff.mp h
      exact ⟨⟨b, hb⟩, rest, hrest⟩
    · rintro ⟨⟨b, hb⟩, rest, hrest⟩
      exact ⟨b :: rest, .cons hb hrest⟩

/-- What answers hold can be read off what they are answers to. -/
theorem flatMap_of_mapM {parts : β → List γ} {parts' : α → List γ} (h : l.mapM f = .ok out)
    (hparts : ∀ a b, f a = .ok b → parts' a = parts b) : out.flatMap parts = l.flatMap parts' := by
  replace h := mapM_eq_ok.mp h
  induction h with
  | nil => rfl
  | cons hb _ ih => rw [List.flatMap_cons, List.flatMap_cons, ih, hparts _ _ hb]

end Computations

/-! ## Rebuilding a construct -/

theorem filter_ne_of_notMem {l : List OpId} (h : o ∉ l) : l.filter (fun p => p != o) = l := by
  refine List.filter_eq_self.mpr fun p hp => ?_
  have hne : p ≠ o := fun e => h (e ▸ hp)
  simpa using hne

namespace Edit

variable {α β : Type} {query : Routine → Except Fault α} {f : α → Edit β}

theorem bind_eq_ok {x : Edit α} {b : β} :
    (x >>= f) r = .ok (b, r') ↔ ∃ a mid, x r = .ok (a, mid) ∧ f a mid = .ok (b, r') := by
  show (x r >>= fun p => f p.1 p.2) = .ok (b, r') ↔ _
  rw [BufferOwnership.bind_eq_ok]
  exact ⟨fun ⟨p, hx, hf⟩ => ⟨p.1, p.2, hx, hf⟩, fun ⟨a, mid, hx, hf⟩ => ⟨(a, mid), hx, hf⟩⟩

theorem ask_eq_ok {a : α} : ask query r = .ok (a, r') ↔ query r = .ok a ∧ r = r' := by
  show (query r >>= fun a => pure (a, r)) = .ok (a, r') ↔ _
  rw [BufferOwnership.bind_eq_ok]
  constructor
  · rintro ⟨a', hq, hp⟩
    cases hp
    exact ⟨hq, rfl⟩
  · rintro ⟨hq, rfl⟩
    exact ⟨a, hq, rfl⟩

theorem ask_bind_eq_ok {b : β} : (ask query >>= f) r = .ok (b, r') ↔
      ∃ a, query r = .ok a ∧ f a r = .ok (b, r') := by
  rw [bind_eq_ok]
  simp only [ask_eq_ok]
  exact ⟨fun ⟨a, _, ⟨ha, rfl⟩, h⟩ => ⟨a, ha, h⟩, fun ⟨a, ha, h⟩ => ⟨a, r, ⟨ha, rfl⟩, h⟩⟩

theorem change_eq_ok {f : Routine → Except Fault Routine} :
    change f r = .ok ((), r') ↔ f r = .ok r' := by
  show (f r >>= fun r => pure ((), r)) = .ok ((), r') ↔ _
  rw [BufferOwnership.bind_eq_ok]
  constructor
  · rintro ⟨mid, hf, hp⟩
    cases hp
    exact hf
  · intro hf
    exact ⟨r', hf, rfl⟩

end Edit

namespace Routine

theorem typeOf_eq_ok {ty : Ty} : r.typeOf v = .ok ty ↔ r.ty? v = some ty := by
  simp only [typeOf, bind_eq_ok, value_eq_ok, getElem?_values, ty?, Option.map_eq_some_iff]
  constructor
  · rintro ⟨V, hV, hty⟩
    cases hty
    exact ⟨V, hV, rfl⟩
  · rintro ⟨V, hV, rfl⟩
    exact ⟨V, hV, rfl⟩

theorem mapM_typeOf_eq_ok {vs : List ValueId} :
    vs.mapM r.typeOf = .ok types ↔ vs.map r.ty? = types.map some := by
  rw [mapM_eq_ok, ← List.forall₂_eq_eq_eq, List.forall₂_map_left_iff, List.forall₂_map_right_iff]
  simp only [typeOf_eq_ok]

end Routine

/-- One indicator for each buffer among some types. -/
def indicatorTypes (types : List Ty) : List Ty := (types.filter Ty.isBuffer).map fun _ => .ownership

/-- The types of the results of a construct that is rebuilt: its own, then the indicators. -/
def rebuiltTypes (types : List Ty) : List Ty := types ++ indicatorTypes types

/-- The values that some results give way to when their construct is rebuilt. -/
def Routine.renewed (r : Routine) (results : List ValueId) (types : List Ty) : ValueId → ValueId :=
  substitute (results.zip (r.freshValues (rebuiltTypes types).length))

/-- The operation with other operands in place of its own; an erased one stays as it is. -/
def Op.renew (ρ : ValueId → ValueId) (d : Op) : Op :=
  if d.erased then d else { d with operands := d.operands.map ρ }

namespace Op

variable (ρ : ValueId → ValueId) (d : Op)

theorem renew_of_live (h : d.erased = false) :
    d.renew ρ = { d with operands := d.operands.map ρ } := by
  simp [renew, h]

@[simp] theorem renew_kind : (d.renew ρ).kind = d.kind := by
  unfold renew
  split <;> rfl

@[simp] theorem renew_results : (d.renew ρ).results = d.results := by
  unfold renew
  split <;> rfl

@[simp] theorem renew_regions : (d.renew ρ).regions = d.regions := by
  unfold renew
  split <;> rfl

@[simp] theorem renew_parent : (d.renew ρ).parent = d.parent := by
  unfold renew
  split <;> rfl

end Op

/-- A construct was rebuilt in its place: a new operation took over its regions, its place and
its results, and has more operands and results. What is not erased uses the new results. -/
structure Rebuilt (r r' : Routine) (o : OpId) (d : Op) (b : BlockId) (pre post : List OpId)
    (indicators : List ValueId) (types : List Ty) : Prop where
  old : r.op? o = some d
  there : ∃ B, r.block? b = some B ∧ B.ops = pre ++ o :: post
  typed : d.results.map r.ty? = types.map some
  op : ∀ p, r'.op? p =
    if p = r.freshOp then
      some { kind := d.kind
             operands := (d.operands ++ indicators).map (r.renewed d.results types)
             results := r.freshValues (rebuiltTypes types).length
             regions := d.regions, parent := some b, erased := false }
    else if p = o then
      some { d.renew (r.renewed d.results types) with
             regions := [], parent := none, erased := true }
    else (r.op? p).map (Op.renew (r.renewed d.results types))
  block : ∀ c, r'.block? c = if c = b
    then (r.block? c).map fun B => { B with ops := pre ++ r.freshOp :: post }
    else r.block? c
  region : ∀ g, r'.region? g = if g ∈ d.regions
    then (r.region? g).map ({ · with parent := r.freshOp })
    else r.region? g
  value : ∀ v, r'.value? v = if v.index < r.values.size then r.value? v
    else (rebuiltTypes types)[v.index - r.values.size]?.map fun ty =>
      { ty, origin := .result r.freshOp (v.index - r.values.size) }
  root : r'.root = r.root
  size_ops : r'.ops.size = r.ops.size + 1
  size_values : r'.values.size = r.values.size + (rebuiltTypes types).length

/-- The steps of a rebuild, and the routine after each of them. -/
theorem rebuildConstruct_eq_ok : rebuildConstruct o indicators r = .ok (x, r') ↔
    ∃ d types r₁ r₂ e, r.op? o = some d ∧ d.results.mapM r.typeOf = .ok types ∧
      Emit.operation (.before o) d.kind (d.operands ++ indicators) (rebuiltTypes types) 0 r =
        .ok (x, r₁) ∧
      r₁.moveRegions o x = .ok r₂ ∧ r₂.op? x = some e ∧
      (r₂.replaceEach (d.results.zip e.results)).eraseOp o = .ok r' := by
  unfold rebuildConstruct
  constructor
  · intro h
    obtain ⟨d, hd, h⟩ := Edit.ask_bind_eq_ok.mp h
    obtain ⟨types, htypes, h⟩ := Edit.ask_bind_eq_ok.mp h
    obtain ⟨new, r₁, hemit, h⟩ := Edit.bind_eq_ok.mp h
    obtain ⟨_, r₂, hmove, h⟩ := Edit.bind_eq_ok.mp h
    obtain ⟨e, he, h⟩ := Edit.ask_bind_eq_ok.mp h
    obtain ⟨_, r₃, hreplace, h⟩ := Edit.bind_eq_ok.mp h
    obtain ⟨_, r₄, herase, h⟩ := Edit.bind_eq_ok.mp h
    cases h
    cases hreplace
    exact ⟨d, types, r₁, r₂, e, op_eq_ok.mp hd, htypes, hemit,
      Edit.change_eq_ok.mp hmove, op_eq_ok.mp he, Edit.change_eq_ok.mp herase⟩
  · rintro ⟨d, types, r₁, r₂, e, hd, htypes, hemit, hmove, he, herase⟩
    refine Edit.ask_bind_eq_ok.mpr ⟨d, op_eq_ok.mpr hd, ?_⟩
    refine Edit.ask_bind_eq_ok.mpr ⟨types, htypes, ?_⟩
    refine Edit.bind_eq_ok.mpr ⟨x, r₁, hemit, ?_⟩
    refine Edit.bind_eq_ok.mpr ⟨(), r₂, Edit.change_eq_ok.mpr hmove, ?_⟩
    refine Edit.ask_bind_eq_ok.mpr ⟨e, op_eq_ok.mpr he, ?_⟩
    refine Edit.bind_eq_ok.mpr ⟨(), r₂.replaceEach (d.results.zip e.results), rfl, ?_⟩
    exact Edit.bind_eq_ok.mpr ⟨(), r', Edit.change_eq_ok.mpr herase, rfl⟩

theorem rebuildConstruct_rebuilt {d : Op} (hd : r.op? o = some d) (hparent : d.parent = some b)
    (hnodup : (r.opsOf b).Nodup) (h : rebuildConstruct o indicators r = .ok (x, r')) :
    x = r.freshOp ∧ ∃ pre post types, Rebuilt r r' o d b pre post indicators types := by
  obtain ⟨_, types, r₁, r₂, data, hop, htypes, hemit, hmove, hdata, herase⟩ :=
    rebuildConstruct_eq_ok.mp h
  obtain rfl : d = _ := Option.mem_unique hd hop
  -- the new operation stands right before the old one
  obtain ⟨rfl, c, pre, post', ⟨hanchor, hpre, post, rfl⟩, hem⟩ := Emit.operation_emitted hemit
  obtain rfl : b = c := by
    rw [parent?_of hd, hparent] at hanchor
    exact Option.some.inj hanchor
  have hne : o ≠ r.freshOp := ne_freshOp hd
  obtain ⟨B, hB, hops⟩ := hem.there
  have hpost : o ∉ post := by
    rw [opsOf_of hB, hops] at hnodup
    exact (List.nodup_cons.mp (List.nodup_append.mp hnodup).2.1).1
  -- its regions are those of the old one
  obtain ⟨d₁, hd₁, hop₂, hregion₂, hblocks₂, hvalues₂, hroot₂, hsize₂, hrsize₂⟩ :=
    moveRegions_entries hne hmove
  obtain rfl : d = d₁ := by
    rw [hem.op, if_neg hne, hd] at hd₁
    exact Option.some.inj hd₁
  have hnew₂ := hop₂ r.freshOp
  rw [if_neg (Ne.symm hne), if_pos rfl, hem.op, if_pos rfl] at hnew₂
  obtain rfl : _ = data := Option.mem_unique hnew₂ hdata
  -- uses follow, and the old operation goes
  have hop₃ := op?_replaceEach r₂
    (d.results.zip (r.freshValues (rebuiltTypes types).length))
  obtain ⟨hvalues₃, hblocks₃, hregions₃, hroot₃, hsize₃⟩ := replaceEach_tables r₂
    (d.results.zip (r.freshValues (rebuiltTypes types).length))
  have hold₃ := hop₃ o
  rw [hop₂ o, if_pos rfl, Option.map_some] at hold₃
  change _ = some (Op.renew (r.renewed d.results types) { d with regions := [] }) at hold₃
  obtain ⟨hop₄, hblock₄, hregions₄, hvalues₄, hroot₄, hsize₄, hbsize₄⟩ :=
    eraseOp_leaf_entries hold₃ (by rw [Op.renew_regions]) herase
  refine ⟨rfl, pre, post, types, ?_⟩
  exact {
    old := hd
    there := ⟨B, hB, hops⟩
    typed := mapM_typeOf_eq_ok.mp htypes
    op := by
      intro p
      rw [hop₄]
      by_cases hpo : p = o
      · subst hpo
        rw [if_pos rfl, if_neg hne, if_pos rfl]
        unfold Op.renew
        split <;> rfl
      · rw [if_neg hpo, hop₃, hop₂, if_neg hpo]
        by_cases hpn : p = r.freshOp
        · subst hpn
          rw [if_pos rfl, if_pos rfl, hem.op, if_pos rfl]
          rfl
        · rw [if_neg hpn, if_neg hpn, if_neg hpo, hem.op, if_neg hpn]
          rfl
    block := by
      intro c
      have hblock₃ : (r₂.replaceEach (d.results.zip
          (r.freshValues (rebuiltTypes types).length))).block? c = r₁.block? c := by
        unfold Routine.block?
        rw [hblocks₃, hblocks₂]
      rw [hblock₄, hblock₃, hem.block]
      by_cases hc : c = b
      · subst hc
        have hfilter : (pre ++ r.freshOp :: o :: post).filter (fun p => p != o) =
            pre ++ r.freshOp :: post := by
          simp [List.filter_append, filter_ne_of_notMem hpre, filter_ne_of_notMem hpost,
            Ne.symm hne]
        simp [Op.renew_parent, hparent, hB, hfilter]
      · have hc' : ¬ d.parent = some c := by
          rw [hparent]
          exact fun e => hc (Option.some.inj e).symm
        simp [Op.renew_parent, hc, hc']
    region := by
      intro g
      have hregion₄ : r'.region? g = r₂.region? g := by
        unfold Routine.region?
        rw [hregions₄, hregions₃]
      rw [hregion₄, hregion₂]
      unfold Routine.region?
      rw [hem.regions]
    value := by
      intro v
      have hvalue₄ : r'.value? v = r₁.value? v := by
        unfold Routine.value?
        rw [hvalues₄, hvalues₃, hvalues₂]
      rw [hvalue₄, hem.value]
    root := by rw [hroot₄, hroot₃, hroot₂, hem.root]
    size_ops := by rw [hsize₄, hsize₃, hsize₂, hem.size_ops]
    size_values := by rw [hvalues₄, hvalues₃, hvalues₂, hem.size_values] }

end BufferOwnership
