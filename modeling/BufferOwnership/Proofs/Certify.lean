import BufferOwnership.Proofs.Scope

/-!
# Checking well-formedness

Well-formedness can be checked. Links are compared on the tables; the scope of an operand is
searched from its operation outwards. What stands in a block counts as reached, so the check may
refuse a well-formed routine with leftovers in blocks of erased operations, but what it accepts is
well formed.
-/

namespace BufferOwnership

namespace Routine

variable {r : Routine} {o : OpId} {b : BlockId} {g : RegionId} {v : ValueId} {front : List OpId}

/-! ## Links -/

def opIds (r : Routine) : List OpId := (List.range r.ops.size).map OpId.mk

def blockIds (r : Routine) : List BlockId := (List.range r.blocks.size).map BlockId.mk

def regionIds (r : Routine) : List RegionId := (List.range r.regions.size).map RegionId.mk

def valueIds (r : Routine) : List ValueId := (List.range r.values.size).map ValueId.mk

theorem mem_opIds (h : r.op? o ≠ none) : o ∈ r.opIds := by
  obtain ⟨d, hd⟩ := Option.ne_none_iff_exists'.mp h
  exact List.mem_map.mpr ⟨o.index, List.mem_range.mpr (lt_of_op? hd), rfl⟩

theorem mem_blockIds (h : r.block? b ≠ none) : b ∈ r.blockIds := by
  obtain ⟨B, hB⟩ := Option.ne_none_iff_exists'.mp h
  exact List.mem_map.mpr ⟨b.index, List.mem_range.mpr (lt_of_block? hB), rfl⟩

theorem mem_regionIds (h : r.region? g ≠ none) : g ∈ r.regionIds := by
  refine List.mem_map.mpr ⟨g.index, List.mem_range.mpr ?_, rfl⟩
  by_contra hlt
  exact h (region?_eq_none (by omega))

theorem mem_valueIds (h : r.value? v ≠ none) : v ∈ r.valueIds := by
  obtain ⟨V, hV⟩ := Option.ne_none_iff_exists'.mp h
  exact List.mem_map.mpr ⟨v.index, List.mem_range.mpr (lt_of_value? hV), rfl⟩

/-- Do lists of members agree with what the members say, and is nothing listed twice? -/
def agree {α β : Type} [DecidableEq α] [DecidableEq β] (owners : List β) (all : List α)
    (members : β → List α) (home : α → Option β) : Bool :=
  owners.all (fun b => (members b).Nodup ∧ ∀ a ∈ members b, home a = some b) &&
    all.all fun a => (home a).all fun b => a ∈ members b

theorem listed_of_agree {α β : Type} [DecidableEq α] [DecidableEq β] {owners : List β}
    {all : List α} {members : β → List α} {home : α → Option β}
    (h : agree owners all members home = true) (howners : ∀ b, members b ≠ [] → b ∈ owners)
    (hall : ∀ a, home a ≠ none → a ∈ all) :
    (∀ a b, a ∈ members b ↔ home a = some b) ∧ ∀ b, (members b).Nodup := by
  simp only [agree, Bool.and_eq_true, List.all_eq_true, decide_eq_true_eq] at h
  obtain ⟨hdown, hup⟩ := h
  refine ⟨fun a b => ⟨fun ha => ?_, fun ha => ?_⟩, fun b => ?_⟩
  · exact (hdown b (howners b (List.ne_nil_of_mem ha))).2 a ha
  · simpa [ha] using hup a (hall a (by simp [ha]))
  · by_cases hb : members b = []
    · simp [hb]
    · exact (hdown b (howners b hb)).1

/-- Do values come from where they are listed, and the other way round? -/
def originsAgree (r : Routine) : Bool :=
  (r.opIds.all fun o => (r.resultsOf o).zipIdx.all fun (v, i) =>
    r.origin? v = some (.result o i)) &&
  (r.blockIds.all fun b => (r.argsOf b).zipIdx.all fun (v, i) =>
    r.origin? v = some (.argument b i)) &&
  r.valueIds.all fun v => (r.origin? v).all fun
    | .result o i => (r.resultsOf o)[i]? = some v
    | .argument b i => (r.argsOf b)[i]? = some v

theorem origins_of_agree (h : r.originsAgree = true) :
    (∀ v o i, (r.resultsOf o)[i]? = some v ↔ r.origin? v = some (.result o i)) ∧
      ∀ v b i, (r.argsOf b)[i]? = some v ↔ r.origin? v = some (.argument b i) := by
  simp only [originsAgree, Bool.and_eq_true, List.all_eq_true, decide_eq_true_eq] at h
  obtain ⟨⟨hresults, hargs⟩, horigins⟩ := h
  have hknown : ∀ {v origin}, r.origin? v = some origin → v ∈ r.valueIds := by
    intro v origin ho
    obtain ⟨V, hV, -⟩ := Option.map_eq_some_iff.mp ho
    exact mem_valueIds (by simp [hV])
  refine ⟨fun v o i => ⟨fun hv => ?_, fun hv => ?_⟩, fun v b i => ⟨fun hv => ?_, fun hv => ?_⟩⟩
  · obtain ⟨d, hd, -⟩ := exists_op?_of_mem_resultsOf (List.mem_of_getElem? hv)
    exact hresults o (mem_opIds (by simp [hd])) (v, i) (List.mk_mem_zipIdx_iff_getElem?.mpr hv)
  · simpa [hv] using horigins v (hknown hv)
  · have hb : r.block? b ≠ none := fun hnone => by simp [argsOf, hnone] at hv
    exact hargs b (mem_blockIds hb) (v, i) (List.mk_mem_zipIdx_iff_getElem?.mpr hv)
  · simpa [hv] using horigins v (hknown hv)

def linksAgree (r : Routine) : Bool :=
  agree r.blockIds r.opIds r.opsOf r.parent? && agree r.opIds r.regionIds r.regionsOf r.owner? &&
    agree r.regionIds r.blockIds r.blocksOf r.home? && r.originsAgree

theorem linked_of_agree (h : r.linksAgree = true) : r.Linked := by
  simp only [linksAgree, Bool.and_eq_true] at h
  obtain ⟨⟨⟨hops, hregions⟩, hblocks⟩, horigins⟩ := h
  obtain ⟨hop, hopNodup⟩ := listed_of_agree hops
    (fun b hb => mem_blockIds fun hnone => hb (by simp [opsOf, hnone]))
    (fun o ho => mem_opIds fun hnone => ho (by simp [parent?, hnone]))
  obtain ⟨hregion, hregionNodup⟩ := listed_of_agree hregions
    (fun o ho => mem_opIds fun hnone => ho (by simp [regionsOf, hnone]))
    (fun g hg => mem_regionIds fun hnone => hg (by simp [owner?, hnone]))
  obtain ⟨hblock, hblockNodup⟩ := listed_of_agree hblocks
    (fun g hg => mem_regionIds fun hnone => hg (by simp [blocksOf, hnone]))
    (fun b hb => mem_blockIds fun hnone => hb (by simp [home?, hnone]))
  obtain ⟨hresult, harg⟩ := origins_of_agree horigins
  exact ⟨⟨hop, hopNodup, hregion, hregionNodup, hblock, hblockNodup⟩, hresult, harg⟩

/-! ## Scopes -/

/-- Is a value found in a block, before some operation, or further out? -/
def visibleWithin (r : Routine) (v : ValueId) : Nat → BlockId → List OpId → Bool
  | 0, _, _ => false
  | fuel + 1, b, front =>
    v ∈ r.argsOf b || (front.any fun p => v ∈ r.resultsOf p) ||
      ((r.holder? b).any fun o => (r.parent? o).any fun c =>
        r.visibleWithin v fuel c ((r.opsOf c).takeWhile fun p => p != o))

def findsOperand (r : Routine) (o : OpId) (v : ValueId) : Bool :=
  (r.parent? o).any fun b =>
    r.visibleWithin v (r.ops.size + 1) b ((r.opsOf b).takeWhile fun p => p != o)

/-- The operations before one that is listed. -/
theorem exists_rest_of_mem {l : List OpId} (h : o ∈ l) :
    ∃ rest, l = l.takeWhile (fun p => p != o) ++ o :: rest := by
  induction l with
  | nil => cases h
  | cons p l ih =>
    by_cases hp : p = o
    · exact ⟨l, by simp [hp]⟩
    · obtain ⟨rest, hrest⟩ := ih ((List.mem_cons.mp h).resolve_left (Ne.symm hp))
      refine ⟨rest, ?_⟩
      rw [List.takeWhile_cons_of_pos (by simpa using hp), List.cons_append, ← hrest]

theorem visible_of_within (hl : r.Linked) {fuel : Nat}
    (h : r.visibleWithin v fuel b front = true) : r.Visible b front v := by
  induction fuel generalizing b front with
  | zero => cases h
  | succ fuel ih =>
    simp only [visibleWithin, Bool.or_eq_true, decide_eq_true_eq, List.any_eq_true,
      Option.any_eq_true] at h
    rcases h with (harg | ⟨p, hp, hres⟩) | ⟨o, hholder, c, hparent, hvis⟩
    · exact .argument harg
    · exact .earlier hp hres
    · obtain ⟨rest, hlist⟩ := exists_rest_of_mem ((hl.op_listed o c).mpr hparent)
      exact .enclosing hholder hlist (ih hvis)

theorem inScope_of_finds (hl : r.Linked) (h : r.findsOperand o v = true) : r.InScope o v := by
  simp only [findsOperand, Option.any_eq_true] at h
  obtain ⟨b, hparent, hvis⟩ := h
  obtain ⟨rest, hlist⟩ := exists_rest_of_mem ((hl.op_listed o b).mpr hparent)
  exact ⟨b, _, rest, hlist, visible_of_within hl hvis⟩

/-! ## All together -/

/-- The check of well-formedness. -/
def isWellFormed (r : Routine) : Bool :=
  r.linksAgree && (r.parent? r.root).isNone &&
    ((r.kind? r.root).any fun | .routine _ => true | _ => false) &&
    r.opIds.all fun o =>
      (r.operandsOf o).all (fun v => v.index < r.values.size) &&
      ((r.kind? o).all fun | .routine _ => o = r.root | _ => true) &&
      (o ≠ r.root && (r.parent? o).isNone ||
        !r.isErased o && (r.operandsOf o).all (r.findsOperand o))

theorem wellFormed_of_check (h : r.isWellFormed = true) : r.WellFormed := by
  simp only [isWellFormed, Bool.and_eq_true, List.all_eq_true, Option.isNone_iff_eq_none] at h
  obtain ⟨⟨⟨hlinks, hroot⟩, hkind⟩, hops⟩ := h
  have hl := linked_of_agree hlinks
  obtain ⟨name, hname⟩ : ∃ name, r.kind? r.root = some (.routine name) := by
    cases hk : r.kind? r.root with
    | none => simp [hk] at hkind
    | some k => cases k <;> simp_all
  -- what is reached is the root or stands in a block
  have hreached : ∀ o, r.Reached o → r.isErased o = false ∧
      ∀ v ∈ r.operandsOf o, r.findsOperand o v = true := by
    intro o ho
    have hentry : r.op? o ≠ none := by
      rcases ho.cases_tail with rfl | ⟨p, -, hup⟩
      · obtain ⟨d, hd, -⟩ := exists_op?_of_kind? hname
        simp [hd]
      · obtain ⟨d, hd⟩ := exists_op?_of_up? hup
        simp [hd]
    have hplace : ¬ (o ≠ r.root ∧ r.parent? o = none) := by
      rintro ⟨hne, hparent⟩
      rcases ho.cases_tail with rfl | ⟨p, -, hup⟩
      · exact hne rfl
      · rw [up?, hparent] at hup
        cases hup
    have hcheck := (hops o (mem_opIds hentry)).2
    simp only [Bool.or_eq_true, Bool.and_eq_true, decide_eq_true_eq, Option.isNone_iff_eq_none,
      List.all_eq_true, Bool.not_eq_true'] at hcheck
    exact hcheck.resolve_left hplace
  exact {
    linked := hl
    known := by
      intro o v hv
      obtain ⟨d, hd, -⟩ := exists_op?_of_mem_operandsOf hv
      simpa using (hops o (mem_opIds (by simp [hd]))).1.1 v hv
    root_routine := ⟨name, hname⟩
    only_root := by
      intro o name' ho
      obtain ⟨d, hd, -⟩ := exists_op?_of_kind? ho
      simpa [ho] using (hops o (mem_opIds (by simp [hd]))).1.2
    root_unlinked := hroot
    live := fun o ho => (hreached o ho).1
    in_scope := fun o ho v hv => inScope_of_finds hl ((hreached o ho).2 v hv) }

end Routine

/-! ## A routine to look at -/

/-- In one branch a buffer is given up for a new one, in the other it is kept; what has been chosen
is carried through a loop. -/
def renewal : Edit Unit := do
  let entry : InsertPoint := .atEnd ⟨0⟩
  let ty : Ty := .buffer .f32 1
  let old ← Emit.alloc entry ty
  let choice ← Emit.conditional entry ⟨0⟩ [ty] true
  let _ ← Emit.dealloc (.atEnd choice.thenBlock) old
  let new ← Emit.alloc (.atEnd choice.thenBlock) ty
  let _ ← Emit.yield (.atEnd choice.thenBlock) [new]
  let _ ← Emit.yield (.atEnd (choice.elseBlock?.getD ⟨0⟩)) [old]
  let chosen ← Edit.ask fun r => return (← r.op choice.op).results
  let loop ← Emit.forLoop entry ⟨1⟩ ⟨1⟩ ⟨1⟩ chosen
  let _ ← Emit.yield (.atEnd loop.body) loop.carried
  let carried ← Edit.ask fun r => return (← r.op loop.op).results
  let _ ← Emit.ret entry carried

/-- The routine that an edit makes of an empty one; the empty one if it fails. -/
def Edit.build {α : Type} (edit : Edit α) (name : String) (params : List Ty) : Routine :=
  match edit (.empty name params) with
  | .ok (_, r) => r
  | .error _ => .empty name params

def renewalRoutine : Routine := renewal.build "renewal" [.scalar .i1, .scalar .index]

theorem renewalRoutine_wellFormed : renewalRoutine.WellFormed :=
  Routine.wellFormed_of_check (by decide +kernel)

end BufferOwnership
