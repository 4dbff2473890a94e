import BufferOwnership.Proofs.Stages

/-!
# What insertions join

An operation on indicators that is inserted puts each of its results into the class of the operand
in the same place: an own the indicator into that of its buffer, a retain one indicator each into
the classes of the values that it retains. Nothing else joins classes between the operations of a
routine that are treated, and what has been inserted keeps its operands.
-/

namespace BufferOwnership

open Routine

variable {s s' : Session} {o t x : OpId} {i v : ValueId} {d : Op} {settings : Settings}
variable {P Q : ValueId → Prop} {operands : List ValueId} {point : InsertPoint} {owned : ValueSet}

/-- An operation as it is inserted: an own, a retain that keeps some values, or a null. It reads
only values that pass one test, and a retain keeps only such that pass another. -/
structure Op.Fitting (P Q : ValueId → Prop) (d : Op) : Prop where
  live : d.erased = false
  operands : ∀ v ∈ d.operands, P v
  kind : d.kind = .own ∨ (d.kind = .null ∧ d.operands = []) ∨
    ∃ n, d.kind = .retain n ∧ ∀ pair ∈ d.operands.zip d.results, Q pair.1

/-- A part of a run only inserts operations, and joins their operands with results in place. -/
structure Pairs (P Q : ValueId → Prop) (s s' : Session) : Prop where
  entries : ∀ x, s.routine.op? x ≠ none → s'.routine.op? x = s.routine.op? x
  made : ∀ x d, s.routine.op? x = none → s'.routine.op? x = some d → d.Fitting P Q
  joins : ∃ pairs, s.aliases.Joins pairs s'.aliases ∧ ∀ pair, pair ∈ pairs ↔
    ∃ x d, s.routine.op? x = none ∧ s'.routine.op? x = some d ∧ pair ∈ d.operands.zip d.results

namespace Pairs

theorem refl (s : Session) : Pairs P Q s s where
  entries _ _ := rfl
  made x d hnone hd := by
    rw [hnone] at hd
    cases hd
  joins := by
    refine ⟨[], .of_links rfl, fun pair => ?_⟩
    constructor
    · intro hpair
      cases hpair
    · rintro ⟨x, d, hnone, hd, -⟩
      rw [hnone] at hd
      cases hd

theorem op?_of_some (h : Pairs P Q s s') (hd : s.routine.op? x = some d) :
    s'.routine.op? x = some d :=
  (h.entries x (by simp [hd])).trans hd

theorem op?_eq_none (h : Pairs P Q s s') (hx : s'.routine.op? x = none) :
    s.routine.op? x = none := by
  by_contra hne
  exact hne ((h.entries x hne).symm.trans hx)

theorem trans {s'' : Session} (h : Pairs P Q s s') (h' : Pairs P Q s' s'') : Pairs P Q s s'' where
  entries x hx := by
    have hmid := h.entries x hx
    exact (h'.entries x (hmid ▸ hx)).trans hmid
  made x d hnone hd := by
    by_cases hmid : s'.routine.op? x = none
    · exact h'.made x d hmid hd
    · exact h.made x d hnone (h'.entries x hmid ▸ hd)
  joins := by
    obtain ⟨pairs, hjoins, hpairs⟩ := h.joins
    obtain ⟨pairs', hjoins', hpairs'⟩ := h'.joins
    refine ⟨pairs ++ pairs', hjoins.trans hjoins', fun pair => ?_⟩
    rw [List.mem_append, hpairs, hpairs']
    constructor
    · rintro (⟨x, d, hnone, hd, hpair⟩ | ⟨x, d, hmid, hd, hpair⟩)
      · exact ⟨x, d, hnone, h'.op?_of_some hd, hpair⟩
      · exact ⟨x, d, h.op?_eq_none hmid, hd, hpair⟩
    · rintro ⟨x, d, hnone, hd, hpair⟩
      by_cases hmid : s'.routine.op? x = none
      · exact .inr ⟨x, d, hmid, hd, hpair⟩
      · exact .inl ⟨x, d, hnone, h'.entries x hmid ▸ hd, hpair⟩

/-- Nothing is inserted and nothing joined. -/
theorem of_same (hroutine : s'.routine = s.routine) (haliases : s'.aliases = s.aliases) :
    Pairs P Q s s' where
  entries _ _ := by rw [hroutine]
  made := by
    rw [hroutine]
    exact (refl (P := P) (Q := Q) s).made
  joins := by
    rw [hroutine, haliases]
    exact (refl (P := P) (Q := Q) s).joins

/-- One operation is inserted, and its operands are joined with its results. -/
theorem emit {kind : OpKind} {types : List Ty}
    (hemit : Emit.operation point kind operands types 0 s.routine = .ok (x, s'.routine))
    (hkind : kind = .own ∨ (kind = .null ∧ operands = []) ∨ ∃ n, kind = .retain n ∧ ∀ pair ∈
      operands.zip (s.routine.freshValues types.length), Q pair.1) (hoperands : ∀ v ∈ operands, P v)
    (hjoins : s.aliases.Joins (operands.zip (s.routine.freshValues types.length)) s'.aliases) :
    Pairs P Q s s' := by
  obtain ⟨-, b, pre, post, -, hem⟩ := Emit.operation_emitted hemit
  -- the only entry that was not there is that of the inserted operation
  have hnew : ∀ y d, s.routine.op? y = none → s'.routine.op? y = some d →
      d = { kind, operands, results := s.routine.freshValues types.length, regions := []
            parent := some b, erased := false } := by
    intro y d hnone hd
    by_cases hy : y = s.routine.freshOp
    · rw [hy, hem.op?_fresh] at hd
      exact (Option.some.inj hd).symm
    · rw [hem.op?_of_ne hy, hnone] at hd
      cases hd
  refine ⟨fun y hy => hem.op?_of_ne fun he => hy (he ▸ op?_freshOp _), fun y d hnone hd => ?_,
    _, hjoins, fun pair => ?_⟩
  · rw [hnew y d hnone hd]
    exact ⟨rfl, hoperands, hkind⟩
  · constructor
    · exact fun hpair => ⟨_, _, op?_freshOp _, hem.op?_fresh, hpair⟩
    · rintro ⟨y, d, hnone, hd, hpair⟩
      rwa [hnew y d hnone hd] at hpair

end Pairs

/-! ## Owns -/

theorem own_pairs (hv : P v) (h : Pass.own point v s = .ok (i, s')) : Pairs P Q s s' := by
  obtain ⟨rfl, haliases, x, hemit⟩ := Pass.own_eq_ok h
  apply Pairs.emit hemit (.inl rfl) (by simpa using hv)
  rw [haliases]
  exact .setIndicator s.aliases v _

theorem ownAll_pairs {buffers indicators : List ValueId} (hbuffers : ∀ v ∈ buffers, P v)
    (h : Pass.ownAll point buffers s = .ok (indicators, s')) : Pairs P Q s s' := by
  induction buffers generalizing s indicators with
  | nil =>
    cases h
    exact .refl _
  | cons v buffers ih =>
    obtain ⟨i, others, mid, rfl, hown, hothers⟩ := Pass.ownAll_cons h
    have hfirst : Pairs P Q s mid := own_pairs (hbuffers v (by simp)) hown
    exact hfirst.trans (ih (fun w hw => hbuffers w (by simp [hw])) hothers)

/-! ## Retains -/

section Closing

variable {escaping indicators acquired : List ValueId} {settled : List (Nat × ValueId)}

theorem releaseUnescaped_pairs (hindicators : ∀ i ∈ indicators, P i) {u : Unit}
    (h : Pass.releaseUnescaped settings t escaping indicators s = .ok (u, s')) :
    Pairs P Q s s' := by
  refine Pass.releaseUnescaped_chain .refl .trans (fun hi _ _ hrelease => ?_) h
  obtain ⟨hemit, haliases⟩ := Pass.retain_eq_ok hrelease
  -- a retain that keeps nothing has no results
  apply Pairs.emit hemit (.inr (.inr ⟨_, rfl, ?_⟩)) ?_ ?_
  · simp [Routine.freshValues]
  · simpa using hindicators _ hi
  · simp only [List.map_nil, List.length_nil, Routine.freshValues, List.range_zero,
      List.zip_nil_right, haliases]
    exact .of_links rfl

theorem settleGroup_pairs {group : EscapeGroup} (hescaping : ∀ e ∈ group.escaping, P e.2 ∧ Q e.2)
    (howned : ∀ i ∈ group.owned, P i) (h : Pass.settleGroup t group s = .ok (settled, s')) :
    Pairs P Q s s' := by
  rcases Pass.settleGroup_eq_ok h with ⟨-, -, rfl⟩ | ⟨x, mid, hretain, hroutine, hjoined, -⟩
  · exact .refl s'
  · obtain ⟨hemit, -⟩ := Pass.retain_eq_ok hretain
    obtain ⟨rfl, b, pre, post, -, hem⟩ := Emit.operation_emitted hemit
    rw [resultsOf_of hem.op?_fresh] at hjoined
    -- the results stand in the places of the values that are kept
    have hzip : (group.escaping.map (·.2) ++ group.owned).zip
        (s.routine.freshValues (group.escaping.map fun _ => Ty.ownership).length) =
        (group.escaping.map (·.2)).zip (s.routine.freshValues group.escaping.length) := by
      have hlength : (group.escaping.map (·.2)).length =
          (s.routine.freshValues group.escaping.length).length := by simp
      have happend : (group.escaping.map (·.2) ++ group.owned).zip
          (s.routine.freshValues group.escaping.length ++ []) = _ := List.zip_append hlength
      simpa using happend
    rw [← hroutine] at hemit
    apply Pairs.emit hemit (.inr (.inr ⟨_, rfl, ?_⟩)) ?_ ?_
    · intro pair hpair
      simp only [List.map_map, Function.comp_def, hzip] at hpair
      obtain ⟨e, he, heq⟩ := List.mem_map.mp (List.of_mem_zip hpair).1
      exact heq ▸ (hescaping e he).2
    · intro v hv
      rcases List.mem_append.mp hv with hv | hv
      · obtain ⟨e, he, rfl⟩ := List.mem_map.mp hv
        exact (hescaping e he).1
      · exact howned v hv
    · simp only [List.map_map, Function.comp_def, hzip, hjoined]
      have hswap := (AliasClasses.Joins.unionAll s.aliases
        ((s.routine.freshValues group.escaping.length).zip (group.escaping.map (·.2)))).swap
      rw [List.zip_swap] at hswap
      simpa using hswap

theorem settleGroups_pairs {groups : List EscapeGroup}
    (hescaping : ∀ group ∈ groups, ∀ e ∈ group.escaping, P e.2 ∧ Q e.2)
    (howned : ∀ group ∈ groups, ∀ i ∈ group.owned, P i)
    (h : Pass.settleGroups t groups s = .ok (settled, s')) : Pairs P Q s s' :=
  Pass.settleGroups_chain .refl .trans
    (fun hgroup => settleGroup_pairs (hescaping _ hgroup) (howned _ hgroup)) h

theorem null_pairs (h : Pass.null point s = .ok (i, s')) : Pairs P Q s s' := by
  obtain ⟨-, haliases, x, hemit⟩ := Pass.null_eq_ok h
  apply Pairs.emit hemit (.inr (.inl ⟨rfl, rfl⟩)) (by simp)
  rw [haliases]
  exact .of_links rfl

theorem fillSlots_pairs {null? : Option ValueId} {positions : List Nat}
    (h : Pass.fillSlots t settled null? positions s = .ok (acquired, s')) : Pairs P Q s s' :=
  Pass.fillSlots_chain .refl .trans null_pairs h

/-- Closing a block joins the values that inserted retains keep with what they give for them. -/
theorem closeBlock_pairs
    (hsent : ∀ v ∈ s.routine.operandsOf t, P v ∧ (s.routine.holdsBuffer v = true → Q v))
    (howned : ∀ i ∈ owned, P i) (h : Pass.closeBlock settings t owned s = .ok (acquired, s')) :
    Pairs P Q s s' := by
  obtain ⟨escaping, mid₁, settled, mid₂, rfl, hrelease, hsettle, h⟩ := Pass.closeBlock_eq_ok h
  have hescaping : ∀ v ∈ (s.routine.operandsOf t).filter s.routine.holdsBuffer, P v ∧ Q v := by
    intro v hv
    obtain ⟨hv, hbuffer⟩ := List.mem_filter.mp hv
    exact ⟨(hsent v hv).1, (hsent v hv).2 hbuffer⟩
  have hreleased : Pairs P Q s mid₁ := releaseUnescaped_pairs howned hrelease
  have hsettled : Pairs P Q mid₁ mid₂ := by
    apply settleGroups_pairs _ _ hsettle
    · exact fun group hgroup e he => hescaping _ ((Pass.mem_planEscapes hgroup).1 e he)
    · exact fun group hgroup i hi => howned i ((Pass.mem_planEscapes hgroup).2 i hi)
  exact (hreleased.trans hsettled).trans (fillSlots_pairs h)

end Closing

/-! ## Nulls -/

theorem transferOperands_pairs {released released' : ValueSet} {indicators : List ValueId}
    (h : Pass.transferOperands settings o owned operands released s = .ok ((indicators,
      released'), s')) : Pairs P Q s s' := by
  induction operands generalizing s indicators released with
  | nil =>
    cases h
    exact .refl _
  | cons v operands ih =>
    obtain ⟨i, others, mid, -, ⟨hroutine, haliases, -, hothers⟩ | ⟨hnull, hothers⟩⟩ :=
      transferOperands_cons h
    · exact (Pairs.of_same hroutine haliases).trans (ih hothers)
    · exact (null_pairs hnull).trans (ih hothers)

end BufferOwnership
