import BufferOwnership.Proofs.Pairing

/-!
# With which indicator a buffer leaves

The end of a block puts an indicator into the slot of each buffer that escapes. Either the block
owns it, alone in its class, for the only buffer of the class that escapes; or a retain gives it,
which takes in all indicators of the class that the block owns. No slot is left over, and no
indicator comes into two slots.
-/

namespace BufferOwnership

open Routine

variable {f : Routine} {s s' : Session} {t : OpId} {i v w : ValueId} {k : Nat} {group : EscapeGroup}
variable {settings : Settings} {escaping acquired : List ValueId} {owned : ValueSet}
variable {settled : List (Nat × ValueId)} {P Q : ValueId → Prop} {groups : List EscapeGroup}

/-- How a buffer that escapes comes by the indicator with which it leaves. -/
inductive Leaves (s s' : Session) (escaping : List ValueId) (owned : ValueSet)
    (v i : ValueId) : Prop
  /-- The block owns the indicator, and there is nothing else in the class. -/
  | directly : i ∈ owned → s.aliases.same v i = true →
      (∀ j ∈ owned, s.aliases.same v j = true → j = i) →
      escaping.filter (s.aliases.same v) = [v] → Leaves s s' escaping owned v i
  /-- A retain gives the indicator, and takes in what the block owns in the class. -/
  | retained {x : OpId} {d : Op} {n : Nat} : s.routine.op? x = none → s'.routine.op? x = some d →
      d.kind = .retain n → (v, i) ∈ d.operands.zip d.results →
      (∀ j ∈ owned, s.aliases.same v j = true → j ∈ d.operands.drop n) →
      Leaves s s' escaping owned v i

/-! ## Groups -/

namespace AliasClasses

variable (c : AliasClasses) (escaping : List ValueId) (owned : ValueSet) {l : ValueId}

theorem mem_escaping_escapeGroup : (k, v) ∈ (c.escapeGroup escaping owned l).escaping ↔
      escaping[k]? = some v ∧ c.leader v = l := by
  simp only [escapeGroup, List.mem_filterMap, Prod.exists, List.mk_mem_zipIdx_iff_getElem?,
    Option.ite_none_right_eq_some, Option.some.injEq, Prod.mk.injEq]
  constructor
  · rintro ⟨w, k', hw, hl, rfl, rfl⟩
    exact ⟨hw, hl⟩
  · rintro ⟨hv, hl⟩
    exact ⟨v, k, hv, hl, rfl, rfl⟩

theorem escaping_escapeGroup :
    (c.escapeGroup escaping owned l).escaping.map (·.2) =
      escaping.filter fun v => c.leader v = l := by
  simp only [escapeGroup, List.map_filterMap]
  generalize 0 = start
  induction escaping generalizing start with
  | nil => rfl
  | cons v escaping ih =>
    rw [List.zipIdx_cons, List.filterMap_cons, List.filter_cons, ih (start + 1)]
    by_cases hv : c.leader v = l <;> simp [hv]

end AliasClasses

/-- How the end of a block settles the value of a group that has a given position. -/
inductive EscapeGroup.Settles (s s' : Session) (group : EscapeGroup) (k : Nat)
    (v i : ValueId) : Prop
  | directly : group.escaping = [(k, v)] → group.owned = [i] → Settles s s' group k v i
  | retained {x : OpId} {d : Op} : (k, v) ∈ group.escaping → s.routine.op? x = none →
      s'.routine.op? x = some d → d.kind = .retain group.escaping.length →
      d.operands = group.escaping.map (·.2) ++ group.owned → (v, i) ∈ d.operands.zip d.results →
      Settles s s' group k v i

theorem settleGroup_settles
    (h : Pass.settleGroup t group s = .ok (settled, s')) (hk : (k, i) ∈ settled) :
    ∃ v, group.Settles s s' k v i := by
  rcases Pass.settleGroup_eq_ok h with ⟨hdirect, rfl, rfl⟩ | ⟨x, mid, hretain, hroutine, -, rfl⟩
  · simp only [EscapeGroup.isDirect, Bool.and_eq_true, decide_eq_true_eq] at hdirect
    obtain ⟨j, howned⟩ := List.length_eq_one_iff.mp hdirect.1
    obtain ⟨⟨k', v⟩, hescaping⟩ := List.length_eq_one_iff.mp hdirect.2
    rw [howned, hescaping] at hk
    obtain ⟨rfl, rfl⟩ : k = k' ∧ i = j := by simpa using hk
    exact ⟨v, .directly hescaping howned⟩
  · obtain ⟨hemit, -⟩ := Pass.retain_eq_ok hretain
    obtain ⟨rfl, b, pre, post, -, hem⟩ := Emit.operation_emitted hemit
    rw [resultsOf_of hem.op?_fresh] at hk
    -- the position and the result stand in one place of the group
    obtain ⟨n, hn⟩ := List.mem_iff_getElem?.mp hk
    obtain ⟨hposition, hresult⟩ := List.getElem?_zip_eq_some.mp hn
    rw [List.getElem?_map] at hposition
    obtain ⟨⟨k', v⟩, hplace, rfl⟩ := Option.map_eq_some_iff.mp hposition
    refine ⟨v, .retained (List.mem_of_getElem? hplace) (op?_freshOp _)
      (hroutine ▸ hem.op?_fresh) (by simp) rfl ?_⟩
    refine List.mem_of_getElem? (i := n) (List.getElem?_zip_eq_some.mpr ⟨?_, hresult⟩)
    rw [List.getElem?_append_left (by simpa using (List.getElem?_eq_some_iff.mp hplace).1),
      List.getElem?_map, hplace]
    rfl

/-- What is inserted before and afterwards does not matter to a group. -/
theorem EscapeGroup.Settles.mono {s₁ s₂ : Session}
    (h : group.Settles s₁ s₂ k v i) (hbefore : Pairs P Q s s₁) (hafter : Pairs P Q s₂ s') :
    group.Settles s s' k v i := by
  cases h with
  | directly hescaping howned => exact .directly hescaping howned
  | retained hmem hnone hd hkind hoperands hpair =>
    exact .retained hmem (hbefore.op?_eq_none hnone) (hafter.op?_of_some hd) hkind hoperands hpair

theorem settleGroups_settles (h : Pass.settleGroups t groups s = .ok (settled, s'))
    (hk : (k, i) ∈ settled) : ∃ group ∈ groups, ∃ v, group.Settles s s' k v i := by
  induction groups generalizing s settled with
  | nil =>
    obtain ⟨rfl, -⟩ := Pass.pure_eq_ok.mp h
    cases hk
  | cons group groups ih =>
    obtain ⟨first, others, mid, rfl, hfirst, hothers⟩ := Pass.settleGroups_cons h
    have hpairs₁ : Pairs (fun _ => True) (fun _ => True) s mid :=
      settleGroup_pairs (by simp) (by simp) hfirst
    have hpairs₂ : Pairs (fun _ => True) (fun _ => True) mid s' :=
      settleGroups_pairs (by simp) (by simp) hothers
    rcases List.mem_append.mp hk with hk | hk
    · obtain ⟨v, hsettles⟩ := settleGroup_settles hfirst hk
      exact ⟨group, by simp, v, hsettles.mono (.refl s) hpairs₂⟩
    · obtain ⟨group', hgroup', v, hsettles⟩ := ih hothers hk
      exact ⟨group', by simp [hgroup'], v, hsettles.mono hpairs₁ (.refl s')⟩

/-- What a group leaves with is owned or new, and no two of its values leave with the same. -/
theorem settleGroup_nodup (howned : group.owned.Nodup)
    (h : Pass.settleGroup t group s = .ok (settled, s')) :
    (settled.map (·.2)).Nodup ∧ s.routine.values.size ≤ s'.routine.values.size ∧
      ∀ i ∈ settled.map (·.2), i ∈ group.owned ∨
        (s.routine.values.size ≤ i.index ∧ i.index < s'.routine.values.size) := by
  rcases Pass.settleGroup_eq_ok h with ⟨hdirect, rfl, rfl⟩ | ⟨x, mid, hretain, hroutine, -, rfl⟩
  · simp only [EscapeGroup.isDirect, Bool.and_eq_true, decide_eq_true_eq] at hdirect
    rw [List.map_snd_zip (by simp [hdirect])]
    exact ⟨howned, Nat.le_refl _, fun i hi => .inl hi⟩
  · obtain ⟨hemit, -⟩ := Pass.retain_eq_ok hretain
    obtain ⟨rfl, b, pre, post, -, hem⟩ := Emit.operation_emitted hemit
    rw [resultsOf_of hem.op?_fresh, hroutine, hem.size_values, List.map_snd_zip (by simp)]
    exact ⟨nodup_freshValues _ _, Nat.le_add_right _ _, fun i hi => .inr (mem_freshValues.mp hi)⟩

theorem settleGroups_nodup (howned : (groups.flatMap (·.owned)).Nodup)
    (hknown : ∀ i ∈ groups.flatMap (·.owned), i.index < s.routine.values.size)
    (h : Pass.settleGroups t groups s = .ok (settled, s')) :
    (settled.map (·.2)).Nodup ∧ ∀ i ∈ settled.map (·.2),
      i ∈ groups.flatMap (·.owned) ∨ s.routine.values.size ≤ i.index := by
  induction groups generalizing s settled with
  | nil =>
    cases h
    simp
  | cons group groups ih =>
    obtain ⟨first, others, mid, rfl, hfirst, hothers⟩ := Pass.settleGroups_cons h
    rw [List.flatMap_cons] at howned hknown ⊢
    obtain ⟨hgroup, hgroups, hdisjoint⟩ := List.nodup_append.mp howned
    obtain ⟨hnodup₁, hsize, hfrom₁⟩ := settleGroup_nodup hgroup hfirst
    obtain ⟨hnodup₂, hfrom₂⟩ := ih hgroups
      (fun i hi => Nat.lt_of_lt_of_le (hknown i (by simp [hi])) hsize) hothers
    rw [List.map_append]
    refine ⟨List.nodup_append.mpr ⟨hnodup₁, hnodup₂, fun i hi j hj => ?_⟩, fun i hi => ?_⟩
    · -- the groups own different things, and what is new for one is not known to the other
      rintro rfl
      rcases hfrom₁ i hi with hi | ⟨hle, hlt⟩ <;> rcases hfrom₂ i hj with hj | hle'
      · exact hdisjoint i hi i hj rfl
      · exact Nat.not_lt.mpr (Nat.le_trans hsize hle') (hknown i (by simp [hi]))
      · exact Nat.not_lt.mpr hle (hknown i (by simp [hj]))
      · exact Nat.not_lt.mpr hle' hlt
    · rcases List.mem_append.mp hi with hi | hi
      · exact (hfrom₁ i hi).imp (fun hi => by simp [hi]) (·.1)
      · exact (hfrom₂ i hi).imp (fun hi => by simp [hi]) (Nat.le_trans hsize)

/-- Positions that are all settled need no null. -/
theorem fillSlots_settled {null? : Option ValueId} {positions : List Nat}
    (hsettled : ∀ k ∈ positions, settled.lookup k ≠ none)
    (h : Pass.fillSlots t settled null? positions s = .ok (acquired, s')) :
    s' = s ∧ acquired.map some = positions.map fun k => settled.lookup k := by
  induction positions generalizing s null? acquired with
  | nil =>
    cases h
    exact ⟨rfl, rfl⟩
  | cons position rest ih =>
    obtain ⟨i, others, mid, shared?, rfl, hothers, hfirst⟩ := Pass.fillSlots_cons h
    rcases hfirst with ⟨hlookup, -, rfl⟩ | ⟨hnone, -⟩
    · obtain ⟨rfl, hrest⟩ := ih (fun k hk => hsettled k (by simp [hk])) hothers
      exact ⟨rfl, by simp [hrest, hlookup]⟩
    · exact absurd hnone (hsettled position (by simp))

/-- What does not escape is taken in by a retain of its own. -/
theorem releaseUnescaped_takes {indicators : List ValueId} {u : Unit}
    (h : Pass.releaseUnescaped settings t escaping indicators s = .ok (u, s'))
    (hi : i ∈ indicators) (hnone : ∀ v ∈ escaping, s.aliases.same v i = false) :
    ∃ x d, s.routine.op? x = none ∧ s'.routine.op? x = some d ∧ d.kind = .retain 0 ∧
      d.operands = [i] := by
  induction indicators generalizing s with
  | nil => cases hi
  | cons j rest ih =>
    rcases Pass.releaseUnescaped_cons h with
      ⟨hescapes, hrest⟩ | ⟨-, anchor, x, mid, -, hretain, hrest⟩
    · rcases List.mem_cons.mp hi with rfl | hi
      · obtain ⟨v, hv, hsame⟩ := hescapes
        rw [hnone v hv] at hsame
        cases hsame
      · exact ih hrest hi hnone
    · obtain ⟨hemit, haliases⟩ := Pass.retain_eq_ok hretain
      obtain ⟨rfl, b, pre, post, -, hem⟩ := Emit.operation_emitted hemit
      rcases List.mem_cons.mp hi with rfl | hi
      · have hpairs : Pairs (fun _ => True) (fun _ => True) mid s' :=
          releaseUnescaped_pairs (by simp) hrest
        exact ⟨_, _, op?_freshOp _, hpairs.op?_of_some hem.op?_fresh, rfl, rfl⟩
      · obtain ⟨y, d, hy, hd⟩ := ih hrest hi (by rwa [haliases])
        refine ⟨y, d, ?_, hd⟩
        by_contra hne
        exact hem.kept.op?_ne_none hne hy

/-! ## Slots -/

theorem mem_planEscapes_iff {c : AliasClasses} : group ∈ c.planEscapes escaping owned ↔
      ∃ v ∈ escaping, group = c.escapeGroup escaping owned (c.leader v) := by
  simp only [AliasClasses.planEscapes, List.mem_map, AliasClasses.mem_leaders]
  constructor
  · rintro ⟨l, ⟨v, hv, rfl⟩, rfl⟩
    exact ⟨v, hv, rfl⟩
  · rintro ⟨v, hv, rfl⟩
    exact ⟨_, ⟨v, hv, rfl⟩, rfl⟩

/-- A value that is settled in the group of its class leaves with what it is settled with. -/
theorem EscapeGroup.Settles.leaves {l : ValueId}
    (h : (s.aliases.escapeGroup escaping owned l).Settles s s' k v i)
    (hv : escaping[k]? = some w) : Leaves s s' escaping owned w i := by
  have hmem : (k, v) ∈ (s.aliases.escapeGroup escaping owned l).escaping := by
    cases h with
    | directly hescaping _ => simp [hescaping]
    | retained hmem _ _ _ _ _ => exact hmem
  obtain ⟨hv', rfl⟩ := (s.aliases.mem_escaping_escapeGroup escaping owned).mp hmem
  obtain rfl := Option.mem_unique hv' hv
  -- the owned indicators of the group are those in the class of the value
  have howned : ∀ j, j ∈ (s.aliases.escapeGroup escaping owned (s.aliases.leader v)).owned ↔
      j ∈ owned ∧ s.aliases.same v j = true := by
    intro j
    simp [AliasClasses.escapeGroup, AliasClasses.same, ValueSet.mem_def, eq_comm]
  cases h with
  | directly hescaping hone =>
    have hi := (howned i).mp (by simp [hone])
    refine .directly hi.1 hi.2 (fun j hj hsame => ?_) ?_
    · simpa [hone] using (howned j).mpr ⟨hj, hsame⟩
    · have hfilter := s.aliases.escaping_escapeGroup escaping owned (l := s.aliases.leader v)
      rw [hescaping] at hfilter
      rw [show s.aliases.same v = fun w => decide (s.aliases.leader w = s.aliases.leader v) from
        funext fun w => by simp [AliasClasses.same, eq_comm]]
      exact hfilter.symm
  | retained _ hnone hd hkind hoperands hpair =>
    refine .retained hnone hd hkind hpair fun j hj hsame => ?_
    rw [hoperands, List.drop_left' (by simp)]
    exact (howned j).mpr ⟨hj, hsame⟩

section Closing

variable (hb : Booked f s.routine) (howned : ∀ i ∈ owned, i.index < s.routine.values.size)
variable (h : Pass.closeBlock settings t owned s = .ok (acquired, s'))
include hb howned h

/-- Once its groups are settled, each position has an indicator, and no two share one. -/
theorem closeBlock_settled : ∃ escaping mid settled,
    escaping = (s.routine.operandsOf t).filter s.routine.holdsBuffer ∧
    Pass.releaseUnescaped settings t escaping owned.toList s = .ok ((), mid) ∧
    Pass.settleGroups t (s.aliases.planEscapes escaping owned) mid = .ok (settled, s') ∧
    settled.map (·.1) = (s.aliases.planEscapes escaping owned).flatMap
      (fun group => group.escaping.map (·.1)) ∧ (settled.map (·.2)).Nodup ∧
    acquired.map some = (List.range escaping.length).map fun k => settled.lookup k := by
  obtain ⟨escaping, mid₁, settled, mid₂, hsent, hrelease, hsettle, h⟩ := Pass.closeBlock_eq_ok h
  obtain ⟨hledger₁, haliases⟩ := releaseUnescaped_ledger hb howned hrelease
  rw [haliases] at hsettle
  have hgroups : ∀ i ∈ (s.aliases.planEscapes escaping owned).flatMap (·.owned),
      i.index < mid₁.routine.values.size := by
    intro i hi
    obtain ⟨group, hg, hi⟩ := List.mem_flatMap.mp hi
    exact Nat.lt_of_lt_of_le (howned i ((Pass.mem_planEscapes hg).2 i hi)) hledger₁.size_values
  have hbuffers : ∀ group ∈ s.aliases.planEscapes escaping owned, ∀ e ∈ group.escaping,
      mid₁.routine.holdsBuffer e.2 = true := by
    intro group hg e he
    have hmem := (Pass.mem_planEscapes hg).1 e he
    rw [hsent] at hmem
    exact hledger₁.kept.holdsBuffer (List.mem_filter.mp hmem).2
  obtain ⟨-, hkeys, -⟩ := settleGroups_ledger hledger₁.booked' hbuffers
    (fun group hg i hi => hgroups i (List.mem_flatMap.mpr ⟨group, hg, hi⟩)) hsettle
  have hnodup := (settleGroups_nodup
    (((s.aliases.perm_planEscapes escaping owned).nodup_iff.mpr owned.nodup_toList).sublist
      (List.sublist_append_right _ _)) hgroups hsettle).1
  -- every position is that of a value in the group of its class
  have hcover : ∀ (k : Nat) v, escaping[k]? = some v → k ∈ settled.map (·.1) := by
    intro k v hv
    rw [hkeys]
    exact List.mem_flatMap.mpr ⟨_, mem_planEscapes_iff.mpr ⟨v, List.mem_of_getElem? hv, rfl⟩,
      (s.aliases.mem_positions escaping owned).mpr ⟨v, hv, rfl⟩⟩
  have hlookup : ∀ k ∈ List.range escaping.length, settled.lookup k ≠ none := by
    intro k hk hnone
    have hv := List.getElem?_eq_getElem (List.mem_range.mp hk)
    obtain ⟨e, he, rfl⟩ := List.mem_map.mp (hcover k _ hv)
    simpa using List.lookup_eq_none_iff.mp hnone e he
  obtain ⟨rfl, hfilled⟩ := fillSlots_settled hlookup h
  exact ⟨escaping, mid₁, settled, hsent, hrelease, hsettle, hkeys, hnodup, hfilled⟩

/-- Each buffer that escapes from a block has a slot with an indicator, and no two share one. -/
theorem closeBlock_leaves :
    acquired.length = ((s.routine.operandsOf t).filter s.routine.holdsBuffer).length ∧
      acquired.Nodup ∧
      ∀ (k : Nat) v, ((s.routine.operandsOf t).filter s.routine.holdsBuffer)[k]? = some v →
        ∃ i, acquired[k]? = some i ∧
          Leaves s s' ((s.routine.operandsOf t).filter s.routine.holdsBuffer) owned v i := by
  obtain ⟨escaping, mid₁, settled, hsent, hrelease, hsettle, hkeys, hnodup, hfilled⟩ :=
    closeBlock_settled hb howned h
  rw [← hsent]
  have hpairs : Pairs (fun _ => True) (fun _ => True) s mid₁ :=
    releaseUnescaped_pairs (by simp) hrelease
  refine ⟨by simpa using congrArg List.length hfilled, ?_, fun k v hv => ?_⟩
  · -- the slots hold what is settled, in another order
    have hperm := perm_filterMap_lookup (hkeys ▸ s.aliases.nodup_positions escaping owned)
      List.nodup_range fun k hk => List.mem_range.mpr
        (s.aliases.lt_of_mem_positions escaping owned (hkeys ▸ hk))
    have hacquired : ((List.range escaping.length).filterMap fun k => settled.lookup k) =
        acquired := by
      have hid := congrArg (List.filterMap id) hfilled
      rw [List.filterMap_map, List.filterMap_map] at hid
      exact hid.symm.trans List.filterMap_some
    exact hacquired ▸ hperm.nodup_iff.mpr hnodup
  · have hk := (List.getElem?_eq_some_iff.mp hv).1
    have hslot : (acquired[k]?).map some = some (settled.lookup k) := by
      rw [← List.getElem?_map, hfilled, List.getElem?_map, List.getElem?_range hk]
      rfl
    obtain ⟨i, hi, hsettled⟩ := Option.map_eq_some_iff.mp hslot
    -- what is in a slot was settled with the group of the value
    obtain ⟨l₁, l₂, hlist, -⟩ := List.lookup_eq_some_iff.mp hsettled.symm
    obtain ⟨group, hgroup, w, hsettles⟩ := settleGroups_settles hsettle (k := k) (i := i)
      (by simp [hlist])
    obtain ⟨u, hu, rfl⟩ := mem_planEscapes_iff.mp hgroup
    exact ⟨i, hi, (hsettles.mono hpairs (.refl _)).leaves hv⟩

/-- What a block owns leaves in a slot, or is taken in by a retain. -/
theorem closeBlock_takes (hi : i ∈ owned) :
    i ∈ acquired ∨ ∃ x d n, s.routine.op? x = none ∧ s'.routine.op? x = some d ∧
      d.kind = .retain n ∧ i ∈ d.operands.drop n := by
  obtain ⟨-, -, hleaves⟩ := closeBlock_leaves hb howned h
  obtain ⟨escaping, mid₁, settled, mid₂, hsent, hrelease, hsettle, h⟩ := Pass.closeBlock_eq_ok h
  rw [← hsent] at hleaves
  by_cases hescapes : ∃ v ∈ escaping, s.aliases.same v i = true
  · obtain ⟨v, hv, hsame⟩ := hescapes
    obtain ⟨k, hk⟩ := List.mem_iff_getElem?.mp hv
    obtain ⟨j, hj, hleaves⟩ := hleaves k v hk
    cases hleaves with
    | directly _ _ honly _ =>
      rw [honly i hi hsame]
      exact .inl (List.mem_of_getElem? hj)
    | retained hnone hd hkind _ htakes => exact .inr ⟨_, _, _, hnone, hd, hkind, htakes i hi hsame⟩
  · have hnone : ∀ v ∈ escaping, s.aliases.same v i = false := by simpa using hescapes
    obtain ⟨x, d, hx, hd, hkind, hoperands⟩ := releaseUnescaped_takes hrelease hi hnone
    have hpairs : Pairs (fun _ => True) (fun _ => True) mid₁ s' :=
      (settleGroups_pairs (by simp) (by simp) hsettle).trans (fillSlots_pairs h)
    exact .inr ⟨x, d, 0, hx, hpairs.op?_of_some hd, hkind, by simp [hoperands]⟩

end Closing

end BufferOwnership
