import BufferOwnership.Proofs.Ledger
import Mathlib.Data.List.Perm.Basic

/-!
# Opening and closing a block

A block that opens leaves the indicators of its arguments. A block that closes consumes those that
no escaping value aliases, and leaves one for each escaping value: the owned indicators are divided
into those and the groups of the escaping values, and each group leaves as many indicators as there
are values in it. What it leaves for a value without a group is a null.
-/

namespace BufferOwnership

open Routine

variable {f : Routine} {s s' : Session} {i : ValueId} {x t : OpId} {b : BlockId}

/-! ## Sets -/

namespace ValueSet

variable {a c : ValueSet} {vs : List ValueId}

@[simp] theorem toList_empty : (∅ : ValueSet).toList = [] := rfl

theorem nodup_toList (a : ValueSet) : a.toList.Nodup := by
  refine a.ascending.imp fun {v w} hlt => ?_
  rintro rfl
  exact Nat.lt_irrefl v.index hlt

theorem count_toList (a : ValueSet) (v : ValueId) :
    a.toList.count v = if v ∈ a then 1 else 0 := by
  split
  · rename_i hv
    exact List.count_eq_one_of_mem a.nodup_toList hv
  · rename_i hv
    exact List.count_eq_zero.mpr hv

theorem perm_cons_erase (hv : v ∈ a) : a.toList.Perm (v :: (a.erase v).toList) := by
  refine (List.perm_ext_iff_of_nodup a.nodup_toList ?_).mpr fun w => ?_
  · refine List.nodup_cons.mpr ⟨?_, (a.erase v).nodup_toList⟩
    exact fun hmem => (mem_erase.mp hmem).2 rfl
  · rw [List.mem_cons]
    show w ∈ a ↔ w = v ∨ w ∈ a.erase v
    rw [mem_erase]
    by_cases hw : w = v
    · simp [hw, hv]
    · simp [hw]

theorem count_insertMany (hnodup : vs.Nodup) (hnew : ∀ v ∈ vs, v ∉ a) (v : ValueId) :
    (a.insertMany vs).toList.count v = (vs ++ a.toList).count v := by
  rw [count_toList, List.count_append, count_toList]
  by_cases hv : v ∈ vs
  · simp [hv, hnew v hv, List.count_eq_one_of_mem hnodup hv]
  · simp [hv, List.count_eq_zero.mpr hv]

theorem count_insert (hi : i ∉ a) (v : ValueId) :
    (a.insert i).toList.count v = ([i] ++ a.toList).count v :=
  count_insertMany (List.nodup_singleton i) (by simpa using hi) v

theorem count_diff (hsub : ∀ v ∈ c, v ∈ a) (v : ValueId) :
    (c.toList ++ (a.diff c).toList).count v = a.toList.count v := by
  rw [List.count_append, count_toList, count_toList, count_toList]
  by_cases hv : v ∈ c
  · simp [hv, hsub v hv]
  · simp [hv]

end ValueSet

/-! ## Groups -/

section Lists

variable {α κ : Type} [DecidableEq κ]
variable {l : List (κ × α)}

/-- A list is made up of what has none of some keys and of the groups of those keys. -/
theorem perm_filter_flatMap (key : α → κ) (l : List α) {keys : List κ} (hnodup : keys.Nodup) :
    (l.filter (fun x => key x ∉ keys) ++
      keys.flatMap fun k => l.filter fun x => key x = k).Perm l := by
  induction keys with
  | nil => simp
  | cons k keys ih =>
    obtain ⟨hk, hnodup⟩ := List.nodup_cons.mp hnodup
    -- what has none of the other keys has this one or none at all
    have hin : (l.filter fun x => key x ∉ keys).filter (fun x => key x = k) =
        l.filter fun x => key x = k := by
      rw [List.filter_filter]
      refine List.filter_congr fun x _ => ?_
      by_cases hx : key x = k
      · simp [hx, hk]
      · simp [hx]
    have hout : (l.filter fun x => key x ∉ keys).filter (fun x => !decide (key x = k)) =
        l.filter fun x => key x ∉ k :: keys := by
      rw [List.filter_filter]
      refine List.filter_congr fun x _ => ?_
      simp [not_or]
    have hsplit := List.filter_append_perm (fun x => decide (key x = k))
      (l.filter fun x => key x ∉ keys)
    rw [hin, hout] at hsplit
    rw [List.flatMap_cons, ← List.append_assoc]
    exact ((List.perm_append_comm.trans hsplit).append_right _).trans (ih hnodup)

theorem nodup_eraseDups (l : List κ) : l.eraseDups.Nodup := by
  cases l with
  | nil => simp
  | cons k l =>
    rw [List.eraseDups_cons, List.nodup_cons]
    exact ⟨by simp, nodup_eraseDups _⟩
termination_by l.length
decreasing_by exact Nat.lt_succ_of_le (List.length_filter_le _ _)

/-- Looking all keys up gives what the list pairs with them. -/
theorem filterMap_lookup_keys (hnodup : (l.map (·.1)).Nodup) :
    ((l.map (·.1)).filterMap fun k => l.lookup k) = l.map (·.2) := by
  induction l with
  | nil => rfl
  | cons e l ih =>
    obtain ⟨k, a⟩ := e
    rw [List.map_cons, List.nodup_cons] at hnodup
    obtain ⟨hk, hnodup⟩ := hnodup
    have hrest : ∀ k' ∈ l.map (·.1), ((k, a) :: l).lookup k' = l.lookup k' := by
      intro k' hk'
      have hne : k' ≠ k := fun he => hk (he ▸ hk')
      rw [List.lookup_cons, beq_false_of_ne hne]
    have hhead : ((k, a) :: l).lookup k = some a := by simp
    simp only [List.map_cons, List.filterMap_cons, hhead]
    rw [List.filterMap_congr hrest, ih hnodup]

/-- So does looking up all of some positions, if the keys are among them. -/
theorem perm_filterMap_lookup {positions : List κ} (hnodup : (l.map (·.1)).Nodup)
    (hpositions : positions.Nodup) (hsub : ∀ k ∈ l.map (·.1), k ∈ positions) :
    (positions.filterMap fun k => l.lookup k).Perm (l.map (·.2)) := by
  have hnone : ∀ k, k ∉ l.map (·.1) → l.lookup k = none := by
    intro k hk
    refine List.lookup_eq_none_iff.mpr fun e he => ?_
    simpa using fun hke : k = e.1 => hk (hke ▸ List.mem_map_of_mem he)
  have hkeys : (positions.filter fun k => k ∈ l.map (·.1)).Perm (l.map (·.1)) := by
    refine (List.perm_ext_iff_of_nodup (hpositions.filter _) hnodup).mpr fun k => ?_
    simp only [List.mem_filter, decide_eq_true_eq, and_iff_right_iff_imp]
    exact hsub k
  have hfilter : (positions.filterMap fun k => l.lookup k) =
      (positions.filter fun k => k ∈ l.map (·.1)).filterMap fun k => l.lookup k := by
    rw [List.filterMap_filter]
    refine List.filterMap_congr fun k _ => ?_
    by_cases hk : k ∈ l.map (·.1)
    · simp only [hk, decide_true, if_true]
    · simp only [hk, decide_false, hnone k hk, Bool.false_eq_true, if_false]
  rw [hfilter, ← filterMap_lookup_keys hnodup]
  exact hkeys.filterMap _

end Lists

namespace AliasClasses

variable (c : AliasClasses) (escaping : List ValueId) (owned : ValueSet)
variable {l : ValueId} {k : Nat}

theorem nodup_leaders : (c.leaders escaping).Nodup :=
  nodup_eraseDups _

theorem mem_leaders : l ∈ c.leaders escaping ↔ ∃ v ∈ escaping, c.leader v = l := by
  simp [leaders]

/-- The owned indicators are those that nothing escaping aliases and those of the groups. -/
theorem perm_planEscapes :
    (owned.toList.filter (fun i => !escaping.any fun v => c.same v i) ++
      (c.planEscapes escaping owned).flatMap (·.owned)).Perm owned.toList := by
  have hunescaped : (owned.toList.filter fun i => !escaping.any fun v => c.same v i) =
      owned.toList.filter fun i => c.leader i ∉ c.leaders escaping := by
    refine List.filter_congr fun i _ => ?_
    rw [Bool.eq_iff_iff]
    simp [mem_leaders, same]
  rw [hunescaped, planEscapes, List.flatMap_map]
  exact perm_filter_flatMap c.leader owned.toList (c.nodup_leaders escaping)

theorem mem_positions :
    k ∈ (c.escapeGroup escaping owned l).escaping.map (·.1) ↔
      ∃ v, escaping[k]? = some v ∧ c.leader v = l := by
  simp only [escapeGroup, List.map_filterMap, List.mem_filterMap, Prod.exists,
    List.mk_mem_zipIdx_iff_getElem?]
  constructor
  · rintro ⟨v, k', hv, hk⟩
    split at hk
    · rename_i hl
      cases hk
      exact ⟨v, hv, hl⟩
    · cases hk
  · rintro ⟨v, hv, hl⟩
    exact ⟨v, k, hv, by simp [hl]⟩

/-- Each position is in one group at most, and once. -/
theorem nodup_positions :
    ((c.planEscapes escaping owned).flatMap fun group => group.escaping.map (·.1)).Nodup := by
  rw [planEscapes, List.flatMap_map]
  refine List.nodup_flatMap.mpr ⟨fun l _ => ?_, ?_⟩
  · have hindices : escaping.zipIdx.Pairwise fun e e' => e.2 ≠ e'.2 := by
      rw [← List.pairwise_map (f := Prod.snd), List.zipIdx_map_snd]
      exact List.nodup_range'
    simp only [escapeGroup, List.map_filterMap]
    refine hindices.filterMap _ fun e e' hne k hk k' hk' => ?_
    obtain ⟨w, hw, rfl⟩ := Option.map_eq_some_iff.mp hk
    obtain ⟨w', hw', rfl⟩ := Option.map_eq_some_iff.mp hk'
    obtain ⟨-, hw⟩ := Option.ite_none_right_eq_some.mp hw
    obtain ⟨-, hw'⟩ := Option.ite_none_right_eq_some.mp hw'
    rw [← Option.some.inj hw, ← Option.some.inj hw']
    exact hne
  · refine (c.nodup_leaders escaping).imp fun {l l'} hne k hk hk' => hne ?_
    obtain ⟨v, hv, rfl⟩ := (c.mem_positions escaping owned).mp hk
    obtain ⟨v', hv', rfl⟩ := (c.mem_positions escaping owned).mp hk'
    rw [Option.mem_unique hv hv']

theorem lt_of_mem_positions
    (hk : k ∈ (c.planEscapes escaping owned).flatMap fun group => group.escaping.map (·.1)) :
    k < escaping.length := by
  rw [planEscapes, List.flatMap_map] at hk
  obtain ⟨l, -, hk⟩ := List.mem_flatMap.mp hk
  obtain ⟨v, hv, -⟩ := (c.mem_positions escaping owned).mp hk
  exact (List.getElem?_eq_some_iff.mp hv).1

end AliasClasses

/-! ## Opening a block -/

theorem ownArguments_ledger {args : List ValueId} {owned owned' : ValueSet}
    (hb : Booked f s.routine) (howned : ∀ i ∈ owned, i.index < s.routine.values.size)
    (h : Pass.ownArguments b args owned s = .ok (owned', s')) :
    Ledger f s.routine owned.toList s'.routine owned'.toList True ∧
      ∀ i ∈ owned', i ∈ owned ∨
        (Introduced f s'.routine i ∧ s.routine.values.size ≤ i.index) := by
  induction args generalizing s owned with
  | nil =>
    cases h
    exact ⟨.refl hb _, fun i hi => .inl hi⟩
  | cons arg rest ih =>
    obtain ⟨i, s₁, hedit, h⟩ := Pass.bind_eq_ok.mp h
    obtain ⟨r₁, hadd, rfl⟩ := Pass.edit_eq_ok.mp hedit
    obtain ⟨_, s₂, hrec, h⟩ := Pass.bind_eq_ok.mp h
    obtain ⟨hroutine, -⟩ := Pass.modifyAliases_eq_ok hrec
    obtain ⟨hledger, hi⟩ := hb.addBlockArg hadd
    have hfresh : s.routine.values.size ≤ i.index := by rw [addBlockArg_arg hadd]
    have hnot : i ∉ owned := fun hmem => Nat.not_lt.mpr hfresh (howned i hmem)
    -- the new argument joins what is owned
    have hfirst : Ledger f s.routine owned.toList s₂.routine (owned.insert i).toList True := by
      rw [hroutine]
      exact (hledger.frame _ howned).congr (fun _ _ => rfl) fun v _ => ValueSet.count_insert hnot v
    have hknown : ∀ j ∈ owned.insert i, j.index < s₂.routine.values.size := by
      intro j hj
      rcases ValueSet.mem_insert.mp hj with rfl | hj
      · exact hroutine ▸ hi.known hledger.booked'.linked
      · exact Nat.lt_of_lt_of_le (howned j hj) hfirst.size_values
    obtain ⟨hrest, howned'⟩ := ih hfirst.booked' hknown h
    refine ⟨hfirst.andThen hrest, fun j hj => ?_⟩
    rcases howned' j hj with hj | ⟨hj, hge⟩
    · rcases ValueSet.mem_insert.mp hj with rfl | hj
      · have hi : Introduced f s₂.routine j := hroutine ▸ hi
        exact .inr ⟨hrest.kept.introduced hrest.booked.linked hi, hfresh⟩
      · exact .inl hj
    · exact .inr ⟨hj, Nat.le_trans hfirst.size_values hge⟩

theorem openBlock_ledger {ownsInputs : Bool} {owned : ValueSet} (hb : Booked f s.routine)
    (h : Pass.openBlock b ownsInputs s = .ok (owned, s')) :
    Ledger f s.routine [] s'.routine owned.toList True ∧
      ∀ i ∈ owned, Introduced f s'.routine i ∧ s.routine.values.size ≤ i.index := by
  unfold Pass.openBlock at h
  split at h
  · obtain ⟨args, -, h⟩ := Pass.ask_bind_eq_ok.mp h
    obtain ⟨hledger, howned⟩ := ownArguments_ledger hb (fun i hi => absurd hi (by simp)) h
    exact ⟨hledger, fun i hi => (howned i hi).resolve_left (by simp)⟩
  · cases h
    exact ⟨.refl hb [], fun i hi => absurd hi (by simp)⟩

/-! ## Closing a block -/

section Closing

variable {settings : Settings} {escaping indicators acquired : List ValueId}
variable {settled : List (Nat × ValueId)}

section

variable (hb : Booked f s.routine)
include hb

theorem retain_ledger {point : InsertPoint} {retained owned : List ValueId}
    (hretained : ∀ v ∈ retained, s.routine.holdsBuffer v = true)
    (howned : ∀ i ∈ owned, i.index < s.routine.values.size)
    (h : Pass.retain point retained owned s = .ok (x, s')) :
    Ledger f s.routine owned s'.routine (s'.routine.resultsOf x) True ∧
      (s'.routine.resultsOf x).length = retained.length := by
  obtain ⟨hemit, -⟩ := Pass.retain_eq_ok h
  have hledger := hb.emit retained owned hemit
    (fun v hv => hb.not_introduced_of_buffer (hretained v hv))
    (fun v hv => by
      rcases List.mem_append.mp hv with hv | hv
      · obtain ⟨V, hV⟩ : ∃ V, s.routine.value? v = some V := by
          cases hvalue : s.routine.value? v with
          | none => simpa [holdsBuffer, ty?, hvalue] using hretained v hv
          | some V => exact ⟨V, rfl⟩
        exact lt_of_value? hV
      · exact howned v hv)
    (by simp)
  obtain ⟨rfl, c, pre, post, -, hem⟩ := Emit.operation_emitted hemit
  rw [resultsOf_of hem.op?_fresh]
  exact ⟨hledger, by simp⟩

theorem releaseUnescaped_ledger (hindicators : ∀ i ∈ indicators, i.index < s.routine.values.size)
    {u : Unit} (h : Pass.releaseUnescaped settings t escaping indicators s = .ok (u, s')) :
    Ledger f s.routine
        (indicators.filter fun i => !escaping.any fun v => s.aliases.same v i) s'.routine [] True ∧
      s'.aliases = s.aliases := by
  induction indicators generalizing s with
  | nil =>
    cases h
    exact ⟨.refl hb [], rfl⟩
  | cons i rest ih =>
    rcases Pass.releaseUnescaped_cons h with
      ⟨hescapes, h⟩ | ⟨hescapes, anchor, y, s₁, -, hretain, h⟩
    · obtain ⟨hrest, haliases⟩ := ih hb (fun j hj => hindicators j (by simp [hj])) h
      have hany : (escaping.any fun v => s.aliases.same v i) = true := List.any_eq_true.mpr hescapes
      exact ⟨by simpa [hany] using hrest, haliases⟩
    · have hany : (escaping.any fun v => s.aliases.same v i) = false := by simpa using hescapes
      have haliases₁ := (Pass.retain_eq_ok hretain).2
      obtain ⟨hfirst, hlen⟩ := retain_ledger hb (by simp)
        (fun j hj => hindicators j (by simpa using Or.inl (List.mem_singleton.mp hj))) hretain
      rw [List.eq_nil_of_length_eq_zero hlen] at hfirst
      obtain ⟨hrest, haliases⟩ := ih hfirst.booked'
        (fun j hj => Nat.lt_of_lt_of_le (hindicators j (by simp [hj])) hfirst.size_values) h
      rw [haliases₁] at hrest
      refine ⟨?_, haliases.trans haliases₁⟩
      -- the others are there all the while that the first is released
      have hframed := hfirst.frame (rest.filter fun i =>
        !escaping.any fun v => s.aliases.same v i) fun j hj =>
          hindicators j (by simp [(List.mem_filter.mp hj).1])
      simpa [hany] using hframed.andThen hrest

theorem settleGroup_ledger {group : EscapeGroup}
    (hescaping : ∀ e ∈ group.escaping, s.routine.holdsBuffer e.2 = true)
    (howned : ∀ i ∈ group.owned, i.index < s.routine.values.size)
    (h : Pass.settleGroup t group s = .ok (settled, s')) :
    Ledger f s.routine group.owned s'.routine (settled.map (·.2)) True ∧
      settled.map (·.1) = group.escaping.map (·.1) ∧
      ∀ e ∈ settled, e.2.index < s'.routine.values.size := by
  rcases Pass.settleGroup_eq_ok h with ⟨hdirect, rfl, rfl⟩ | ⟨y, s₁, hretain, hroutine, -, rfl⟩
  · simp only [EscapeGroup.isDirect, Bool.and_eq_true, decide_eq_true_eq] at hdirect
    have hlen : (group.escaping.map (·.1)).length = group.owned.length := by
      rw [List.length_map, hdirect.1, hdirect.2]
    rw [List.map_snd_zip hlen.ge, List.map_fst_zip hlen.le]
    exact ⟨.refl hb _, rfl, fun e he => howned e.2 (List.of_mem_zip he).2⟩
  · obtain ⟨hledger, hlen⟩ := retain_ledger hb
      (by simpa using fun v k hv => hescaping (k, v) hv) howned hretain
    rw [List.length_map] at hlen
    rw [List.map_snd_zip (by simp [hlen]), List.map_fst_zip (by simp [hlen]), hroutine]
    refine ⟨hledger, rfl, fun e he => ?_⟩
    exact hledger.booked'.linked.result_known (List.of_mem_zip he).2

theorem settleGroups_ledger {groups : List EscapeGroup}
    (hescaping : ∀ group ∈ groups, ∀ e ∈ group.escaping, s.routine.holdsBuffer e.2 = true)
    (howned : ∀ group ∈ groups, ∀ i ∈ group.owned, i.index < s.routine.values.size)
    (h : Pass.settleGroups t groups s = .ok (settled, s')) :
    Ledger f s.routine (groups.flatMap (·.owned)) s'.routine (settled.map (·.2)) True ∧
      settled.map (·.1) = (groups.flatMap fun group => group.escaping.map (·.1)) ∧
      ∀ e ∈ settled, e.2.index < s'.routine.values.size := by
  induction groups generalizing s settled with
  | nil =>
    cases h
    exact ⟨.refl hb [], rfl, by simp⟩
  | cons group rest ih =>
    obtain ⟨first, others, s₁, rfl, hfirst, hothers⟩ := Pass.settleGroups_cons h
    obtain ⟨hledger₁, hkeys₁, hknown₁⟩ := settleGroup_ledger hb (hescaping group (by simp))
      (howned group (by simp)) hfirst
    obtain ⟨hledger₂, hkeys₂, hknown₂⟩ := ih hledger₁.booked'
      (fun g hg e he => hledger₁.kept.holdsBuffer (hescaping g (by simp [hg]) e he))
      (fun g hg i hi =>
        Nat.lt_of_lt_of_le (howned g (by simp [hg]) i hi) hledger₁.size_values) hothers
    refine ⟨?_, by simp [hkeys₁, hkeys₂], fun e he => ?_⟩
    · -- the indicators of the other groups pass by the first, and what it leaves by the others
      have hframed₁ := hledger₁.frame (rest.flatMap (·.owned)) fun i hi => by
        obtain ⟨g, hg, hi⟩ := List.mem_flatMap.mp hi
        exact howned g (by simp [hg]) i hi
      have hframed₂ := hledger₂.frame_left (first.map (·.2)) fun i hi => by
        obtain ⟨e, he, rfl⟩ := List.mem_map.mp hi
        exact hknown₁ e he
      rw [List.flatMap_cons, List.map_append]
      exact hframed₁.andThen hframed₂
    · rcases List.mem_append.mp he with he | he
      · exact Nat.lt_of_lt_of_le (hknown₁ e he) hledger₂.size_values
      · exact hknown₂ e he

theorem fillSlots_ledger {null? : Option ValueId} {positions : List Nat}
    (hnull : ∀ i, null? = some i → ¬ Introduced f s.routine i ∧ i.index < s.routine.values.size)
    (h : Pass.fillSlots t settled null? positions s = .ok (acquired, s')) :
    Ledger f s.routine [] s'.routine [] True ∧
      ∀ v, Introduced f s'.routine v →
        acquired.count v = (positions.filterMap fun k => settled.lookup k).count v := by
  induction positions generalizing s null? acquired with
  | nil =>
    cases h
    exact ⟨.refl hb [], fun _ _ => rfl⟩
  | cons position rest ih =>
    obtain ⟨i, others, s₁, shared?, rfl, hothers, hfirst⟩ := Pass.fillSlots_cons h
    rcases hfirst with ⟨hlookup, rfl, rfl⟩ | ⟨hlookup, rfl, hfirst⟩
    · obtain ⟨hledger, hcount⟩ := ih hb hnull hothers
      refine ⟨hledger, fun v hv => ?_⟩
      simp only [List.filterMap_cons, hlookup]
      rw [List.count_cons, List.count_cons, hcount v hv]
    · -- a shared null counts for nothing
      have hshared : Booked f s₁.routine → ¬ Introduced f s₁.routine i →
          i.index < s₁.routine.values.size →
          Ledger f s₁.routine [] s'.routine [] True ∧ ∀ v, Introduced f s'.routine v →
            (i :: others).count v =
              ((position :: rest).filterMap fun k => settled.lookup k).count v := by
        intro hb₁ hnot hknown
        obtain ⟨hledger, hcount⟩ := ih hb₁ (by simpa using ⟨hnot, hknown⟩) hothers
        refine ⟨hledger, fun v hv => ?_⟩
        have hne : i ≠ v := by
          rintro rfl
          exact hnot (hledger.kept.introduced_of_known hledger.booked.linked
            hledger.booked'.linked hknown hv)
        simp only [List.filterMap_cons, hlookup]
        rw [List.count_cons_of_ne hne, hcount v hv]
      rcases hfirst with ⟨rfl, rfl⟩ | hemit
      · obtain ⟨hnot, hknown⟩ := hnull i rfl
        exact hshared hb hnot hknown
      · obtain ⟨rfl, -, y, hemit⟩ := Pass.null_eq_ok hemit
        obtain ⟨hledger₁, hnot⟩ := hb.emit_null hemit
        have hknown : s.routine.values.size < s₁.routine.values.size := by
          obtain ⟨-, c, pre, post, -, hem⟩ := Emit.operation_emitted hemit
          simp [hem.size_values]
        obtain ⟨hledger₂, hcount⟩ := hshared hledger₁.booked' hnot hknown
        exact ⟨hledger₁.andThen hledger₂, hcount⟩

/-- A block that closes consumes what it owns, but for an indicator for each escaping value. -/
theorem closeBlock_ledger {owned : ValueSet} (howned : ∀ i ∈ owned, i.index < s.routine.values.size)
    (h : Pass.closeBlock settings t owned s = .ok (acquired, s')) :
    Ledger f s.routine owned.toList s'.routine acquired True := by
  obtain ⟨escaping, s₁, settled, s₂, hsent, hrelease, hsettle, h⟩ := Pass.closeBlock_eq_ok h
  have hescaping : ∀ v ∈ escaping, s.routine.holdsBuffer v = true := fun v hv =>
    (List.mem_filter.mp (hsent ▸ hv)).2
  obtain ⟨hledger₁, haliases⟩ := releaseUnescaped_ledger hb howned hrelease
  rw [haliases] at hsettle
  have hgroups : ∀ group ∈ s.aliases.planEscapes escaping owned, ∀ i ∈ group.owned,
      i.index < s.routine.values.size := fun group hg i hi =>
    howned i ((Pass.mem_planEscapes hg).2 i hi)
  obtain ⟨hledger₂, hkeys, hknown⟩ := settleGroups_ledger hledger₁.booked'
    (fun group hg e he =>
      hledger₁.kept.holdsBuffer (hescaping e.2 ((Pass.mem_planEscapes hg).1 e he)))
    (fun group hg i hi => Nat.lt_of_lt_of_le (hgroups group hg i hi) hledger₁.size_values) hsettle
  obtain ⟨hledger₃, hcount⟩ := fillSlots_ledger hledger₂.booked' (by simp) h
  -- what is owned is released or in a group
  have hreleased : Ledger f s.routine owned.toList s₁.routine
      ((s.aliases.planEscapes escaping owned).flatMap (·.owned)) True := by
    refine (hledger₁.frame ((s.aliases.planEscapes escaping owned).flatMap (·.owned))
      fun i hi => ?_).congr (fun v _ => ?_) fun v _ => rfl
    · obtain ⟨group, hg, hi⟩ := List.mem_flatMap.mp hi
      exact hgroups group hg i hi
    · exact ((s.aliases.perm_planEscapes escaping owned).count_eq v).symm
  -- what is settled leaves in the slots
  have hfilled : Ledger f s₂.routine (settled.map (·.2)) s'.routine acquired True := by
    refine (hledger₃.frame (settled.map (·.2)) fun i hi => ?_).congr (fun v _ => rfl)
      fun v hv => ?_
    · obtain ⟨e, he, rfl⟩ := List.mem_map.mp hi
      exact hknown e he
    · have hperm : ((List.range escaping.length).filterMap fun k => settled.lookup k).Perm
          (settled.map (·.2)) := by
        apply perm_filterMap_lookup
        · exact hkeys ▸ s.aliases.nodup_positions escaping owned
        · exact List.nodup_range
        · intro k hk
          rw [hkeys] at hk
          exact List.mem_range.mpr (s.aliases.lt_of_mem_positions escaping owned hk)
      rw [hcount v hv, List.nil_append, hperm.count_eq v]
  exact (hreleased.andThen hledger₂).andThen hfilled

end

end Closing

end BufferOwnership
