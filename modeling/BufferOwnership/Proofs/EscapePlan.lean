import BufferOwnership.Proofs.AliasAnswers
import BufferOwnership.Proofs.Slots

/-!
# Escaping values, divided by class

The plan of the escapes divides the escaping values by alias class: every position is in one group,
positions ascend in a group, and groups by their first position. An owned indicator is in the group
of its class, if there is one. `collectEscapes` draws the plan up with questions that change the
tables as they go; no question changes a leader, so the groups come out the same.
-/

namespace BufferOwnership

namespace AliasClasses

variable (c : AliasClasses) (escaping : List ValueId) (owned : ValueSet)

/-! ## One value more -/

theorem leaders_concat (v : ValueId) :
    c.leaders (escaping ++ [v]) =
      if c.leader v ∈ c.leaders escaping then c.leaders escaping
      else c.leaders escaping ++ [c.leader v] := by
  simp only [leaders, List.map_append, List.map_cons, List.map_nil, List.eraseDups_append,
    List.mem_eraseDups]
  by_cases hv : c.leader v ∈ escaping.map c.leader
  · rw [if_pos hv, List.removeAll, List.filter_cons_of_neg (by simpa using hv)]
    simp
  · rw [if_neg hv, List.removeAll, List.filter_cons_of_pos (by simpa using hv)]
    simp [List.eraseDups_cons]

/-- A further value comes last in the group of its class, and into no other. -/
theorem escapeGroup_concat (v l : ValueId) :
    c.escapeGroup (escaping ++ [v]) owned l =
      if l = c.leader v then
        { c.escapeGroup escaping owned l with
          escaping := (c.escapeGroup escaping owned l).escaping ++ [(escaping.length, v)] }
      else c.escapeGroup escaping owned l := by
  by_cases hl : l = c.leader v
  · subst hl
    simp [escapeGroup, List.zipIdx_append]
  · simp [escapeGroup, List.zipIdx_append, hl, Ne.symm hl]

/-- A class from which nothing escapes has nothing in its group yet. -/
theorem escaping_escapeGroup_eq_nil {l : ValueId} (h : l ∉ c.leaders escaping) :
    (c.escapeGroup escaping owned l).escaping = [] := by
  refine List.eq_nil_iff_forall_not_mem.mpr fun ⟨k, v⟩ he => h ?_
  obtain ⟨hv, hl⟩ := (c.mem_escaping_escapeGroup escaping owned).mp he
  exact (c.mem_leaders escaping).mpr ⟨v, List.mem_of_getElem? hv, hl⟩

/-! ## Order -/

/-- Positions ascend in a group. -/
theorem ascending_escapeGroup (l : ValueId) :
    (c.escapeGroup escaping owned l).escaping.Pairwise fun e e' => e.1 < e'.1 := by
  have hindices : escaping.zipIdx.Pairwise fun e e' => e.2 < e'.2 := by
    rw [← List.pairwise_map (f := Prod.snd), List.zipIdx_map_snd]
    exact List.pairwise_lt_range'
  refine hindices.filterMap _ fun e e' hlt p hp p' hp' => ?_
  obtain ⟨-, hp⟩ := Option.ite_none_right_eq_some.mp hp
  obtain ⟨-, hp'⟩ := Option.ite_none_right_eq_some.mp hp'
  rw [← Option.some.inj hp, ← Option.some.inj hp']
  exact hlt

/-- A leader that stands before another has come up before each value of the other. -/
theorem pairwise_leaders :
    (c.leaders escaping).Pairwise fun l l' => ∀ (k' : Nat) v', escaping[k']? = some v' →
      c.leader v' = l' →
        ∃ (k : Nat) (v : ValueId), k < k' ∧ escaping[k]? = some v ∧ c.leader v = l := by
  induction escaping using List.reverseRecOn with
  | nil => simp [leaders]
  | append_singleton escaping v ih =>
    -- whatever leader came up among the earlier values came up before the new one
    have hearlier : ∀ l ∈ c.leaders escaping, ∃ (k : Nat) (v' : ValueId), k < escaping.length ∧
        (escaping ++ [v])[k]? = some v' ∧ c.leader v' = l := by
      intro l hl
      obtain ⟨v', hv', hleader⟩ := (c.mem_leaders escaping).mp hl
      obtain ⟨k, hk⟩ := List.mem_iff_getElem?.mp hv'
      have hlt : k < escaping.length := (List.getElem?_eq_some_iff.mp hk).1
      exact ⟨k, v', hlt, by rw [List.getElem?_append_left hlt, hk], hleader⟩
    have hold : (c.leaders escaping).Pairwise fun l l' => ∀ (k' : Nat) v',
        (escaping ++ [v])[k']? = some v' → c.leader v' = l' →
        ∃ (k : Nat) (v₀ : ValueId), k < k' ∧ (escaping ++ [v])[k]? = some v₀ ∧ c.leader v₀ = l := by
      refine ih.imp_of_mem fun {l l'} hl _ hearly k' v' hv' hleader => ?_
      by_cases hk' : k' < escaping.length
      · rw [List.getElem?_append_left hk'] at hv'
        obtain ⟨k, v₀, hk, hv₀, hl⟩ := hearly k' v' hv' hleader
        exact ⟨k, v₀, hk, by rw [List.getElem?_append_left (hk.trans hk'), hv₀], hl⟩
      · obtain ⟨k, v₀, hk, hv₀⟩ := hearlier l hl
        exact ⟨k, v₀, Nat.lt_of_lt_of_le hk (Nat.le_of_not_lt hk'), hv₀⟩
    rw [leaders_concat]
    split
    · exact hold
    · rename_i hnew
      refine List.pairwise_append.mpr ⟨hold, List.pairwise_singleton _ _, ?_⟩
      intro l hl l' hl' k' v' hv' hleader
      obtain rfl := List.mem_singleton.mp hl'
      have hk' : escaping.length ≤ k' := by
        by_contra hlt
        rw [List.getElem?_append_left (Nat.lt_of_not_le hlt)] at hv'
        exact hnew ((c.mem_leaders escaping).mpr ⟨v', List.mem_of_getElem? hv', hleader⟩)
      obtain ⟨k, v₀, hk, hv₀⟩ := hearlier l hl
      exact ⟨k, v₀, Nat.lt_of_lt_of_le hk hk', hv₀⟩

/-- Groups come in the order of their first positions. -/
theorem pairwise_planEscapes :
    (c.planEscapes escaping owned).Pairwise fun g g' =>
      ∀ e ∈ g.escaping.head?, ∀ e' ∈ g'.escaping.head?, e.1 < e'.1 := by
  refine List.pairwise_map.mpr ((c.pairwise_leaders escaping).imp ?_)
  rintro l l' hearly ⟨k, v⟩ he ⟨k', v'⟩ he'
  obtain ⟨hv', hl'⟩ := (c.mem_escaping_escapeGroup escaping owned).mp (List.mem_of_mem_head? he')
  obtain ⟨k₀, v₀, hlt, hv₀, hl⟩ := hearly k' v' hv' hl'
  have hmem : (k₀, v₀) ∈ (c.escapeGroup escaping owned l).escaping :=
    (c.mem_escaping_escapeGroup escaping owned).mpr ⟨hv₀, hl⟩
  -- the first of a group is not after any other
  obtain ⟨rest, hrest⟩ := List.head?_eq_some_iff.mp he
  have hascending := c.ascending_escapeGroup escaping owned l
  rw [hrest] at hmem hascending
  rcases List.mem_cons.mp hmem with heq | hmem
  · exact congrArg Prod.fst heq ▸ hlt
  · exact ((List.pairwise_cons.mp hascending).1 _ hmem).trans hlt

/-! ## Nothing lost, nothing twice -/

/-- Together the groups hold every position with its value, once. -/
theorem perm_escaping_planEscapes :
    ((c.planEscapes escaping owned).flatMap (·.escaping)).Perm
      (escaping.zipIdx.map Prod.swap) := by
  -- a group is what the filter by its leader leaves, with the position first
  have hgroup : ∀ l, (c.escapeGroup escaping owned l).escaping =
      (escaping.zipIdx.filter fun e => c.leader e.1 = l).map Prod.swap := by
    intro l
    rw [← List.filterMap_eq_map, List.filterMap_filter]
    simp only [escapeGroup, decide_eq_true_eq]
    rfl
  -- no position is left over, since every leader of an escaping value has a group
  have hnone : (escaping.zipIdx.filter fun e => c.leader e.1 ∉ c.leaders escaping) = [] := by
    refine List.filter_eq_nil_iff.mpr fun e he => ?_
    obtain ⟨v, k⟩ := e
    have hv : v ∈ escaping := List.mem_of_getElem? (List.mk_mem_zipIdx_iff_getElem?.mp he)
    simpa [mem_leaders] using ⟨v, hv, rfl⟩
  have hperm := perm_filter_flatMap (fun e : ValueId × Nat => c.leader e.1) escaping.zipIdx
    (c.nodup_leaders escaping)
  rw [hnone, List.nil_append] at hperm
  rw [planEscapes, List.flatMap_map]
  simp only [hgroup]
  rw [← List.map_flatMap]
  exact hperm.map _

variable {c escaping owned} {c' : AliasClasses} in
/-- Two positions are in one group if their values have one leader. -/
theorem exists_group_iff {k k' : Nat} {v v' : ValueId} (hv : escaping[k]? = some v)
    (hv' : escaping[k']? = some v') :
    (∃ g ∈ c.planEscapes escaping owned, (k, v) ∈ g.escaping ∧ (k', v') ∈ g.escaping) ↔
      c.leader v = c.leader v' := by
  constructor
  · rintro ⟨g, hg, hk, hk'⟩
    obtain ⟨w, -, rfl⟩ := mem_planEscapes_iff.mp hg
    rw [((c.mem_escaping_escapeGroup escaping owned).mp hk).2,
      ((c.mem_escaping_escapeGroup escaping owned).mp hk').2]
  · intro hsame
    exact ⟨_, mem_planEscapes_iff.mpr ⟨v, List.mem_of_getElem? hv, rfl⟩,
      (c.mem_escaping_escapeGroup escaping owned).mpr ⟨hv, rfl⟩,
      (c.mem_escaping_escapeGroup escaping owned).mpr ⟨hv', hsame.symm⟩⟩

/-- An owned indicator is in the groups once if something of its class escapes, otherwise never. -/
theorem count_owned_planEscapes {i : ValueId} (hi : i ∈ owned) :
    ((c.planEscapes escaping owned).flatMap (·.owned)).count i =
      if escaping.any fun v => c.same v i then 1 else 0 := by
  have hperm := (c.perm_planEscapes escaping owned).count_eq i
  rw [List.count_append, owned.count_toList, if_pos hi] at hperm
  have hkept : (owned.toList.filter fun i => !escaping.any fun v => c.same v i).count i =
      if escaping.any fun v => c.same v i then 0 else 1 := by
    split
    · rename_i hany
      exact List.count_eq_zero.mpr fun hmem => by simp [hany] at hmem
    · rename_i hany
      rw [List.count_filter (by simpa using hany), owned.count_toList, if_pos hi]
  rw [hkept] at hperm
  split at hperm <;> simp_all

/-! ## Asking for one leader after the other -/

/-- Opens a group for a leader that has none. -/
def openGroup (leader : ValueId) (groups : List EscapeGroup) : List EscapeGroup :=
  if groups.any fun group => group.leader = leader then groups else groups ++ [⟨leader, [], []⟩]

/-- Changes the group of a leader, if there is one. -/
def updateGroup (leader : ValueId) (change : EscapeGroup → EscapeGroup)
    (groups : List EscapeGroup) : List EscapeGroup :=
  groups.map fun group => if group.leader = leader then change group else group

/-- Puts values, which come with their positions, into the groups of their classes. -/
def collectEscaping : AliasClasses → List EscapeGroup → List (ValueId × Nat) →
    List EscapeGroup × AliasClasses
  | c, groups, [] => (groups, c)
  | c, groups, (v, position) :: rest =>
    collectEscaping (c.find v).2
      (updateGroup (c.find v).1
        (fun group => { group with escaping := group.escaping ++ [(position, v)] })
        (openGroup (c.find v).1 groups)) rest

/-- Puts indicators into the groups of their classes. One that has none is passed over. -/
def collectOwned : AliasClasses → List EscapeGroup → List ValueId →
    List EscapeGroup × AliasClasses
  | c, groups, [] => (groups, c)
  | c, groups, i :: rest =>
    collectOwned (c.find i).2
      (updateGroup (c.find i).1 (fun group => { group with owned := group.owned ++ [i] }) groups)
      rest

/-- Draws up the plan of the escapes by asking for leaders, and gives the classes after that. -/
def collectEscapes (c : AliasClasses) (escaping : List ValueId) (owned : ValueSet) :
    List EscapeGroup × AliasClasses :=
  let (groups, c) := collectEscaping c [] escaping.zipIdx
  collectOwned c groups owned.toList

variable {c}

/-- A value that comes after others makes their plan into its own. -/
theorem updateGroup_openGroup_planEscapes (escaping : List ValueId) (v : ValueId) :
    updateGroup (c.leader v)
        (fun group => { group with escaping := group.escaping ++ [(escaping.length, v)] })
        (openGroup (c.leader v) (c.planEscapes escaping ∅)) =
      c.planEscapes (escaping ++ [v]) ∅ := by
  -- once its group is open, the groups are those of the new plan, and only the value is missing
  have hopen : openGroup (c.leader v) (c.planEscapes escaping ∅) =
      (c.leaders (escaping ++ [v])).map (c.escapeGroup escaping ∅) := by
    have hany : ((c.planEscapes escaping ∅).any fun group => group.leader = c.leader v) =
        decide (c.leader v ∈ c.leaders escaping) := by
      rw [Bool.eq_iff_iff]
      simp [planEscapes, escapeGroup]
    rw [openGroup, leaders_concat, hany]
    by_cases hv : c.leader v ∈ c.leaders escaping
    · simp [hv, planEscapes]
    · have hempty : c.escapeGroup escaping ∅ (c.leader v) = ⟨c.leader v, [], []⟩ := by
        rw [← c.escaping_escapeGroup_eq_nil escaping ∅ hv]
        rfl
      simp [hv, planEscapes, hempty]
  rw [hopen, updateGroup, List.map_map, planEscapes]
  refine List.map_congr_left fun l _ => ?_
  rw [escapeGroup_concat]
  rfl

/-- The questions may go to any classes in which every value has its leader of the start. -/
theorem collectEscaping_eq (h : Agrees c c') (done rest : List ValueId) :
    (collectEscaping c' (c.planEscapes done ∅) (rest.zipIdx done.length)).1 =
        c.planEscapes (done ++ rest) ∅ ∧
      Agrees c (collectEscaping c' (c.planEscapes done ∅) (rest.zipIdx done.length)).2 := by
  induction rest generalizing c' done with
  | nil => exact ⟨by simp [collectEscaping], h⟩
  | cons v rest ih =>
    -- the answer is the leader of the start, however much has been shortened since
    obtain ⟨hleader, hagrees, -⟩ := h.sound.find v
    have hnext := ih (h.trans hagrees) (done ++ [v])
    rw [← updateGroup_openGroup_planEscapes, List.length_append, List.append_assoc] at hnext
    rw [List.zipIdx_cons, collectEscaping, hleader, h.leader v]
    exact hnext

theorem collectOwned_eq (h : Agrees c c') (groups : List EscapeGroup) (rest : List ValueId) :
    (collectOwned c' groups rest).1 = groups.map (fun group =>
        { group with owned := group.owned ++ rest.filter fun i => c.leader i = group.leader }) ∧
      Agrees c (collectOwned c' groups rest).2 := by
  induction rest generalizing c' groups with
  | nil => exact ⟨by simp [collectOwned], h⟩
  | cons i rest ih =>
    obtain ⟨hleader, hagrees, -⟩ := h.sound.find i
    rw [collectOwned, hleader, h.leader i]
    obtain ⟨hgroups, hlast⟩ := ih (h.trans hagrees)
      (updateGroup (c.leader i) (fun group => { group with owned := group.owned ++ [i] }) groups)
    refine ⟨hgroups.trans ?_, hlast⟩
    rw [updateGroup, List.map_map]
    refine List.map_congr_left fun group _ => ?_
    by_cases hi : group.leader = c.leader i
    · simp [hi]
    · simp [hi, Ne.symm hi]

/-- One question after the other leads to the groups that all leaders at once lead to. -/
theorem Sound.collectEscapes (h : c.Sound) (escaping : List ValueId) (owned : ValueSet) :
    (c.collectEscapes escaping owned).1 = c.planEscapes escaping owned ∧
      Agrees c (c.collectEscapes escaping owned).2 := by
  obtain ⟨hgroups, hagrees⟩ := collectEscaping_eq (c := c) ⟨h, fun _ => rfl⟩ [] escaping
  obtain ⟨howned, hlast⟩ := collectOwned_eq hagrees (c.planEscapes escaping ∅) owned.toList
  have hcollect : c.collectEscapes escaping owned =
      collectOwned (collectEscaping c [] escaping.zipIdx).2 (c.planEscapes escaping ∅)
        owned.toList :=
    congrArg (fun groups => collectOwned _ groups owned.toList) hgroups
  rw [hcollect]
  refine ⟨howned.trans ?_, hlast⟩
  rw [planEscapes, List.map_map, planEscapes]
  exact List.map_congr_left fun l _ => by simp [escapeGroup]

/-- Drawing up the plan leaves the classes as the questions for the leaders do. -/
theorem collectEscapes_snd (c : AliasClasses) (escaping : List ValueId) (owned : ValueSet) :
    (c.collectEscapes escaping owned).2 =
      (c.run ((escaping ++ owned.toList).map .leader)).2 := by
  -- the groups have no part in what is asked
  have hescaping : ∀ (rest : List ValueId) (c : AliasClasses) groups k,
      (collectEscaping c groups (rest.zipIdx k)).2 = (c.run (rest.map .leader)).2 := by
    intro rest
    induction rest with
    | nil => exact fun _ _ _ => rfl
    | cons v rest ih => exact fun c groups k => ih _ _ _
  have howned : ∀ (rest : List ValueId) (c : AliasClasses) groups,
      (collectOwned c groups rest).2 = (c.run (rest.map .leader)).2 := by
    intro rest
    induction rest with
    | nil => exact fun _ _ => rfl
    | cons v rest ih => exact fun c groups => ih _ _
  rw [List.map_append, run_append]
  show (collectOwned (collectEscaping c [] escaping.zipIdx).2 _ owned.toList).2 = _
  rw [howned, hescaping]

/-! ## The plan -/

/-- **The plan of the escapes is the ordered division by alias class.** Whatever calls the classes
have seen, the groups hold each position with its value, once, and two positions are in one group
exactly if their values belong together by those calls. Positions ascend in a group, and groups by
their first position. An owned indicator is in one group if something that escapes belongs together
with it, and in none otherwise. Asking for the leaders one by one gives these groups, and leaves the
same values together, under the same leaders. -/
theorem planEscapes_divides (past : List Call) (escaping : List ValueId) (owned : ValueSet) :
    let c := (empty.run past).2
    let groups := c.planEscapes escaping owned
    (groups.flatMap (·.escaping)).Perm (escaping.zipIdx.map Prod.swap) ∧
    (∀ k k' v v', escaping[k]? = some v → escaping[k']? = some v' →
      ((∃ g ∈ groups, (k, v) ∈ g.escaping ∧ (k', v') ∈ g.escaping) ↔ Together past v v')) ∧
    (∀ g ∈ groups, g.escaping ≠ [] ∧ g.escaping.Pairwise (fun e e' => e.1 < e'.1) ∧
      g.owned.Pairwise (· < ·)) ∧
    groups.Pairwise (fun g g' =>
      ∀ e ∈ g.escaping.head?, ∀ e' ∈ g'.escaping.head?, e.1 < e'.1) ∧
    (∀ g ∈ groups, (∀ e ∈ g.escaping, c.leader e.2 = g.leader) ∧
      ∀ i ∈ g.owned, i ∈ owned ∧ c.leader i = g.leader) ∧
    (∀ i ∈ owned,
      ((∃ v ∈ escaping, Together past v i) → (groups.flatMap (·.owned)).count i = 1) ∧
      ((¬ ∃ v ∈ escaping, Together past v i) → (groups.flatMap (·.owned)).count i = 0)) ∧
    ∃ after, c.collectEscapes escaping owned = (groups, after) ∧
      after = (empty.run (past ++ (escaping ++ owned.toList).map .leader)).2 ∧
      ∀ a b, after.leader a = c.leader a ∧ (after.same a b = true ↔ Together past a b) := by
  intro c groups
  have hr : Reflects past c := reflects_run past
  refine ⟨c.perm_escaping_planEscapes escaping owned, ?_, ?_,
    c.pairwise_planEscapes escaping owned, ?_, ?_, ?_⟩
  · intro k k' v v' hv hv'
    rw [← hr.same, same, decide_eq_true_eq]
    exact exists_group_iff hv hv'
  · intro g hg
    obtain ⟨v, hv, rfl⟩ := mem_planEscapes_iff.mp hg
    obtain ⟨k, hk⟩ := List.mem_iff_getElem?.mp hv
    exact ⟨List.ne_nil_of_mem ((c.mem_escaping_escapeGroup escaping owned).mpr ⟨hk, rfl⟩),
      c.ascending_escapeGroup escaping owned _, owned.ascending.filter _⟩
  · intro g hg
    obtain ⟨v, -, rfl⟩ := mem_planEscapes_iff.mp hg
    refine ⟨fun e he => ((c.mem_escaping_escapeGroup escaping owned).mp he).2, fun i hi => ?_⟩
    simpa [escapeGroup, ValueSet.mem_def] using hi
  · intro i hi
    have hany : (escaping.any fun v => c.same v i) = true ↔ ∃ v ∈ escaping, Together past v i := by
      simp only [List.any_eq_true, hr.same]
    rw [← hany, c.count_owned_planEscapes escaping owned hi]
    exact ⟨fun h => if_pos h, fun h => if_neg h⟩
  · obtain ⟨hgroups, hagrees⟩ := hr.sound.collectEscapes escaping owned
    refine ⟨(c.collectEscapes escaping owned).2, Prod.ext hgroups rfl, ?_, fun a b => ?_⟩
    · rw [collectEscapes_snd, run_append]
    · rw [← hr.same, same, same, hagrees.leader a, hagrees.leader b]
      exact ⟨rfl, Iff.rfl⟩

-- a value that escapes twice has two positions, and what is owned apart from both classes is in
-- neither group
example :
    (empty.run [.union ⟨0⟩ ⟨1⟩, .setIndicator ⟨0⟩ ⟨4⟩]).2.planEscapes [⟨1⟩, ⟨2⟩, ⟨0⟩, ⟨2⟩]
        (.ofList [⟨5⟩, ⟨4⟩]) =
      [⟨⟨0⟩, [(0, ⟨1⟩), (2, ⟨0⟩)], [⟨4⟩]⟩, ⟨⟨2⟩, [(1, ⟨2⟩), (3, ⟨2⟩)], []⟩] := by
  decide +kernel

end AliasClasses

end BufferOwnership
