import BufferOwnership.Proofs.Alignment
import BufferOwnership.Proofs.ReleasePlaces

/-!
# What is displaced where branches come to agree

A branch that captures a value hands on the recorded indicator of the value, and the one that stood
in the slot is displaced. As a rule that is a retained one, whose retain is dropped. But the slot
may hold an indicator that the branch owns, if an alias has brought it into the class of the value;
then it is lost (`Contested`). And two values may stand in one slot, if one of them is no buffer
(`Crowded`). Apart from this, what the branch owns when it closes is consumed.
-/

namespace BufferOwnership

open Routine

variable {f g r : Routine} {s mid final : Session} {b : BlockId} {o t : OpId} {body : List OpId}
variable {i j v w : ValueId} {settings : Settings} {n m : Nat} {out : Outcome} {k : Transit}
variable {e : Call} {sent : List ValueId}

/-- Threading comes to the last operation of a block, which holds something by then. -/
def Routine.ClosesWith (f : Routine) (settings : Settings) (b : BlockId) (t : OpId)
    (held : Holdings) (s : Session) : Prop :=
  ∃ fuel k body owned opened, Transits f settings fuel k ∧ k.block = b ∧
    k.Walks (Pass.throughOpWithin settings fuel) body owned opened held s ∧
    f.opsOf b = body ++ [t]

/-- The regions of a construct are gone through and brought to agree, with what is displaced. -/
def Pass.displacing (settings : Settings) (treat : OpPass) (site : ConstructSite)
    (kind : ConstructKind) (gs : List RegionId) : Pass (List ValueId) := do
  let regions ← throughRegions settings treat site kind gs
  return (← reconcile site regions).displaced

/-- An indicator is displaced where the regions of a construct are brought to agree. -/
def Displaces (f : Routine) (settings : Settings) (o : OpId) (i : ValueId) : Prop :=
  ∃ fuel k e d kind site displaced after, Transits f settings (fuel + 1) k ∧
    k.Calls (Pass.throughOpWithin settings (fuel + 1)) e ∧ e.op = o ∧ f.op? o = some d ∧
    d.kind.construct? = some kind ∧
    Pass.displacing settings (Pass.throughOpWithin settings fuel) site kind d.regions e.before =
      .ok (displaced, after) ∧ i ∈ displaced

/-- A value belongs to a slot among those that are sent: so many buffers are sent before it. -/
def Routine.InSlot (r : Routine) (sent : List ValueId) (n : Nat) (v : ValueId) : Prop :=
  ∃ before after, sent = before ++ v :: after ∧ r.bufferCount before = n

/-- An indicator that a branch owns leaves in the slot of a buffer, as the only indicator and with
the only buffer of the class. A value in the slot is freed in another branch: the buffer itself or
a value before it that is no buffer. -/
structure Contested (f g : Routine) (o : OpId) (b : BlockId) (t : OpId) (held : Holdings)
    (s : Session) (i : ValueId) : Prop where
  conditional : f.isConditional o = true
  owned : i ∈ held.owned
  slot : ∃ n v w, ((s.routine.operandsOf t).filter s.routine.holdsBuffer)[n]? = some v ∧
    s.aliases.same v i = true ∧ (∀ j ∈ held.owned, s.aliases.same v j = true → j = i) ∧
    ((s.routine.operandsOf t).filter s.routine.holdsBuffer).filter (s.aliases.same v) = [v] ∧
    s.routine.InSlot (s.routine.operandsOf t) n w ∧ (w = v ∨ s.routine.holdsBuffer w = false) ∧
    FreedBeside f g o b w

/-- An indicator belongs to a value that is freed in another branch and has its slot in common with
a second such value. One of them is no buffer. -/
def Crowded (f : Routine) (final : Session) (o : OpId) (b : BlockId) (t : OpId) (s : Session)
    (i : ValueId) : Prop :=
  ∃ n v w, v ≠ w ∧ s.routine.InSlot (s.routine.operandsOf t) n v ∧
    s.routine.InSlot (s.routine.operandsOf t) n w ∧
    (s.routine.holdsBuffer v = false ∨ s.routine.holdsBuffer w = false) ∧
    FreedBeside f final.routine o b v ∧ FreedBeside f final.routine o b w ∧
    final.aliases.same v i = true

/-- A branch of a conditional has a contested or a crowded slot for an indicator. -/
def Mislaid (f : Routine) (settings : Settings) (final : Session) (o : OpId) (i : ValueId) : Prop :=
  ∃ b t held s, f.Enters o b ∧ f.ClosesWith settings b t held s ∧
    (Contested f final.routine o b t held s i ∨ Crowded f final o b t s i)

/-! ## Slots -/

theorem Routine.InSlot.eq_of_getElem? (h : r.InSlot sent n w) (hw : r.holdsBuffer w = true)
    (hv : (sent.filter r.holdsBuffer)[n]? = some v) : w = v := by
  obtain ⟨before, after, rfl, rfl⟩ := h
  exact Option.mem_unique (getElem?_filter_of_split hw) hv

/-- Two buffers have no slot in common. -/
theorem Routine.InSlot.unique (h : r.InSlot sent n v) (h' : r.InSlot sent n w)
    (hv : r.holdsBuffer v = true) (hw : r.holdsBuffer w = true) : v = w := by
  obtain ⟨before, after, rfl, rfl⟩ := h
  exact (h'.eq_of_getElem? hw (getElem?_filter_of_split hv)).symm

/-! ## One block -/

section Departs

variable {values acquired displaced : List ValueId}
variable (h : Departs f settings final e n k mid t values acquired displaced) (hw : f.WellFormed)
variable (pass : k.Passage f settings (Pass.throughOpWithin settings n)) (ht : pass.t = t)
include h hw ht

/-- A value that is captured has its slot, and another branch frees it. -/
theorem Departs.inSlot (hv : v ∈ values) (hfills : Fills mid (mid.routine.operandsOf t) m v j) :
    pass.walked.routine.InSlot (pass.walked.routine.operandsOf t) m v ∧
      f.isConditional e.op = true ∧ FreedBeside f final.routine e.op k.block v := by
  subst ht
  obtain ⟨F, hrun, havoids⟩ := h.quiet
  obtain ⟨-, hoperands⟩ := h.placed.closed hw pass hrun havoids
  obtain ⟨before, after, hsent, hcount⟩ := hfills.place
  refine ⟨⟨before, after, hoperands ▸ hsent, ?_⟩, h.freed hw hv hfills⟩
  rw [← hcount]
  apply (((pass.run_closes hw).keeps.trans hrun.keeps).bufferCount fun u hu => ?_).symm
  exact pass.known hw (by simp [← hoperands, hsent, hu])

/-- What is displaced comes from a retain, or the block owned it, or it was captured. -/
theorem Departs.displaced_cases (hi : i ∈ displaced) : f.isConditional e.op = true ∧
    ((∃ x d n, pass.walked.routine.op? x = none ∧ k.after.routine.op? x = some d ∧
        d.kind = .retain n ∧ i ∈ d.results) ∨
      Contested f final.routine e.op k.block t pass.held pass.walked i ∨
      (Crowded f final e.op k.block t pass.walked i ∧ ¬ mid.routine.Declares k.block i)) := by
  obtain ⟨m, w, hw', ⟨j, hfills⟩, hslot⟩ := h.patched.ousted i hi
  obtain ⟨hin, hconditional, hfreed⟩ := h.inSlot hw pass ht hw' hfills
  refine ⟨hconditional, ?_⟩
  rcases hslot with hslot | ⟨v, hv, hne, hfills'⟩
  · -- the slot is that of a buffer, which has left with the indicator
    subst ht
    obtain ⟨hlength, -, hleaves⟩ := closeBlock_leaves (pass.threaded.booked hw)
      (fun i hi => (pass.tokens i hi).known) pass.closes
    have hlt := (List.getElem?_eq_some_iff.mp hslot).1
    have hv := List.getElem?_eq_getElem (hlength ▸ hlt)
    obtain ⟨i', hi', hleave⟩ := hleaves m _ hv
    obtain rfl := Option.mem_unique hslot hi'
    cases hleave with
    | retained hx hd hkind hpair _ => exact .inl ⟨_, _, _, hx, hd, hkind, (List.of_mem_zip hpair).2⟩
    | directly howned hsame honly halone =>
      refine .inr (.inl ⟨hconditional, howned, m, _, w, hv, hsame, honly, halone, hin, ?_, hfreed⟩)
      cases hbuffer : pass.walked.routine.holdsBuffer w with
      | true => exact .inl (hin.eq_of_getElem? hbuffer hv)
      | false => exact .inr rfl
  · obtain ⟨hin', -, hfreed'⟩ := h.inSlot hw pass ht hv hfills'
    refine .inr (.inr ⟨⟨m, v, w, hne, hin', hin, ?_, hfreed', hfreed, ?_⟩,
      h.outside hw hv hfills'⟩)
    · by_contra hbuffers
      rw [not_or, Bool.not_eq_false, Bool.not_eq_false] at hbuffers
      exact hne (hin'.unique hin hbuffers.1 hbuffers.2)
    · exact h.threaded.same h.later (h.threaded.joined v i hfills'.recorded)

/-- What a block owns when it closes is consumed, unless its slot is contested. -/
theorem Departs.consumed
    (hsends : final.routine.operandsOf t = mid.routine.operandsOf t ++ acquired)
    (hi : i ∈ pass.held.owned) :
    (∃ x, final.routine.isErased x = false ∧ i ∈ final.routine.operandsOf x) ∨
      Contested f final.routine e.op k.block t pass.held pass.walked i := by
  have htoken := pass.tokens i hi
  have hcloses : Run f .all pass.walked k.after := (pass.run_closes hw).anywhere
  rcases closeBlock_takes (pass.threaded.booked hw) (fun i hi => (pass.tokens i hi).known)
    pass.closes hi with hacquired | ⟨x, d, m, hx, hd, hkind, hmem⟩
  · obtain ⟨m, hm⟩ := List.mem_iff_getElem?.mp hacquired
    rcases h.patched.stays m i hm with hdisplaced | hstays
    · right
      rcases (h.displaced_cases hw pass ht hdisplaced).2 with
        ⟨x, d, m, hx, hd, -, hres⟩ | hcontested | ⟨-, houtside⟩
      · -- it has been there before the retain
        exfalso
        have hl := (pass.threaded.run hw hcloses).wellFormed.linked
        have hres' : i ∈ k.after.routine.resultsOf x := resultsOf_of hd ▸ hres
        rcases htoken.here with harg | ⟨p, hp, hres⟩
        · exact hl.not_arg_of_result hres' ((hcloses.keeps.args _).subset harg)
        · rw [← hl.result_unique hres' (hcloses.keeps.mem_resultsOf hres)] at hres
          exact (exists_op?_of_mem_resultsOf hres).elim fun d hd => by simp [hx] at hd
      · exact hcontested
      · obtain ⟨-, -, -, front, hclosed⟩ := h.exists_pass hw
        exact absurd (hclosed.declares hacquired) houtside
    · refine .inl ⟨t, h.live, ?_⟩
      rw [hsends]
      exact List.mem_append_right _ (List.mem_of_getElem? hstays)
  · left
    have hinserting := closeBlock_inserting hw pass.threaded pass.reached pass.last pass.tokens
      (h.placed.cleared_last hw pass) pass.closes
    obtain ⟨-, -, hoperands, -, hlive⟩ :=
      hinserting.last pass.threaded hw hcloses h.placed_last.later.anywhere hx hd
    refine ⟨x, hlive ?_, hoperands ▸ List.mem_of_mem_drop hmem⟩
    -- it takes in at least this one
    rw [hkind]
    intro hall
    rw [OpKind.retain.inj hall, List.drop_length] at hmem
    cases hmem

end Departs

/-- The block is one in which threading comes to the end. -/
theorem Departs.closesWith {values acquired displaced : List ValueId} {K : Transit}
    (h : Departs f settings final e n k mid t values acquired displaced)
    (pass : k.Passage f settings (Pass.throughOpWithin settings n)) (ht : pass.t = t)
    (hK : Transits f settings (n + 1) K) (he : K.Calls (Pass.throughOpWithin settings (n + 1)) e) :
    f.ClosesWith settings k.block t pass.held pass.walked := by
  obtain ⟨d, hd, hcalls⟩ := h.called
  exact ⟨n, k, pass.body, pass.owned, pass.opened, .inner hK he hd h.placed.enters hcalls, rfl,
    ⟨pass.opens, pass.bodyOps, pass.walks⟩, ht ▸ pass.original⟩

/-! ## The whole run -/

section Root

variable {report : Report} (hw : f.WellFormed)
include hw

section

variable (hroot : f.threadFromRoot settings = .ok (out, final))
include hroot

theorem Displaces.cases (h : Displaces f settings o i) : f.isConditional o = true ∧
    ((∃ x n, final.routine.kind? x = some (.retain n) ∧ i ∈ final.routine.resultsOf x) ∨
      Mislaid f settings final o i) := by
  obtain ⟨n, K, e, d, kind, site, displaced, after, hK, he, rfl, hd, hkind, h, hi⟩ := h
  obtain ⟨regions, mid, hregions, h⟩ := Pass.bind_eq_ok.mp h
  obtain ⟨agreed, _, hreconcile, h⟩ := Pass.bind_eq_ok.mp h
  cases h
  obtain ⟨o, hplaced⟩ := hK.placed hw hroot
  obtain ⟨front, rest, hcall⟩ := hplaced.call hw he
  have hclass : d.classify = .construct kind := by rw [Op.classify, hkind]
  have hcons : d.kind.construct?.isSome = true := by simp [hkind]
  have hspec : OpSpec f _ := throughOpWithin_spec hw settings n
  -- only a construct is gone through region by region
  have hpassed : RegionsPassed f settings (Pass.throughOpWithin settings n) d.regions e.before
      regions mid := by
    cases throughOp_cases hspec hw hd hcall.atOp hcall.treats with
    | effects _ _ hother => cases hclass.symm.trans hother
    | plain _ hother => cases hclass.symm.trans hother
    | unknown _ hother => cases hclass.symm.trans hother
    | construct _ _ _ _ _ _ hat _ _ _ _ _ _ hpassed =>
      exact (throughRegions_passed hspec hw hd hcons hat hpassed.single hregions).1
  have hnodup : (regions.map (·.region)).Nodup := by
    rw [hpassed.sited.regions, ← regionsOf_of hd]
    exact hw.linked.regions_nodup e.op
  obtain ⟨region, region', values, displaced, hrevised, hmem⟩ :=
    ((reconcile_eq_ok hreconcile).revised (hcall.threaded_regions hw hd hcons hpassed) hw
      hnodup).2 i hi
  obtain ⟨ht, hdone, -⟩ := threadFromRoot_spec hw hroot
  rcases hcall.departs_revised hw hdone hd hcons hpassed hrevised with
    hnone | ⟨k, t, -, hdeparts⟩
  · rw [← (hcall.threaded_regions hw hd hcons hpassed).blocksOf] at hnone
    rw [hrevised.displaced_eq_nil hnone] at hmem
    cases hmem
  obtain ⟨pass, hlast, -⟩ := hdeparts.exists_pass hw
  obtain ⟨hconditional, hcases⟩ := hdeparts.displaced_cases hw pass hlast hmem
  have hcloses := hdeparts.closesWith pass hlast hK he
  have henters := hdeparts.placed.enters
  refine ⟨hconditional, ?_⟩
  rcases hcases with ⟨x, d, n, -, hd, hkind, hres⟩ | hcontested | ⟨hcrowded, -⟩
  · have hlater := hdeparts.placed_last.later
    exact .inl ⟨x, n, hkind ▸ hlater.keeps.kind? (kind?_of hd),
      hlater.keeps.mem_resultsOf (resultsOf_of hd ▸ hres)⟩
  · exact .inr ⟨_, _, _, _, henters, hcloses, .inl hcontested⟩
  · exact .inr ⟨_, _, _, _, henters, hcloses, .inr hcrowded⟩

/-- Threading comes to the end of every block that it goes into. -/
theorem exists_closesWith (ho : f.Visited o) (henters : f.Enters o b)
    (hlist : f.opsOf b = body ++ [t]) : ∃ held s, f.ClosesWith settings b t held s := by
  obtain ⟨fuel, k, hk, rfl⟩ := exists_transit hw hroot ho henters
  obtain ⟨o', hplaced⟩ := hk.placed hw hroot
  obtain ⟨pass⟩ := hplaced.pass hw
  obtain ⟨rfl, -⟩ := List.append_inj' (hlist.symm.trans pass.original) rfl
  exact ⟨pass.held, pass.walked, fuel, k, pass.body, pass.owned, pass.opened, hk, rfl,
    ⟨pass.opens, pass.bodyOps, pass.walks⟩, hlist⟩

/-- What a block owns when it closes belongs to it in the end. -/
theorem Routine.ClosesWith.indicators {held : Holdings} (h : f.ClosesWith settings b t held s)
    (hi : i ∈ held.owned) : IndicatorOf f final.routine b i := by
  obtain ⟨n, k, body, owned, opened, hk, rfl, ⟨hopens, hbody, hwalks⟩, -⟩ := h
  obtain ⟨m, hplaced⟩ := hk.placed hw hroot
  obtain ⟨pass⟩ := hplaced.pass hw
  cases hopens.symm.trans pass.opens
  cases hbody.symm.trans pass.bodyOps
  cases hwalks.symm.trans pass.walks
  exact ((hplaced.within_walk hw pass).1 i hi).1.run
    ((pass.run_closes hw).anywhere.trans hplaced.later.anywhere) pass.threaded hw

/-- What a block of a construct owns when it closes is consumed, unless its slot is contested. -/
theorem Routine.ClosesWith.consumed {held : Holdings} (h : f.ClosesWith settings b t held s)
    (ho : f.VisitedConstruct o) (henters : f.Enters o b) (hi : i ∈ held.owned) :
    (∃ x, final.routine.isErased x = false ∧ i ∈ final.routine.operandsOf x) ∨
      Contested f final.routine o b t held s i := by
  obtain ⟨n, k, body, owned, opened, hk, rfl, ⟨hopens, hbody, hwalks⟩, hlist⟩ := h
  obtain ⟨-, hdone, -⟩ := threadFromRoot_spec hw hroot
  have hholder := henters.holder? hw.linked
  cases hk with
  | body _ _ henters' _ =>
    obtain rfl := Option.mem_unique hholder (henters'.holder? hw.linked)
    cases ho.2.symm.trans hw.isConstruct_root
  | @inner _ K _ e d hK he hd henters' hcalls =>
    obtain rfl := Option.mem_unique hholder (henters'.holder? hw.linked)
    obtain ⟨m, hplaced⟩ := hK.placed hw hroot
    obtain ⟨front, rest, hcall⟩ := hplaced.call hw he
    obtain ⟨k', mid, values, acquired, displaced, hblock, hdeparts, hsends⟩ :=
      hcall.departs hw hdone ho.2 henters hlist
    -- this is the transit in question
    obtain ⟨d', hd', hcalls'⟩ := hdeparts.called
    obtain rfl := Option.mem_unique hd hd'
    obtain ⟨-, -, -, hat, -⟩ := hcall.passed hw hd henters
    obtain rfl := hcalls'.unique hcalls hat.nodup hblock
    obtain ⟨pass, hlast, -⟩ := hdeparts.exists_pass hw
    cases hopens.symm.trans pass.opens
    cases hbody.symm.trans pass.bodyOps
    cases hwalks.symm.trans pass.walks
    exact hdeparts.consumed hw pass hlast hsends hi

end

/-- What is displaced where branches come to agree is the result of a retain, and what a block of a
construct owns when it closes is consumed by an operation that stays. The exceptions are slots that
are contested or crowded. -/
theorem threadOwnership_displaces (h : f.threadOwnership settings = .ok (report, g)) :
    ∃ out s, f.threadFromRoot settings = .ok (out, s) ∧ s.routine = g ∧
      (∀ o i, Displaces f settings o i → f.isConditional o = true ∧
        ((∃ x n, g.kind? x = some (.retain n) ∧ i ∈ g.resultsOf x) ∨
          Mislaid f settings s o i)) ∧
      ∀ o b body t, f.VisitedConstruct o → f.Enters o b → f.opsOf b = body ++ [t] →
        (∃ held walked, f.ClosesWith settings b t held walked) ∧
        ∀ held walked i, f.ClosesWith settings b t held walked → i ∈ held.owned →
          (∃ x, g.isErased x = false ∧ i ∈ g.operandsOf x) ∨
            Contested f g o b t held walked i := by
  obtain ⟨out, s, hroot, rfl, -⟩ := threadOwnership_eq_ok h
  refine ⟨out, s, hroot, rfl, fun o i hi => hi.cases hw hroot, ?_⟩
  intro o b body t ho henters hlist
  refine ⟨exists_closesWith hw hroot ho.1 henters hlist, fun held walked i hcloses hi => ?_⟩
  exact hcloses.consumed hw hroot ho henters hi

end Root

/-- An indicator is displaced at a construct in the body, found by going through what precedes. -/
theorem displaces_of_check (n : Nat) (b : BlockId) (pre post : List OpId) (opKind : OpKind)
    {kind : ConstructKind} (site : ConstructSite) (hsize : f.ops.size = n + 1)
    (henters : f.Enters f.root b)
    (hgoes : (Pass.throughBlock settings (Pass.throughOpWithin settings f.ops.size) b false
      (.start f)).toBool = true)
    (hbody : f.bodyOps b = .ok (pre ++ o :: post))
    (hwalks : (Pass.throughOps (Pass.throughOpWithin settings f.ops.size) (pre ++ o :: post) ⟨∅, ∅⟩
      (.start f)).toBool = true)
    (hkind : f.kind? o = some opKind) (hcons : opKind.construct? = some kind)
    (hpre : ((Pass.throughOps (Pass.throughOpWithin settings f.ops.size) pre ⟨∅, ∅⟩
      (.start f)).toOption.any fun a => decide (
        (Pass.throughOpWithin settings f.ops.size o a.1.owned a.2).toBool = true ∧
        ((Pass.displacing settings (Pass.throughOpWithin settings n) site kind (f.regionsOf o)
          a.2).toOption.any fun displaced => decide (i ∈ displaced.1)) = true)) = true) :
    Displaces f settings o i := by
  obtain ⟨k, e, hk, he, rfl, hcheck⟩ := exists_body_call settings
    (P := fun a => ((Pass.displacing settings (Pass.throughOpWithin settings n) site kind
      (f.regionsOf o) a.2).toOption.any fun displaced => decide (i ∈ displaced.1)) = true)
    henters hgoes hbody hwalks hpre
  obtain ⟨⟨displaced, after⟩, hdisplacing, hi⟩ := exists_of_check hcheck
  obtain ⟨d, hd, rfl⟩ := exists_op?_of_kind? hkind
  rw [hsize] at hk he
  rw [regionsOf_of hd] at hdisplacing
  exact ⟨n, k, e, d, kind, site, displaced, after, hk, he, rfl, hd, hcons, hdisplacing, hi⟩

/-- The branch that keeps the buffer captures its indicator; a retained one gives way. The other
makes a new buffer and sends the indicator that it owns. -/
theorem threadOwnership_displaces_renewal :
    ∃ report g, renewalRoutine.threadOwnership {} = .ok (report, g) ∧
      Displaces renewalRoutine {} ⟨2⟩ ⟨10⟩ ∧
      (∃ x n, g.kind? x = some (.retain n) ∧ ⟨10⟩ ∈ g.resultsOf x) ∧
      ∃ held walked, renewalRoutine.ClosesWith {} ⟨1⟩ ⟨5⟩ held walked ∧
        ∀ i ∈ held.owned, ∃ x, g.isErased x = false ∧ i ∈ g.operandsOf x := by
  have hw := renewalRoutine_wellFormed
  obtain ⟨⟨report, g⟩, h, hfrees⟩ := exists_of_check (x := renewalRoutine.threadOwnership {})
    (P := fun a => ∀ q ∈ a.2.opIds,
      (a.2.op? q).all (fun d => d.freed.length ≤ if q = ⟨3⟩ then 1 else 0) = true)
    (by decide +kernel)
  obtain ⟨out, s, hroot, rfl, hdisplaced, hconsumed⟩ := threadOwnership_displaces hw h
  obtain ⟨ht, hdone, -⟩ := threadFromRoot_spec hw hroot
  have hleads : renewalRoutine.Leads renewalRoutine.root ⟨2⟩ := by decide +kernel
  have hvisited : renewalRoutine.VisitedConstruct ⟨2⟩ := ⟨.single hleads, by decide +kernel⟩
  have henters : renewalRoutine.Enters ⟨2⟩ ⟨1⟩ := by decide +kernel
  have hdisplaces : Displaces renewalRoutine {} ⟨2⟩ ⟨10⟩ :=
    displaces_of_check 9 ⟨0⟩ [⟨1⟩] [⟨7⟩] .conditional ⟨⟨2⟩, "if"⟩ (by decide +kernel)
      (by decide +kernel) (by decide +kernel) (by decide +kernel) (by decide +kernel)
      (by decide +kernel) rfl (by decide +kernel)
  -- one value is freed, and that in this branch
  have hfreed : ∀ {b w}, FreedBeside renewalRoutine s.routine ⟨2⟩ b w →
      (∃ d, s.routine.op? ⟨3⟩ = some d ∧ d.freed = [w]) ∧ b ≠ ⟨1⟩ := by
    rintro b w ⟨c, q, a, hc, hne, -, hparent, hunder, d, hd, hfreed⟩
    have hcheck := hfrees q (mem_opIds (by simp [hd]))
    have hpos := List.length_pos_of_mem hfreed
    simp only [hd, Option.all_some, decide_eq_true_eq] at hcheck
    obtain rfl : q = ⟨3⟩ := by
      by_contra hother
      rw [if_neg hother] at hcheck
      omega
    obtain ⟨u, hu⟩ := List.length_eq_one_iff.mp (Nat.le_antisymm hcheck hpos)
    obtain rfl := List.mem_singleton.mp (hu ▸ hfreed)
    refine ⟨⟨d, hd, hu⟩, ?_⟩
    rintro rfl
    have hplace : renewalRoutine.parent? ⟨3⟩ = some ⟨1⟩ := by decide +kernel
    obtain rfl := Option.mem_unique hplace hparent
    exact hunder.disjoint hw.root_unlinked (hvisited.1.reached hw.linked) (hc.holder? hw.linked)
      (henters.holder? hw.linked) hne (.inl rfl)
  have hkept : ¬ Mislaid renewalRoutine {} s ⟨2⟩ ⟨10⟩ := by
    rintro ⟨b, t, held, walked, hb, hcloses, hcontested | hcrowded⟩
    · -- the other branch has nothing to own
      obtain ⟨_, _, w, -, -, -, -, -, -, hbeside⟩ := hcontested.slot
      have hsupplied := (hcloses.indicators hw hroot hcontested.owned).supplied ht hw hdone
      have hsuppliers : ∀ c ∈ renewalRoutine.suppliers, renewalRoutine.holder? c = some ⟨2⟩ →
          c = ⟨1⟩ := by decide +kernel
      exact (hfreed hbeside).2 (hsuppliers b hsupplied (hb.holder? hw.linked))
    · obtain ⟨_, v, w, hne, -, -, -, hv, hw', -⟩ := hcrowded
      obtain ⟨⟨d, hd, hv⟩, -⟩ := hfreed hv
      obtain ⟨⟨d', hd', hw'⟩, -⟩ := hfreed hw'
      obtain rfl := Option.mem_unique hd hd'
      exact hne (List.singleton_inj.mp (hv.symm.trans hw'))
  have hlist : renewalRoutine.opsOf ⟨1⟩ = [⟨3⟩, ⟨4⟩] ++ [⟨5⟩] := by decide +kernel
  obtain ⟨⟨held, walked, hcloses⟩, hconsumed⟩ := hconsumed _ _ _ _ hvisited henters hlist
  refine ⟨report, s.routine, h, hdisplaces, (hdisplaced _ _ hdisplaces).2.resolve_right hkept, held,
    walked, hcloses, fun i hi => ?_⟩
  apply (hconsumed held walked i hcloses hi).resolve_right
  intro hcontested
  obtain ⟨_, _, w, -, -, -, -, -, -, hbeside⟩ := hcontested.slot
  exact (hfreed hbeside).2 rfl

/-- One branch frees a buffer, which the other takes for an alias of its own and sends. -/
def mingled : Edit Unit := do
  let entry : InsertPoint := .atEnd ⟨0⟩
  let ty : Ty := .buffer .f32 1
  let old ← Emit.alloc entry ty
  let choice ← Emit.conditional entry ⟨0⟩ [ty] true
  let otherwise := choice.elseBlock?.getD ⟨0⟩
  let _ ← Emit.dealloc (.atEnd choice.thenBlock) old
  let new ← Emit.alloc (.atEnd choice.thenBlock) ty
  let _ ← Emit.yield (.atEnd choice.thenBlock) [new]
  let own ← Emit.alloc (.atEnd otherwise) ty
  let _ ← Emit.generic (.atEnd otherwise) "select" [old, own] [ty] []
  let _ ← Emit.yield (.atEnd otherwise) [old]
  let _ ← Emit.ret entry []

def mingledRoutine : Routine := mingled.build "mingled" [.scalar .i1]

/-- The indicator that the branch owns is displaced, and nothing consumes it. -/
theorem mingledRoutine_own_displaced :
    mingledRoutine.WellFormed ∧ Displaces mingledRoutine {} ⟨2⟩ ⟨8⟩ ∧
      ∃ report g, mingledRoutine.threadOwnership {} = .ok (report, g) ∧
        g.kind? ⟨12⟩ = some .own ∧ ⟨12⟩ ∈ g.opsOf ⟨2⟩ ∧ g.resultsOf ⟨12⟩ = [⟨8⟩] ∧
        ⟨8⟩ ∉ report.returned ∧
        ∀ x < g.ops.size, g.isErased ⟨x⟩ = false → ⟨8⟩ ∉ g.operandsOf ⟨x⟩ := by
  refine ⟨Routine.wellFormed_of_check (by decide +kernel), ?_, ?_⟩
  · exact displaces_of_check 9 ⟨0⟩ [⟨1⟩] [] .conditional ⟨⟨2⟩, "if"⟩ (by decide +kernel)
      (by decide +kernel) (by decide +kernel) (by decide +kernel) (by decide +kernel)
      (by decide +kernel) rfl (by decide +kernel)
  · obtain ⟨⟨report, g⟩, h, hlost⟩ := exists_of_check (x := mingledRoutine.threadOwnership {})
      (P := fun a => a.2.kind? ⟨12⟩ = some .own ∧ ⟨12⟩ ∈ a.2.opsOf ⟨2⟩ ∧
        a.2.resultsOf ⟨12⟩ = [⟨8⟩] ∧ ⟨8⟩ ∉ a.1.returned ∧
        ∀ x < a.2.ops.size, a.2.isErased ⟨x⟩ = false → ⟨8⟩ ∉ a.2.operandsOf ⟨x⟩)
      (by decide +kernel)
    exact ⟨report, g, h, hlost⟩

end BufferOwnership
