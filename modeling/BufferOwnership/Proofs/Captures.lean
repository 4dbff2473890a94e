import BufferOwnership.Proofs.Releases
import BufferOwnership.Proofs.Slots

/-!
# What a branch hands on instead

Where only one branch of a conditional releases a value, the other one hands on the indicator that
is recorded for it, in place of the one that it had prepared. The value was freed, and like its
indicator is declared outside of both branches. So what a branch hands on instead is nothing that it
had prepared, and the indicators that it hands on are still different.
-/

namespace BufferOwnership

open Routine

variable {f g r : Routine} {s s' final : Session} {a b c : BlockId} {o t : OpId}
variable {front rest : List OpId} {i v : ValueId} {settings : Settings} {fuel : Nat} {out : Outcome}
variable {k : Transit} {e : Call}

/-! ## Where released values come from -/

/-- Where a value that is released in a block comes from. -/
inductive Source (f g : Routine) (b : BlockId) (v : ValueId) : Prop
  | freed {q : OpId} {c : BlockId} : f.Visited q → f.parent? q = some c → f.Under b c →
      g.Frees q v → Source f g b v
  | owned {c : BlockId} : f.Under b c → IndicatorOf f g c v → Source f g b v

theorem Source.mono (h : Source f g c v) (hunder : f.Under b c) : Source f g b v := by
  cases h with
  | freed hq hparent hc hfrees => exact .freed hq hparent (hunder.trans hc) hfrees
  | owned hc hindicator => exact .owned (hunder.trans hc) hindicator

/-- Each outcome of blocks that are gone through is that of a transit. -/
theorem BlocksPassed.exists_outcome {treat : OpPass} {owns : Bool} {bs : List BlockId}
    {outs : List Outcome} (h : BlocksPassed settings treat owns bs s outs s') (hout : out ∈ outs) :
    ∃ k, BlockCalls settings treat owns bs s k ∧ k.out = out := by
  induction h with
  | nil => cases hout
  | cons hgoes _ ih =>
    rcases List.mem_cons.mp hout with rfl | hout
    · exact ⟨_, .first hgoes, rfl⟩
    · obtain ⟨k, hk, rfl⟩ := ih hout
      exact ⟨k, .later hgoes hk, rfl⟩

/-- What an operation that is called for releases, given where its blocks have theirs from. -/
theorem Call.Placed.source (h : e.Placed f settings final fuel b front rest) (hw : f.WellFormed)
    (howned : ∀ i ∈ e.held.owned, IndicatorOf f e.before.routine b i)
    (hinner : ∀ n (k : Transit), fuel = n + 1 → k.Placed f settings final n e.op →
      v ∈ k.out.released → Source f final.routine k.block v)
    (hv : v ∈ e.out.released) : Source f final.routine b v := by
  have hat := h.atOp
  obtain ⟨n, d, rfl, hd, hcase⟩ := h.cases hw
  cases hcase with
  | effects _ _ _ _ _ hreleased =>
    have hfrees := (hreleased v).mp hv
    obtain ⟨δ, hδ⟩ := hat.threaded.embedded
    obtain ⟨u, hu, -⟩ := hfrees.preimage hδ (hat.untouched.ops _ .refl).live
    rw [Frees, ← h.entry hw hu] at hfrees
    exact .freed hat.visited hat.parent (.inl rfl) hfrees
  | plain _ _ hnone =>
    rw [hnone] at hv
    exact absurd hv ValueSet.not_mem_empty
  | unknown _ _ hnone =>
    rw [hnone] at hv
    exact absurd hv ValueSet.not_mem_empty
  | construct kind site outs regions mid hkind hblocks hpassed _ hfrom _ _ hpass =>
    obtain ⟨pass⟩ := hpass
    have hbooked := pass.threaded.booked hw
    obtain ⟨-, -, hsource, -⟩ := transferOperands_ledger hbooked pass.transfers
    rcases hsource v hv with hv | hv
    · -- a region released it
      obtain ⟨region, hregion, hv⟩ := (pass.agrees.released v).mp hv
      rcases hfrom region hregion with hnone | hout
      · rw [hnone] at hv
        exact absurd hv ValueSet.not_mem_empty
      · obtain ⟨k, hk, hkout⟩ := hpassed.exists_outcome hout
        have hcons : f.isConstruct e.op = true := by simp [isConstruct_of hd, hkind]
        obtain ⟨-, -, bs₁, bs₂, _, _, hbs, -⟩ := hk.split hpassed
        have henters := hblocks.enters k.block (by simp [hbs])
        obtain ⟨-, outs', mid', hblocks', hpassed', hrest⟩ := h.passed hw hd henters
        rw [hcons] at hpassed'
        have hplaced : k.Placed f settings final n e.op := by
          apply hk.placed hw hblocks' h.cleared hcons.symm hpassed'
          exact fun _ => hrest k.block (henters.holder? hw.linked)
        have hunder : f.Under b k.block := .of_holder hat.parent (henters.holder? hw.linked)
        exact (hinner n k rfl hplaced (hkout ▸ hv)).mono hunder
    · exact .owned (.inl rfl) ((howned v hv).run (h.ahead hw) hat.threaded hw)

/-- What is released in a block was freed in it, or was owned by a block in it. -/
theorem Transit.Placed.source (h : k.Placed f settings final fuel o) (hw : f.WellFormed)
    (hv : v ∈ k.out.released) : Source f final.routine k.block v := by
  induction fuel using Nat.strongRecOn generalizing k o v with
  | ind fuel ih =>
    obtain ⟨pass⟩ := h.pass hw
    rw [pass.released] at hv
    apply (walk pass (P := fun held _ => ∀ v ∈ held.released, Source f final.routine k.block v) ?_
      (fun v hv => absurd hv ValueSet.not_mem_empty)).1 v hv
    intro e he hheld v hv
    rcases Holdings.mem_released_absorb hv with hv | hv
    · obtain ⟨front, rest, hcall⟩ := h.call hw he
      apply hcall.source hw (fun i hi => (h.within hw he i hi).1) _ hv
      intro n k' hn hk' hv'
      exact ih n (by omega) hk' hv'
    · exact hheld v hv

/-! ## What is declared outside -/

/-- What is recorded for a value that a block does not declare is not declared there either. -/
theorem Routine.Companion.outside (h : r.Companion v i) (hw : r.WellFormed)
    (hholder : r.holder? b = some o) (ho : r.Reached o) (hlist : r.opsOf b = front ++ rest)
    (hvis : r.Visible b front v) (hv : ¬ r.Declares b v) : ¬ r.Declares b i := by
  cases hvis with
  | argument harg => exact absurd (.inl harg) hv
  | earlier hp hres => exact absurd (.inr ⟨_, by simp [hlist, hp], hres⟩) hv
  | @enclosing _ c _ before after _ m hholder' hlist' hvis =>
    obtain rfl := Option.mem_unique hholder hholder'
    have hparent := (hw.linked.op_listed o c).mp (by simp [hlist'])
    -- the indicator is visible where the value is, before the operation that holds the block
    have hi := h.visible hw.linked hlist' (.inl (hw.linked.regionsOf_ne_nil hholder)) hvis
    obtain ⟨a, ha, hunder⟩ := hi.declared hw.linked fun p hp => by simp [hlist', hp]
    intro hb
    rw [hb.unique ha hw.linked] at hholder
    exact not_under_parent hw ho hparent hholder hunder

/-- What one block releases and another one sends was freed, and is not declared in the other. -/
theorem Source.outside (h : Source f s.routine a v) (ht : Threaded f s) (hw : f.WellFormed)
    (ho : f.Reached o) (ha : f.holder? a = some o) (hb : f.holder? b = some o) (hne : a ≠ b)
    (hlist : s.routine.opsOf b = front ++ [t]) (hreached : f.Reached t)
    (hlive : s.routine.isErased t = false) (hv : v ∈ s.routine.operandsOf t) :
    (∃ q c, f.Visited q ∧ f.parent? q = some c ∧ f.Under a c ∧ s.routine.Frees q v) ∧
      ¬ s.routine.Declares b v := by
  have hl := ht.wellFormed.linked
  obtain ⟨δ, hδ⟩ := ht.embedded
  cases h with
  | @freed q c hq hparent hunder hfrees =>
    refine ⟨⟨q, c, hq, hparent, hunder, hfrees⟩, fun hdeclares => ?_⟩
    -- it is visible where it is freed, so the block would be around that place
    obtain ⟨e, he, hfreed⟩ := id hfrees
    have hcons : f.isConstruct q = false := by
      obtain ⟨e', he', heffects⟩ := hfrees.effects
      rw [isConstruct, ← ht.kind? (hw.op?_of_reached (hq.reached hw.linked)), kind?_of he']
      simp [(Op.kind_of_effects heffects).1]
    have hq' := hδ.reached hw (hq.reached hw.linked)
    rw [hδ.change.op_eq_self hcons] at hq'
    obtain ⟨pre, post, hplace⟩ := List.append_of_mem ((hw.linked.op_listed q c).mpr hparent)
    obtain ⟨pre', post', hplace', -⟩ :=
      (hδ.change.carries hw.linked).lists c pre q post hplace (by simp [hδ.lossless])
    rw [hδ.change.op_eq_self hcons] at hplace'
    have hscope := ht.wellFormed.in_scope q hq' v
      (operandsOf_of he ▸ Op.mem_operands_of_mem_freed hfreed)
    obtain ⟨a', ha', hunder'⟩ := (hscope.visible hl hplace').declared hl
      fun p hp => by simp [hplace', hp]
    rw [hdeclares.unique ha' hl] at hb hne
    exact hunder.disjoint hw.root_unlinked ho ha hb hne (hδ.change.under hw.linked hl hunder')
  | @owned c hunder hindicator =>
    -- it is visible in one block and declared in another one beside it
    exfalso
    have hvis := ht.visible_operand hw hlist hreached hlive hv
    obtain ⟨a', ha', hunder'⟩ := hvis.declared hl fun p hp => by simp [hlist, hp]
    rw [ha'.unique hindicator.declared hl] at hunder'
    have hover := hunder.trans (hδ.change.under hw.linked hl hunder')
    exact hover.disjoint hw.root_unlinked ho ha hb hne (.inl rfl)

/-! ## Slots that are filled again -/

/-- The slot of a value among those that are sent, and the indicator that is recorded for it. -/
structure Fills (s : Session) (sent : List ValueId) (n : Nat) (v i : ValueId) : Prop where
  place : ∃ pre post, sent = pre ++ v :: post ∧ s.routine.bufferCount pre = n
  recorded : (v, i) ∈ s.aliases.indicators

theorem Fills.of_forgets {sent : List ValueId} {n : Nat} (h : Fills s' sent n v i)
    (hforgets : Forgets s s') : Fills s sent n v i :=
  ⟨hforgets.routine ▸ h.place, hforgets.indicators h.recorded⟩

/-- What capturing some values in a branch does to the indicators that the branch hands on. -/
structure Patched (s : Session) (sent values acquired acquired' displaced : List ValueId) :
    Prop where
  length : acquired'.length = acquired.length
  slots : ∀ (n : Nat) i, acquired'[n]? = some i →
    acquired[n]? = some i ∨ ∃ v ∈ values, Fills s sent n v i
  /-- What is displaced was in the slot of a value: from the beginning, or for another value. -/
  ousted : ∀ i ∈ displaced, ∃ n, ∃ v ∈ values, (∃ j, Fills s sent n v j) ∧
    (acquired[n]? = some i ∨ ∃ w ∈ values, w ≠ v ∧ Fills s sent n w i)
  stays : ∀ (n : Nat) i, acquired[n]? = some i → i ∈ displaced ∨ acquired'[n]? = some i
  nodup : (∀ v ∈ values, ∀ n i, Fills s sent n v i → i ∉ acquired) → acquired.Nodup →
    acquired'.Nodup

theorem Patched.refl (s : Session) (sent acquired : List ValueId) :
    Patched s sent [] acquired acquired [] where
  length := rfl
  slots _ _ := .inl
  ousted := by simp
  stays _ _ := .inr
  nodup _ := id

theorem Patched.of_forgets {sent values acquired acquired' displaced : List ValueId}
    (h : Patched s' sent values acquired acquired' displaced) (hforgets : Forgets s s') :
    Patched s sent values acquired acquired' displaced where
  length := h.length
  slots n i hi := by
    rcases h.slots n i hi with hi | ⟨v, hv, hfills⟩
    · exact .inl hi
    · exact .inr ⟨v, hv, hfills.of_forgets hforgets⟩
  ousted i hi := by
    obtain ⟨n, v, hv, ⟨j, hfills⟩, hslot⟩ := h.ousted i hi
    refine ⟨n, v, hv, ⟨j, hfills.of_forgets hforgets⟩, hslot.imp_right ?_⟩
    rintro ⟨w, hw, hne, hfills⟩
    exact ⟨w, hw, hne, hfills.of_forgets hforgets⟩
  stays := h.stays
  nodup hnew := h.nodup fun v hv n i hfills => hnew v hv n i (hfills.of_forgets hforgets)

section Captures

variable {site : ConstructSite} {k : RegionId}
variable {sent values acquired acquired' displaced : List ValueId}

/-- One value is captured: its slot is filled again, and its record is dropped. -/
theorem capture_fills (hsent : ∀ b bs vs, s.routine.blocksOf k = b :: bs →
      s.routine.sentByBlock b = .ok vs → vs = sent)
    (h : Pass.capture site k acquired v s = .ok ((acquired', i), s')) :
    ∃ n j, Fills s sent n v j ∧ acquired[n]? = some i ∧ acquired' = acquired.set n j ∧
      ∀ j, (v, j) ∉ s'.aliases.indicators := by
  obtain ⟨b, bs, yielded, slot, indicator, hblocks, hyields, hslot, hdisplaced, hindicator, rfl,
    -, hdropped⟩ := capture_eq_ok h
  obtain rfl := hsent b bs yielded hblocks hyields
  refine ⟨slot, indicator, ⟨yieldSlot?_eq_some hslot, AliasClasses.mem_indicators hindicator⟩,
    hdisplaced, rfl, fun j hj => ?_⟩
  rw [hdropped] at hj
  simp [AliasClasses.dropIndicator] at hj

theorem captureAll_patched (ht : Threaded f s) (hw : f.WellFormed)
    (hsent : ∀ b bs vs, s.routine.blocksOf k = b :: bs →
      s.routine.sentByBlock b = .ok vs → vs = sent)
    (h : Pass.captureAll site k values acquired s = .ok ((acquired', displaced), s')) :
    Patched s sent values acquired acquired' displaced := by
  induction values generalizing s acquired displaced with
  | nil =>
    obtain ⟨heq, rfl⟩ := Pass.pure_eq_ok.mp h
    obtain ⟨rfl, rfl⟩ := Prod.mk.inj heq
    exact .refl s sent acquired
  | cons v rest ih =>
    obtain ⟨acquired₁, i, others, mid, rfl, hfirst, hrest⟩ := Pass.captureAll_cons h
    have hforgets := capture_forgets hfirst
    obtain ⟨n, j, hfills, hi, rfl, hgone⟩ := capture_fills hsent hfirst
    have hpatched := ih (hforgets.threaded ht hw) (by rwa [hforgets.routine]) hrest
    have hlt := (List.getElem?_eq_some_iff.mp hi).1
    -- a slot of the list in between is the one that was filled, or it is as before
    have hslot : ∀ (m : Nat) l, (acquired.set n j)[m]? = some l →
        acquired[m]? = some l ∨ Fills s sent m v l := by
      intro m l hl
      by_cases hnm : n = m
      · subst hnm
        rw [List.getElem?_set_self hlt] at hl
        cases hl
        exact .inr hfills
      · rw [List.getElem?_set_ne hnm] at hl
        exact .inl hl
    refine ⟨by rw [hpatched.length, List.length_set], fun m l hl => ?_, fun l hl => ?_,
      fun m l hl => ?_, fun hnew hnodup => ?_⟩
    · rcases hpatched.slots m l hl with hl | ⟨w, hw', hw''⟩
      · exact (hslot m l hl).imp_right fun hv => ⟨v, by simp, hv⟩
      · exact .inr ⟨w, by simp [hw'], hw''.of_forgets hforgets⟩
    · rcases List.mem_cons.mp hl with rfl | hl
      · exact ⟨n, v, by simp, ⟨j, hfills⟩, .inl hi⟩
      · obtain ⟨m, w, hw', ⟨j', hw''⟩, hl⟩ := hpatched.ousted l hl
        refine ⟨m, w, by simp [hw'], ⟨j', hw''.of_forgets hforgets⟩, ?_⟩
        rcases hl with hl | ⟨u, hu, hne, hu'⟩
        · refine (hslot m l hl).imp_right fun hv => ⟨v, by simp, ?_, hv⟩
          -- nothing is recorded any more for the value that has been captured
          rintro rfl
          exact hgone j' hw''.recorded
        · exact .inr ⟨u, by simp [hu], hne, hu'.of_forgets hforgets⟩
    · by_cases hnm : n = m
      · subst hnm
        rw [hi] at hl
        cases hl
        exact .inl (by simp)
      · have hl' : (acquired.set n j)[m]? = some l := by rwa [List.getElem?_set_ne hnm]
        exact (hpatched.stays m l hl').imp_left (List.mem_cons_of_mem _)
    · have hj := hnew v (by simp) n j hfills
      apply hpatched.nodup _ (hnodup.set hj)
      intro w hw' m l hl hmem
      rcases List.mem_or_eq_of_mem_set hmem with hmem | rfl
      · exact hnew w (by simp [hw']) m l (hl.of_forgets hforgets) hmem
      · -- an indicator is recorded for one value, and the record of this one is gone
        have hwv := ht.distinct w v l (hforgets.indicators hl.recorded) hfills.recorded
        exact hgone l (hwv ▸ hl.recorded)

end Captures

/-! ## What is sent -/

section Sends

variable {outs : List RegionOutcome} {region : RegionOutcome} {u : Unit}

/-- A region has sent what it hands on: the last operation of its block has these operands more. -/
structure SentOn (s s' : Session) (region : RegionOutcome) : Prop where
  blocks : s'.routine.blocksOf = s.routine.blocksOf
  lists : s'.routine.opsOf = s.routine.opsOf
  sendable : ∀ out, Sendable s.routine out → Sendable s'.routine out
  last : ∀ b front t, s.routine.blocksOf region.region = [b] → s.routine.opsOf b = front ++ [t] →
    s'.routine.operandsOf t = s.routine.operandsOf t ++ region.outcome.acquired
  other : ∀ t, (∀ b front, s.routine.blocksOf region.region = [b] →
    s.routine.opsOf b ≠ front ++ [t]) → s'.routine.operandsOf t = s.routine.operandsOf t

theorem Sendable.sentOn (hsend : Sendable s.routine region)
    (h : Pass.sendAcquired region s = .ok (u, s')) : SentOn s s' region := by
  rcases hsend with ⟨hnone, -⟩ | ⟨b, front, t, hblock, hlist, hterm, -⟩
  · obtain rfl := sendAcquired_of_empty hnone h
    exact ⟨rfl, rfl, fun _ => id, by simp [hnone], fun _ _ => rfl⟩
  · obtain ⟨hedit, -⟩ := sendAcquired_eq_ok hblock hlist hterm h
    obtain ⟨d, hd, hr⟩ := appendOperands_eq_ok hedit
    refine ⟨by rw [hr]; rfl, by rw [hr]; rfl, fun _ hout => hout.appendOperands hedit,
      fun b' front' t' hblock' hlist' => ?_, fun t' hother => ?_⟩
    · obtain rfl : b = b' := by simpa [hblock] using hblock'
      obtain ⟨-, rfl⟩ : front = front' ∧ t = t' := by simpa [hlist] using hlist'
      rw [operandsOf_of (op?_appendOperands_self hedit hd), operandsOf_of hd]
    · have hne : t' ≠ t := fun he => hother b front hblock (he ▸ hlist)
      rw [Routine.operandsOf, op?_appendOperands_of_ne hedit hne]
      rfl

/-- Regions that end otherwise leave an operation as it is. -/
theorem sendAll_other (hsend : ∀ out ∈ outs, Sendable s.routine out)
    (hother : ∀ out ∈ outs, ∀ b front, s.routine.blocksOf out.region = [b] →
      s.routine.opsOf b ≠ front ++ [t])
    (h : outs.forM Pass.sendAcquired s = .ok (u, s')) :
    s'.routine.operandsOf t = s.routine.operandsOf t := by
  induction outs generalizing s with
  | nil => rw [(Pass.pure_eq_ok.mp h).2]
  | cons out rest ih =>
    obtain ⟨_, mid, hfirst, h⟩ := Pass.bind_eq_ok.mp h
    have hsent := (hsend out (by simp)).sentOn hfirst
    rw [ih (fun out hout => hsent.sendable out (hsend out (by simp [hout]))) ?_ h,
      hsent.other t (hother out (by simp))]
    rw [hsent.blocks, hsent.lists]
    exact fun out hout => hother out (by simp [hout])

/-- The last operation of a block sends what the region of the block hands on. -/
theorem sendAll_operands (hl : s.routine.Linked) (hsend : ∀ out ∈ outs, Sendable s.routine out)
    (hnodup : (outs.map (·.region)).Nodup) (h : outs.forM Pass.sendAcquired s = .ok (u, s'))
    (hregion : region ∈ outs) (hblock : s.routine.blocksOf region.region = [b])
    (hlist : s.routine.opsOf b = front ++ [t]) :
    s'.routine.operandsOf t = s.routine.operandsOf t ++ region.outcome.acquired := by
  -- different regions end with different operations
  have hdistinct : ∀ out : RegionOutcome, out.region ≠ region.region → ∀ c front',
      s.routine.blocksOf out.region = [c] → s.routine.opsOf c ≠ front' ++ [t] := by
    intro out hne c front' hblock' hlist'
    obtain rfl : b = c := hl.block_unique (o := t) (by simp [hlist]) (by simp [hlist'])
    have hhome := (hl.block_listed b _).mp (by rw [hblock]; simp)
    have hhome' := (hl.block_listed b _).mp (by rw [hblock']; simp)
    exact hne (Option.mem_unique hhome' hhome)
  clear hl
  induction outs generalizing s with
  | nil => cases hregion
  | cons out rest ih =>
    obtain ⟨_, mid, hfirst, hnext⟩ := Pass.bind_eq_ok.mp h
    obtain ⟨hfresh, hnodup⟩ := List.nodup_cons.mp hnodup
    have hsent := (hsend out (by simp)).sentOn hfirst
    have hsend' : ∀ out ∈ rest, Sendable mid.routine out :=
      fun out hout => hsent.sendable out (hsend out (by simp [hout]))
    rw [← hsent.blocks] at hdistinct
    rw [← hsent.lists] at hdistinct
    rcases List.mem_cons.mp hregion with rfl | hregion
    · rw [sendAll_other hsend' (fun out hout => hdistinct out fun he => ?_) hnext,
        hsent.last b front t hblock hlist]
      exact hfresh (List.mem_map.mpr ⟨out, hout, he⟩)
    · rw [ih hsend' hnodup hnext hregion (hsent.blocks ▸ hblock) (hsent.lists ▸ hlist) hdistinct,
        hsent.other t]
      rw [← hsent.blocks, ← hsent.lists]
      exact hdistinct out fun he => hfresh (List.mem_map.mpr ⟨region, hregion, he.symm⟩)

end Sends

end BufferOwnership
