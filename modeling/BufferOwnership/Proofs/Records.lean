import BufferOwnership.Proofs.Departures
import BufferOwnership.Proofs.Rejections

/-!
# What is recorded, and until when

An indicator is recorded for what an operation allocates, and for the buffer arguments of a block of
a construct (`Routine.Indicated`), but for no result of a construct or of a plain operation. Only a
capture drops a record, where one branch of a conditional frees the value and another one sends it
(`Routine.Captures`). This is shown for a transit and for a call, each from the other.
-/

namespace BufferOwnership

open Routine

/-- An indicator is recorded for a value. -/
def Session.Knows (s : Session) (v : ValueId) : Prop := ∃ i, (v, i) ∈ s.aliases.indicators

/-- A value gets an indicator of its own: an operation that is treated allocates it, or it is a
buffer among the arguments of a block of a treated construct. -/
def Routine.Indicated (f : Routine) (v : ValueId) : Prop :=
  (∃ b, f.AllocatedIn b v) ∨ ∃ b, f.Opened b ∧ v ∈ f.argsOf b ∧ f.holdsBuffer v = true

/-- A conditional captures a value: one of its branches sends the value, and another one frees
it. -/
def Routine.Captures (f : Routine) (o : OpId) (v : ValueId) : Prop :=
  f.Visited o ∧ f.isConditional o = true ∧ ∃ b body t, f.Enters o b ∧ f.opsOf b = body ++ [t] ∧
    v ∈ f.operandsOf t ∧ FreedBeside f f o b v

variable {f r r' : Routine} {s s' mid final : Session} {b : BlockId} {bs : List BlockId}
variable {o p q t : OpId} {front rest l : List OpId} {i u v w : ValueId} {g : RegionId} {d : Op}
variable {settings : Settings} {fuel n : Nat} {k : Transit} {c : Call} {site : ConstructSite}
variable {regions : List RegionOutcome} {treat : OpPass} {δ : Delta} {outs : List Outcome}
variable {owned : ValueSet} {indicators : List ValueId} {held held' : Holdings}

/-! ## Records -/

namespace Session

theorem indicatorOf?_eq_none_iff : s.aliases.indicatorOf? v = none ↔ ¬ s.Knows v := by
  rw [AliasClasses.indicatorOf?, List.lookup_eq_none_iff]
  constructor
  · rintro h ⟨i, hi⟩
    simpa using h _ hi
  · rintro h ⟨w, i⟩ hi
    have hne : v ≠ w := fun he => h ⟨i, he ▸ hi⟩
    simpa using hne

theorem Knows.of_indicators (h : s.Knows v)
    (hsame : s'.aliases.indicators = s.aliases.indicators) : s'.Knows v := by
  obtain ⟨i, hi⟩ := h
  exact ⟨i, hsame ▸ hi⟩

theorem knows_of_set (haliases : s'.aliases = s.aliases.setIndicator w i) :
    s'.Knows v ↔ v = w ∨ s.Knows v := by
  rw [Knows, haliases, AliasClasses.setIndicator, AliasClasses.indicators_union]
  by_cases hv : v = w
  · subst hv
    simp
  · simp [Knows, hv]

theorem knows_of_drop (haliases : s'.aliases = s.aliases.dropIndicator w) :
    s'.Knows v ↔ v ≠ w ∧ s.Knows v := by
  rw [Knows, haliases, AliasClasses.dropIndicator]
  by_cases hv : v = w
  · subst hv
    simp
  · simp [Knows, hv]

end Session

theorem ownAll_knows {point : InsertPoint} {buffers : List ValueId}
    (h : Pass.ownAll point buffers s = .ok (indicators, s')) :
    s'.Knows v ↔ v ∈ buffers ∨ s.Knows v := by
  induction buffers generalizing s indicators with
  | nil =>
    cases h
    simp
  | cons w buffers ih =>
    obtain ⟨i, others, mid, -, hown, hothers⟩ := Pass.ownAll_cons h
    rw [ih hothers, Session.knows_of_set (Pass.own_eq_ok hown).2.1, List.mem_cons]
    tauto

theorem ownArguments_knows {args : List ValueId} {owned' : ValueSet}
    (h : Pass.ownArguments b args owned s = .ok (owned', s')) :
    s'.Knows v ↔ v ∈ args ∨ s.Knows v := by
  induction args generalizing s owned with
  | nil =>
    cases h
    simp
  | cons w args ih =>
    obtain ⟨i, mid, hedit, h⟩ := Pass.bind_eq_ok.mp h
    obtain ⟨r₁, -, rfl⟩ := Pass.edit_eq_ok.mp hedit
    obtain ⟨_, mid, hrecord, h⟩ := Pass.bind_eq_ok.mp h
    rw [ih h, Session.knows_of_set (s := s) (Pass.modifyAliases_eq_ok hrecord).2, List.mem_cons]
    tauto

/-- When a block is opened nothing is dropped, and the buffer arguments that it owns get records. -/
theorem openBlock_knows {ownsInputs : Bool} (h : Pass.openBlock b ownsInputs s = .ok (owned, s')) :
    (s.Knows v → s'.Knows v) ∧ (ownsInputs = true → v ∈ s.routine.argsOf b →
      s.routine.holdsBuffer v = true → s'.Knows v) := by
  unfold Pass.openBlock at h
  split at h
  · obtain ⟨args, hquery, h⟩ := Pass.ask_bind_eq_ok.mp h
    obtain ⟨B, hB, hbuffers⟩ := bind_eq_ok.mp hquery
    have hargs := buffers_eq_ok hbuffers
    rw [← block_argsOf hB] at hargs
    rw [ownArguments_knows h, hargs]
    exact ⟨.inr, fun _ harg hbuffer => .inl (List.mem_filter.mpr ⟨harg, hbuffer⟩)⟩
  · rename_i howns
    cases h
    exact ⟨id, fun h => absurd h howns⟩

/-! ### The end of a block -/

section Closing

variable {acquired : List ValueId}

/-- The end of a block leaves all records as they are. -/
theorem closeBlock_indicators (h : Pass.closeBlock settings t owned s = .ok (acquired, s')) :
    s'.aliases.indicators = s.aliases.indicators := by
  obtain ⟨escaping, mid₁, settled, mid₂, -, hrelease, hsettle, hfill⟩ := Pass.closeBlock_eq_ok h
  have hreleased : mid₁.aliases = s.aliases :=
    Pass.releaseUnescaped_chain (R := fun s s' => s'.aliases = s.aliases) (fun _ => rfl)
      (fun h h' => h'.trans h) (fun _ _ _ hretain => (Pass.retain_eq_ok hretain).2) hrelease
  have hsettled : mid₂.aliases.indicators = mid₁.aliases.indicators := by
    refine Pass.settleGroups_chain (R := fun s s' => s'.aliases.indicators = s.aliases.indicators)
      (fun _ => rfl) (fun h h' => h'.trans h) (fun _ hgroup => ?_) hsettle
    rcases Pass.settleGroup_eq_ok hgroup with ⟨-, -, rfl⟩ | ⟨x, mid, -, -, haliases, -⟩
    · rfl
    · rw [haliases, AliasClasses.indicators_unionAll]
  have hfilled : s'.aliases = mid₂.aliases :=
    Pass.fillSlots_chain (R := fun s s' => s'.aliases = s.aliases) (fun _ => rfl)
      (fun h h' => h'.trans h) (fun hnull => (Pass.null_eq_ok hnull).2.1) hfill
  rw [hfilled, hsettled, hreleased]

end Closing

/-! ## What captures drop -/

/-- The block of a region sends a value. -/
def SentBy (s : Session) (g : RegionId) (v : ValueId) : Prop :=
  ∃ b bs sent, s.routine.blocksOf g = b :: bs ∧ s.routine.sentByBlock b = .ok sent ∧ v ∈ sent

/-- One region of a construct releases a value. Another one does not, but sends it. -/
def Divided (s : Session) (regions : List RegionOutcome) (v : ValueId) : Prop :=
  ∃ one ∈ regions, ∃ other ∈ regions, v ∈ one.outcome.released ∧ v ∉ other.outcome.released ∧
    SentBy s other.region v

section Captures

variable {values acquired acquired' displaced : List ValueId} {name : String}

/-- A value that is captured is sent, and of all records only its own is dropped. -/
theorem capture_knows (h : Pass.capture site g acquired w s = .ok ((acquired', i), s')) :
    SentBy s g w ∧ (s'.Knows v ↔ v ≠ w ∧ s.Knows v) := by
  obtain ⟨b, bs, sent, slot, indicator, hblocks, hsent, hslot, -, -, -, -, hdropped⟩ :=
    capture_eq_ok h
  obtain ⟨pre, post, hsplit, -⟩ := yieldSlot?_eq_some hslot
  exact ⟨⟨b, bs, sent, hblocks, hsent, by simp [hsplit]⟩, Session.knows_of_drop hdropped⟩

/-- Where a record is missing, the value is sent nevertheless. -/
theorem capture_missing (h : Pass.capture site g acquired w s =
    .error (.rejected (.missingIndicator o name v))) :
    o = site.op ∧ v = w ∧ SentBy s g v ∧ ¬ s.Knows v := by
  obtain ⟨G, _, hask, h⟩ := (Pass.Sure.ask _).passes h
  obtain ⟨hG, rfl⟩ := Pass.ask_eq_ok.mp hask
  have hblocks := region_blocksOf hG
  cases hlist : G.blocks with
  | nil =>
    rw [hlist] at h
    cases h
  | cons b bs =>
    rw [hlist] at h hblocks
    obtain ⟨sent, _, hask, h⟩ := (Pass.Sure.ask _).passes h
    obtain ⟨hsent, rfl⟩ := Pass.ask_eq_ok.mp hask
    obtain ⟨slot?, _, hask, h⟩ := (Pass.Sure.ask _).passes h
    obtain ⟨hslot, rfl⟩ := Pass.ask_eq_ok.mp hask
    cases slot? with
    | none => cases h
    | some slot =>
      cases hdisplaced : acquired[slot]? with
      | none =>
        simp only [hdisplaced] at h
        cases h
      | some displaced =>
        simp only [hdisplaced] at h
        obtain ⟨classes, _, haliases, h⟩ := Pass.Sure.aliases.passes h
        obtain ⟨rfl, rfl⟩ := Pass.aliases_eq_ok haliases
        cases hindicator : s.aliases.indicatorOf? w with
        | none =>
          -- the only place where a record is asked for
          simp only [hindicator] at h
          cases h
          obtain ⟨pre, post, hsplit, -⟩ := yieldSlot?_eq_some hslot
          exact ⟨rfl, rfl, ⟨b, bs, sent, hblocks, hsent, by simp [hsplit]⟩,
            Session.indicatorOf?_eq_none_iff.mp hindicator⟩
        | some indicator =>
          simp only [hindicator] at h
          exact absurd h (((Pass.Sure.modifyAliases _).bind fun _ => .pure _) s _)

theorem captureAll_knows
    (h : Pass.captureAll site g values acquired s = .ok ((acquired', displaced), s'))
    (hv : s.Knows v) : s'.Knows v ∨ (v ∈ values ∧ SentBy s g v) := by
  induction values generalizing s acquired displaced with
  | nil =>
    cases h
    exact .inl hv
  | cons w rest ih =>
    obtain ⟨acquired₁, i, others, mid, -, hfirst, hrest⟩ := Pass.captureAll_cons h
    obtain ⟨hsent, hknows⟩ := capture_knows (v := v) hfirst
    by_cases hne : v = w
    · exact .inr ⟨by simp [hne], hne ▸ hsent⟩
    · refine (ih hrest (hknows.mpr ⟨hne, hv⟩)).imp_right fun ⟨hmem, hsent⟩ => ?_
      rw [SentBy, (capture_forgets hfirst).routine] at hsent
      exact ⟨List.mem_cons_of_mem _ hmem, hsent⟩

theorem captureAll_missing (hnodup : values.Nodup)
    (h : Pass.captureAll site g values acquired s =
      .error (.rejected (.missingIndicator o name v))) :
    o = site.op ∧ v ∈ values ∧ SentBy s g v ∧ ¬ s.Knows v := by
  induction values generalizing s acquired with
  | nil => cases h
  | cons w rest ih =>
    obtain ⟨hw, hnodup⟩ := List.nodup_cons.mp hnodup
    rcases Pass.bind_eq_error h with h | ⟨⟨acquired₁, i⟩, mid, hfirst, h⟩
    · obtain ⟨hop, rfl, hsent, hunknown⟩ := capture_missing h
      exact ⟨hop, by simp, hsent, hunknown⟩
    · rcases Pass.bind_eq_error h with h | ⟨_, _, -, h⟩
      · obtain ⟨hop, hmem, hsent, hunknown⟩ := ih hnodup h
        -- the record that was dropped before is another one
        have hne : v ≠ w := fun he => hw (he ▸ hmem)
        rw [SentBy, (capture_forgets hfirst).routine] at hsent
        rw [(capture_knows hfirst).2] at hunknown
        exact ⟨hop, List.mem_cons_of_mem _ hmem, hsent, fun hv => hunknown ⟨hne, hv⟩⟩
      · cases h

/-- Bringing regions to agree drops records of divided values only. -/
theorem reconcile_knows {agreed : Reconciled}
    (h : Pass.reconcile site regions s = .ok (agreed, s')) (hv : s.Knows v) :
    s'.Knows v ∨ Divided s regions v := by
  cases reconcile_eq_ok h with
  | same _ _ => exact .inl hv
  | @captures first second mid _ _ _ _ _ hsecond hfirst =>
    rcases captureAll_knows hsecond hv with hmid | ⟨hmem, hsent⟩
    · refine (captureAll_knows hfirst hmid).imp_right fun ⟨hmem, hsent⟩ => ?_
      obtain ⟨hin, hout⟩ := ValueSet.mem_diff.mp hmem
      rw [SentBy, (captureAll_forgets hsecond).routine] at hsent
      exact ⟨second, by simp, first, by simp, hin, hout, hsent⟩
    · obtain ⟨hin, hout⟩ := ValueSet.mem_diff.mp hmem
      exact .inr ⟨first, by simp, second, by simp, hin, hout, hsent⟩

/-- If a record is missing, then that of a divided value. -/
theorem reconcile_missing (h : Pass.reconcile site regions s =
    .error (.rejected (.missingIndicator o name v))) :
    o = site.op ∧ Divided s regions v ∧ ¬ s.Knows v := by
  unfold Pass.reconcile at h
  split at h
  · cases h
  · split at h
    · rename_i first second _
      simp only [Pass.reconcilePair] at h
      split at h
      · cases h
      · rcases Pass.bind_eq_error h with h | ⟨⟨_, _⟩, mid, hsecond, h⟩
        · obtain ⟨hop, hmem, hsent, hunknown⟩ := captureAll_missing (ValueSet.nodup_toList _) h
          obtain ⟨hin, hout⟩ := ValueSet.mem_diff.mp hmem
          exact ⟨hop, ⟨first, by simp, second, by simp, hin, hout, hsent⟩, hunknown⟩
        · rcases Pass.bind_eq_error h with h | ⟨_, _, -, h⟩
          · obtain ⟨hop, hmem, hsent, hunknown⟩ := captureAll_missing (ValueSet.nodup_toList _) h
            obtain ⟨hin, hout⟩ := ValueSet.mem_diff.mp hmem
            rw [SentBy, (captureAll_forgets hsecond).routine] at hsent
            refine ⟨hop, ⟨second, by simp, first, by simp, hin, hout, hsent⟩, fun hv => ?_⟩
            -- what the other region captured is released by this one
            rcases captureAll_knows hsecond hv with hv | ⟨hmem, -⟩
            · exact hunknown hv
            · exact hout (ValueSet.mem_diff.mp hmem).1
          · cases h
    · cases h

end Captures

/-! ## Names of what is captured -/

namespace Change

variable (h : Change r r' δ)
include h

/-- A value with a new name is a result of a renamed operation, at the same place as before. -/
theorem exists_moved (hne : δ.value u ≠ u) : ∃ p, ∃ n : Nat, δ.op p ≠ p ∧
    (r.resultsOf p)[n]? = some u ∧ (r'.resultsOf (δ.op p))[n]? = some (δ.value u) := by
  obtain ⟨p, hp, hu⟩ := h.moved u hne
  obtain ⟨n, hn⟩ := List.mem_iff_getElem?.mp hu
  obtain ⟨d, e, hd, he, hgrown⟩ := h.image_of_renamed hp
  obtain ⟨extra, hresults, -⟩ := hgrown.results
  refine ⟨p, n, hp, hn, ?_⟩
  rw [resultsOf_of hd] at hn
  have hlt := (List.getElem?_eq_some_iff.mp hn).1
  rw [resultsOf_of he, hresults, List.getElem?_append_left (by simpa using hlt), List.getElem?_map,
    hn]
  rfl

/-- Only results of constructs get new names. -/
theorem exists_construct (hne : δ.value u ≠ u) :
    ∃ p, r.isConstruct p = true ∧ u ∈ r.resultsOf p := by
  obtain ⟨p, hp, hu⟩ := h.moved u hne
  refine ⟨p, ?_, hu⟩
  by_contra hcons
  exact hp (h.op_eq_self (by simpa using hcons))

/-- A new name is none that there was before. -/
theorem eq_of_value_known (hl : r.Linked) (hl' : r'.Linked) (hv : v.index < r.values.size)
    (hu : δ.value u = v) : u = v := by
  by_contra hne
  obtain ⟨p, n, hp, -, hn⟩ := h.exists_moved fun he => hne (he.symm.trans hu)
  rw [hu, hl'.result_listed] at hn
  obtain ⟨V, hV⟩ := exists_value? hv
  rw [origin?_of (h.value v V hV), ← origin?_of hV, ← hl.result_listed] at hn
  -- the operation with the new name would have been there before
  obtain ⟨d, hd, -⟩ := exists_op?_of_mem_resultsOf (List.mem_of_getElem? hn)
  rw [(h.renamed p hp).2.2.1] at hd
  cases hd

/-- Different values have different names. -/
theorem value_injective (hl : r.Linked) (hl' : r'.Linked) (hu : u.index < r.values.size)
    (hw : w.index < r.values.size) (heq : δ.value u = δ.value w) : u = w := by
  by_cases hmu : δ.value u = u
  · exact (h.eq_of_value_known hl hl' hu (heq.symm.trans hmu)).symm
  by_cases hmw : δ.value w = w
  · exact h.eq_of_value_known hl hl' hw (heq.trans hmw)
  obtain ⟨p, n, hp, hn, hn'⟩ := h.exists_moved hmu
  obtain ⟨q, m, hq, hm, hm'⟩ := h.exists_moved hmw
  rw [heq, hl'.result_listed] at hn'
  rw [hl'.result_listed, hn'] at hm'
  obtain ⟨hop, rfl⟩ := ValueOrigin.result.inj (Option.some.inj hm')
  have hentry : ∀ {x}, δ.op x ≠ x → r.op? x ≠ none := fun hx => by
    obtain ⟨d, -, hd, -⟩ := h.image_of_renamed hx
    simp [hd]
  obtain rfl := h.injective p q hop (hentry hp) (hentry hq)
  exact Option.mem_unique hn hm

end Change

namespace Routine.Indicated

theorem known (h : f.Indicated v) (hl : f.Linked) : v.index < f.values.size := by
  rcases h with ⟨b, halloc⟩ | ⟨b, -, harg, -⟩
  · obtain ⟨p, -, -, hv⟩ := halloc.result
    exact Visible.known hl (.earlier (List.mem_singleton_self p) hv : f.Visible b [p] v)
  · exact Visible.known hl (.argument harg : f.Visible b [] v)

/-- What gets an indicator of its own keeps its name. -/
theorem value (h : f.Indicated v) (hδ : Embedding f r δ) (hl : f.Linked) : δ.value v = v := by
  rcases h with ⟨b, halloc⟩ | ⟨b, -, harg, -⟩
  · obtain ⟨p, -, hcons, hv⟩ := halloc.result
    exact hδ.change.value_result hl (hδ.change.op_eq_self hcons) hv
  · exact hδ.change.value_arg hl harg

end Routine.Indicated

/-! ## Divided values are captured -/

/-- Regions of a construct that are not the same have different blocks. -/
theorem RegionsPassed.block_ne {one other : RegionOutcome} {c : BlockId}
    (h : RegionsPassed f settings treat d.regions s regions mid) (hl : f.Linked)
    (hd : f.op? o = some d) (hone : one ∈ regions) (hother : other ∈ regions) (hne : one ≠ other)
    (hb : f.blocksOf one.region = [b]) (hc : f.blocksOf other.region = [c]) : b ≠ c := by
  rintro rfl
  have hhome := (hl.block_listed b one.region).mp (by simp [hb])
  have hhome' := (hl.block_listed b other.region).mp (by simp [hc])
  have hdistinct : (regions.map (·.region)).Nodup := by
    rw [h.sited.regions, ← regionsOf_of hd]
    exact hl.regions_nodup o
  exact hne (List.inj_on_of_nodup_map hdistinct hone hother
    (Option.mem_unique hhome hhome'))

/-- What is freed and used under later names is freed and used under the first ones. -/
theorem Embedding.freed_and_used (hδ : Embedding f r δ) (hw : f.WellFormed) (hr : r.WellFormed)
    (hq : f.Reached q) (hfrees : r.Frees q v) (ht : f.Reached t) (hintact : Intact f r t)
    (hv : v ∈ r.operandsOf t) : ∃ u, δ.value u = v ∧ f.Frees q u ∧ u ∈ f.operandsOf t := by
  have hlive : r.isErased q = false := by
    -- an operation with effects is no construct, so it keeps its own name
    have himage := hδ.reached hw hq
    rw [hδ.change.op_eq_self] at himage
    · exact hr.live q himage
    · obtain ⟨e, he, heffects⟩ := hfrees.effects
      rw [isConstruct, ← hδ.change.keeps.kind?_eq (hw.op?_of_reached hq), kind?_of he]
      simp [(Op.kind_of_effects heffects).1]
  obtain ⟨u, hu, hname⟩ := hfrees.preimage hδ hlive
  obtain ⟨e, he⟩ := Option.ne_none_iff_exists'.mp (hw.op?_of_reached ht)
  rw [operandsOf_of (hδ.intact_entry he hintact).1] at hv
  obtain ⟨w, hw', hname'⟩ := List.mem_map.mp hv
  have hused : w ∈ f.operandsOf t := operandsOf_of he ▸ hw'
  have hknown : u.index < f.values.size := by
    obtain ⟨e', he', hfreed⟩ := id hu
    exact hw.known q u (operandsOf_of he' ▸ Op.mem_operands_of_mem_freed hfreed)
  obtain rfl := hδ.change.value_injective hw.linked hr.linked (hw.known _ _ hused) hknown
    (hname'.trans hname.symm)
  exact ⟨w, hname, hu, hused⟩

/-- If all regions of a construct have been gone through and a value is divided between them, then
the construct captures the value, under its first name. -/
theorem Divided.captures {kind : ConstructKind} (h : Divided mid regions v) (hw : f.WellFormed)
    (hd : f.op? o = some d) (hkind : d.kind.construct? = some kind)
    (hat : AtBlocks f s o (d.regions.flatMap f.blocksOf)) (hcleared : Cleared f s.routine o)
    (hregions : RegionsPassed f settings (Pass.throughOpWithin settings n) d.regions s regions mid)
    (hloop : kind = .loop → ∀ region ∈ regions, region.outcome.released = ∅) :
    ∃ δ u, Embedding f mid.routine δ ∧ δ.value u = v ∧ f.Captures o u := by
  obtain ⟨one, hone, other, hother, hv, hnot, b, bs, sent, hblocks, hsent, hmem⟩ := h
  have hcons : f.isConstruct o = true := by simp [isConstruct_of hd, hkind]
  have hreached := hat.visited.reached hw.linked
  have ht : Threaded f mid := by
    obtain ⟨outs, hpassed, -⟩ := hregions.blocks
    exact hat.threaded.run hw (hpassed.run (throughOpWithin_spec hw settings n) hw hat fun _ =>
      hcons)
  -- the two regions have a block each, and these are different
  rcases hregions.transit hw hat hcleared hcons hone with
    ⟨-, hnone⟩ | ⟨k, -, -, hk, hkblock, hkout, -, -⟩
  · rw [hnone] at hv
    exact absurd hv ValueSet.not_mem_empty
  have hk := hk mid .refl
  rw [ht.blocksOf] at hblocks
  rcases hregions.transit hw hat hcleared hcons hother with
    ⟨hnone, -⟩ | ⟨l, F, -, hl, hlblock, -, hrun, havoids⟩
  · rw [hnone] at hblocks
    cases hblocks
  have hl := hl mid .refl
  obtain ⟨rfl, -⟩ := List.cons.inj (hlblock.symm.trans hblocks)
  have hne : k.block ≠ l.block := hregions.block_ne hw.linked hd hone hother
    (fun he => hnot (he ▸ hv)) hkblock hlblock
  -- what is released in the one and sent by the other was freed in the one
  obtain ⟨pass⟩ := hl.pass hw
  obtain ⟨⟨front, hclosed⟩, -⟩ := hl.closed hw pass hrun havoids
  rw [hclosed.sentByBlock hsent] at hmem
  obtain ⟨⟨q, a, hq, hparent, hunder, hfrees⟩, -⟩ := (hk.source hw (hkout ▸ hv)).outside ht hw
    hreached (hk.holder? hw) (hl.holder? hw) hne hclosed.list hclosed.reached hclosed.last.live hmem
  obtain ⟨δ, hδ⟩ := ht.embedded
  obtain ⟨u, hname, hu, hsent⟩ := hδ.freed_and_used hw ht.wellFormed (hq.reached hw.linked) hfrees
    hclosed.reached hclosed.last hmem
  refine ⟨δ, u, hδ, hname, hat.visited, ?_, l.block, _, _, hl.enters, pass.original, hsent, k.block,
    q, a, hk.enters, hne, hq, hparent, hunder, hu⟩
  -- nothing is released in a loop
  cases kind with
  | loop =>
    rw [hloop rfl one hone] at hv
    exact absurd hv ValueSet.not_mem_empty
  | conditional => simp [isConditional, kind?_of hd, hkind]

/-! ## How long a record stays -/

/-- A conditional captures a value: an operation itself, or one inside it. -/
def Routine.CapturedIn (f : Routine) (p : OpId) (v : ValueId) : Prop :=
  ∃ o, f.Inside p o ∧ f.Captures o v

theorem Routine.CapturedIn.outward (h : f.CapturedIn q v) (hin : f.Inside p q) :
    f.CapturedIn p v := by
  obtain ⟨o, ho, hcaptures⟩ := h
  exact ⟨o, hin.trans ho, hcaptures⟩

/-- A session knows a value, unless it was captured in the course of treating some operations. -/
def Retains (f : Routine) (l : List OpId) (v : ValueId) (s : Session) : Prop :=
  s.Knows v ∨ ∃ q ∈ l, f.CapturedIn q v

theorem Retains.mono {l' : List OpId} (h : Retains f l v s) (hsub : ∀ q ∈ l, q ∈ l') :
    Retains f l' v s :=
  h.imp_right fun ⟨q, hq, hcaptured⟩ => ⟨q, hsub q hq, hcaptured⟩

/-- Operations are treated in order, and a value is known at first or after one of them. -/
theorem throughOps_retains
    (hkeeps : ∀ c, OpCalls treat l held s c → c.before.Knows v → c.after.Knows v ∨ f.CapturedIn
      c.op v) (hknows : s.Knows v ∨ ∃ c, OpCalls treat l held s c ∧ c.after.Knows v)
    (h : Pass.throughOps treat l held s = .ok (held', s')) : Retains f l v s' := by
  induction l generalizing s held with
  | nil =>
    cases h
    rcases hknows with hknows | ⟨c, hc, -⟩
    · exact .inl hknows
    · cases hc
  | cons p l ih =>
    obtain ⟨out, mid, hout, h⟩ := throughOps_cons h
    have hrest : (mid.Knows v ∨ ∃ c, OpCalls treat l (held.absorb mid.aliases out) mid c ∧
        c.after.Knows v) → Retains f (p :: l) v s' := fun hknows =>
      (ih (fun c hc => hkeeps c (.later hout hc)) hknows h).mono fun q => List.mem_cons_of_mem p
    rcases hknows with hknows | ⟨c, hc, hknows⟩
    · rcases hkeeps _ (.first hout) hknows with hknows | hcaptured
      · exact hrest (.inl hknows)
      · exact .inr ⟨p, List.mem_cons_self, hcaptured⟩
    · cases hc with
      | first hout' =>
        cases hout.symm.trans hout'
        exact hrest (.inl hknows)
      | later hout' hc =>
        cases hout.symm.trans hout'
        exact hrest (.inr ⟨c, hc, hknows⟩)

/-- The operations that are treated in going through blocks. -/
def Routine.bodies (f : Routine) (bs : List BlockId) : List OpId :=
  bs.flatMap fun b => (f.opsOf b).dropLast

theorem Routine.mem_bodies :
    q ∈ f.bodies bs ↔ ∃ b ∈ bs, q ∈ (f.opsOf b).dropLast := List.mem_flatMap

/-- What is treated in going through blocks of an operation stands right inside the operation. -/
theorem AtBlocks.up? (hat : AtBlocks f s o bs) (hl : f.Linked)
    (hq : q ∈ f.bodies bs) : f.up? q = some o := by
  obtain ⟨b, hb, hq⟩ := mem_bodies.mp hq
  have hparent := (hl.op_listed q b).mp (List.mem_of_mem_dropLast hq)
  exact (up?_of_parent? hparent).trans (hat.holder? hl b hb)

/-- Blocks are gone through in order, and a value is known at first. -/
theorem BlocksPassed.retains {owns : Bool} (h : BlocksPassed settings treat owns bs s outs s')
    (hkeeps : ∀ k, BlockCalls settings treat owns bs s k → k.before.Knows v → Retains f (f.opsOf
      k.block).dropLast v k.after) (hknows : s.Knows v) : Retains f (f.bodies bs) v s' := by
  induction h with
  | nil => exact .inl hknows
  | @cons b rest _ _ _ _ _ hgoes _ ih =>
    rcases hkeeps _ (.first hgoes) hknows with hknows | hcaptured
    · refine (ih (fun k hk => hkeeps k (.later hgoes hk)) hknows).mono fun q hq => ?_
      exact List.mem_append_right _ hq
    · exact Retains.mono (.inr hcaptured) fun q hq => List.mem_append_left _ hq

/-- The session knows what an operation has just allocated. -/
theorem Call.Placed.records (h : c.Placed f settings final fuel b front rest) (hw : f.WellFormed)
    (hd : f.op? c.op = some d) (hv : v ∈ d.allocated) : c.after.Knows v := by
  obtain ⟨n, e, -, he, hcase⟩ := h.cases hw
  obtain rfl := Option.mem_unique hd he
  have hclass := Op.classify_of_effects (.inl (List.ne_nil_of_mem hv))
  cases hcase with
  | effects _ _ _ _ hown => exact (ownAll_knows hown).mpr (.inl hv)
  | plain _ hplain => exact absurd (hclass.symm.trans hplain) (by simp)
  | unknown _ hunknown => exact absurd (hclass.symm.trans hunknown) (by simp)
  | construct kind _ _ _ _ hkind =>
    rw [(Op.kind_of_effects (.inl (List.ne_nil_of_mem hv))).1] at hkind
    cases hkind

section Keeps

variable (hw : f.WellFormed) (hv : v.index < f.values.size)
include hw

/-- Blocks of an operation are gone through, and what holds of a single one is known. -/
theorem AtBlocks.retains_of (hat : AtBlocks f s o bs) (hcleared : Cleared f s.routine o)
    (hinner : ∀ final k, Transit.Placed f settings final n k o → k.before.Knows v → Retains f
      (f.opsOf k.block).dropLast v k.after)
    (hpassed : BlocksPassed settings (Pass.throughOpWithin settings n) (f.isConstruct o) bs s outs
      mid) (hknows : s.Knows v) : Retains f (f.bodies bs) v mid := by
  refine hpassed.retains (fun k hk => hinner mid k ?_) hknows
  exact hk.placed hw hat hcleared rfl hpassed fun _ => .refl

include hv

/-- While an operation is treated, records of first values stay but for what is captured there. -/
theorem Call.Placed.keeps_of (h : c.Placed f settings final (n + 1) b front rest)
    (hinner : ∀ final k, Transit.Placed f settings final n k c.op → k.before.Knows v →
      Retains f (f.opsOf k.block).dropLast v k.after)
    (hknows : c.before.Knows v) : c.after.Knows v ∨ f.CapturedIn c.op v := by
  obtain ⟨_, d, hfuel, hd, hcase⟩ := h.cases hw
  obtain rfl : n = _ := Nat.succ.inj hfuel
  -- what is captured in a block is captured inside the operation
  have hblocks : ∀ {outs mid}, AtBlocks f c.before c.op (d.regions.flatMap f.blocksOf) →
      BlocksPassed settings (Pass.throughOpWithin settings n) (f.isConstruct c.op)
        (d.regions.flatMap f.blocksOf) c.before outs mid →
      mid.Knows v ∨ f.CapturedIn c.op v := by
    intro outs mid hat hpassed
    refine (hat.retains_of hw h.cleared hinner hpassed hknows).imp_right ?_
    rintro ⟨q, hq, hcaptured⟩
    exact hcaptured.outward (.single (hat.up? hw.linked hq))
  cases hcase with
  | effects _ _ _ _ hown => exact .inl ((ownAll_knows hown).mpr (.inr hknows))
  | plain pairs _ _ _ haliases =>
    exact .inl (hknows.of_indicators (by rw [haliases, AliasClasses.indicators_unionAll]))
  | unknown outs hclass _ hat hpassed =>
    exact hblocks hat (isConstruct_of_unknown hd hclass ▸ hpassed)
  | construct kind site outs regions mid hkind hat hpassed _ hfrom _ hloop hpass hregions =>
    obtain ⟨pass⟩ := hpass
    have hcons : f.isConstruct c.op = true := by simp [isConstruct_of hd, hkind]
    rcases hblocks hat (hcons ▸ hpassed) with hknows | hcaptured
    · rcases reconcile_knows pass.reconciles hknows with hknows | hdivided
      · -- what follows only joins classes
        obtain ⟨pairs, -, hjoins⟩ := pass.joins
        refine .inl (hknows.of_indicators ?_)
        rw [hjoins, AliasClasses.indicators_unionAll, pass.aliases]
      · -- the capture is one of the value itself, since new names are other ones
        obtain ⟨δ, u, hδ, hu, hcaptures⟩ := hdivided.captures hw hd hkind hat h.cleared hregions
          fun hk region hmem => by
            rcases hfrom region hmem with hnone | hout
            · rw [hnone]
              rfl
            · exact hloop hk _ hout
        have ht := h.atOp.threaded.run hw
          (hpassed.run (throughOpWithin_spec hw settings n) hw hat fun _ => hcons)
        obtain rfl := hδ.change.eq_of_value_known hw.linked ht.wellFormed.linked hv hu
        exact .inr ⟨c.op, .refl, hcaptures⟩
    · exact .inr hcaptured

/-- One block is gone through. -/
theorem Transit.Placed.keeps (h : k.Placed f settings final n o) (hknows : k.before.Knows v) :
    Retains f (f.opsOf k.block).dropLast v k.after := by
  induction n using Nat.strongRecOn generalizing k o final with
  | ind n ih =>
    obtain ⟨pass⟩ := h.pass hw
    have hbody : (f.opsOf k.block).dropLast = pass.body := by simp [pass.original]
    have hwalked : Retains f pass.body v pass.walked := by
      refine throughOps_retains (fun c hc => ?_) (.inl ((openBlock_knows pass.opens).1 hknows))
        pass.walks
      obtain ⟨front, rest, hcall⟩ := h.call hw (pass.calls hc)
      obtain ⟨m, d, rfl, -⟩ := hcall.cases hw
      exact hcall.keeps_of hw hv fun _ _ hk => ih m (Nat.lt_succ_self m) hk
    rw [hbody]
    exact hwalked.imp_left fun hknows => hknows.of_indicators (closeBlock_indicators pass.closes)

/-- A first value's record stays while an operation is treated, but for captures there. -/
theorem Call.Placed.keeps (h : c.Placed f settings final n b front rest)
    (hknows : c.before.Knows v) : c.after.Knows v ∨ f.CapturedIn c.op v := by
  obtain ⟨m, d, rfl, -⟩ := h.cases hw
  exact h.keeps_of hw hv (fun _ _ hk => hk.keeps hw hv) hknows

/-- It stays while blocks of an operation are gone through. -/
theorem AtBlocks.retains (hat : AtBlocks f s o bs) (hcleared : Cleared f s.routine o)
    (hpassed : BlocksPassed settings (Pass.throughOpWithin settings n) (f.isConstruct o) bs s outs
      mid) (hknows : s.Knows v) : Retains f (f.bodies bs) v mid :=
  hat.retains_of hw hcleared (fun _ _ hk => hk.keeps hw hv) hpassed hknows

/-- It stays while operations are treated, and is there once one of them has allocated the value. -/
theorem AtOps.retains (hat : AtOps f s b [] (l ++ rest) t held.owned)
    (hlist : f.opsOf b = l ++ rest ++ [t]) (hholder : f.holder? b = some o)
    (hcleared : Cleared f s.routine o)
    (hknows : s.Knows v ∨ ∃ p ∈ l, ∃ d, f.op? p = some d ∧ v ∈ d.allocated)
    (h : Pass.throughOps (Pass.throughOpWithin settings n) l held s = .ok (held', s')) :
    Retains f l v s' := by
  refine throughOps_retains (fun c hc => ?_) (hknows.imp_right ?_) h
  · obtain ⟨front, rest, hcall⟩ := hc.placed hw hat hlist hholder hcleared
    exact hcall.keeps hw hv
  · rintro ⟨p, hp, d, hd, halloc⟩
    obtain ⟨c, hc, rfl⟩ := exists_opCall h hp
    obtain ⟨front, rest, hcall⟩ := hc.placed hw hat hlist hholder hcleared
    exact ⟨c, hc, hcall.records hw hd halloc⟩

end Keeps

end BufferOwnership
