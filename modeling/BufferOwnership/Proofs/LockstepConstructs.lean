import BufferOwnership.Proofs.LockstepBlocks
import BufferOwnership.Proofs.RegionWalk

/-!
# Constructs in lockstep

Two runs go through a construct side by side: through its regions, through the agreement of its
branches, and through its replacement. What a retain that is dropped stood in lies inside the
construct, and the construct's own block is the same on both sides until it is closed.
-/

namespace BufferOwnership

open Routine Pass

variable {f r r₁ r₂ r' : Routine} {s₁ s₂ s₁' s₂' : Session} {b c : BlockId} {h o t x : OpId}
variable {site : ConstructSite} {kind : ConstructKind} {outs : List RegionOutcome} {d : Op}
variable {g : RegionId} {v i : ValueId} {P : BlockId → Prop} {treat₁ treat₂ : OpPass}
variable {settings₁ settings₂ : Settings} {indicators acquired vs : List ValueId}
variable {out : RegionOutcome}

/-! ## Queries with one answer -/

theorem Routine.Alike.region_eq (ha : Alike f r₁ r₂) (g : RegionId) :
    r₁.region g = r₂.region g := by
  rw [Routine.region, Routine.region, ha.regions]

theorem Routine.Alike.singleBlock?_eq (ha : Alike f r₁ r₂) (g : RegionId) :
    r₁.singleBlock? g = r₂.singleBlock? g := by
  rw [Routine.singleBlock?, Routine.singleBlock?, ha.region_eq]

/-! ## Regions -/

/-- The arguments of a region are the same on both sides, and all have entries. -/
theorem Level.regionArgs (hlevel : Level f s₁ s₂) (hg : g ∈ s₁.routine.regionsOf o) :
    ∃ args, s₁.routine.regionArgs g = .ok args ∧ s₂.routine.regionArgs g = .ok args ∧
      ∀ v ∈ args, v.index < s₁.routine.values.size := by
  have hg₂ : g ∈ s₂.routine.regionsOf o := hlevel.alike.regionsOf_eq o ▸ hg
  refine ⟨_, hlevel.left.inRange.regionArgs hg, ?_, fun v hv => ?_⟩
  · rw [hlevel.right.inRange.regionArgs hg₂, hlevel.alike.blocksOf_eq,
      funext hlevel.alike.argsOf_eq]
  · cases hhead : (s₁.routine.blocksOf g).head? with
    | none => simp [hhead] at hv
    | some c =>
      rw [hhead] at hv
      exact hlevel.left.args_known c v hv

/-- Two runs are at work in the blocks of an operation, and those left are as at the start. -/
structure AtRegions (f : Routine) (o : OpId) (blocks : List BlockId) (s₁ s₂ : Session) : Prop where
  reached : f.Reached o
  level : Level f s₁ s₂
  standing : Standing f s₁.routine o
  held : ∀ c ∈ blocks, f.holder? c = some o
  fresh : ∀ c ∈ blocks, ∀ c', f.Under c c' →
    s₁.routine.opsOf c' = f.opsOf c' ∧ s₂.routine.opsOf c' = f.opsOf c'

namespace AtRegions

variable {blocks : List BlockId}

theorem atBlock (hat : AtRegions f o blocks s₁ s₂) (hc : c ∈ blocks) : AtBlock f c o s₁ s₂ :=
  ⟨hat.held c hc, hat.reached, hat.level, hat.standing⟩

/-- After some blocks come the others. -/
theorem next (done : List BlockId) (hat : AtRegions f o (done ++ blocks) s₁ s₂) (hf : f.Coherent)
    (hnodup : (done ++ blocks).Nodup)
    (hab : Abreast f (fun c' => ∃ c ∈ done, f.Under c c') s₁ s₂ s₁' s₂') :
    AtRegions f o blocks s₁' s₂' where
  reached := hat.reached
  level := hab.level
  standing := hat.standing.later hf hat.reached hat.level.left hab.level.left hat.level.since_left
    hab.advance fun _ c' hin hparent => hab.left c' fun ⟨c, hc, hu⟩ =>
      hat.reached.not_under_around hf.root_unlinked (hat.held c (by simp [hc])) hin hparent hu
  held c' hc' := hat.held c' (by simp [hc'])
  fresh c' hc' c'' hunder := by
    -- no two blocks of an operation have anything under them in common
    have hout : ¬ ∃ c ∈ done, f.Under c c'' := by
      rintro ⟨c, hc, hu⟩
      have hne : c ≠ c' := (List.nodup_append.mp hnodup).2.2 c hc c' hc'
      exact hu.disjoint hf.root_unlinked hat.reached (hat.held c (by simp [hc]))
        (hat.held c' (by simp [hc'])) hne hunder
    have hold := hat.fresh c' (by simp [hc']) c'' hunder
    exact ⟨(hab.left c'' hout).trans hold.1, (hab.right c'' hout).trans hold.2⟩

theorem mono (hat : AtRegions f o blocks s₁ s₂) {blocks' : List BlockId}
    (hsub : ∀ c ∈ blocks', c ∈ blocks) : AtRegions f o blocks' s₁ s₂ :=
  { hat with held := fun c hc => hat.held c (hsub c hc)
             fresh := fun c hc => hat.fresh c (hsub c hc) }

end AtRegions

/-- All that is under a block of an operation is inside the operation. -/
theorem Routine.Under.insideBlock (hc : f.holder? c = some o) {c' : BlockId}
    (hu : f.Under c c') : f.InsideBlock o c' :=
  insideBlock_iff.mpr ⟨c, hc, hu⟩

theorem throughUnknownBlocks_agree (hf : f.Coherent) (htreat : OpsAgree f o treat₁ treat₂)
    {blocks : List BlockId} (hat : AtRegions f o blocks s₁ s₂) (hnodup : blocks.Nodup) :
    Agree (throughUnknownBlocks settings₁ treat₁ o blocks)
      (throughUnknownBlocks settings₂ treat₂ o blocks) s₁ s₂ fun out s₁' s₂' =>
        Abreast f (f.InsideBlock o) s₁ s₂ s₁' s₂' ∧ out = .none := by
  induction blocks generalizing s₁ s₂ with
  | nil => exact Agree.pure ⟨.refl hat.level, rfl⟩
  | cons c blocks ih =>
    refine Agree.bind (throughBlock_agree hf htreat (hat.atBlock (by simp))
      (hat.fresh c (by simp))) fun out t₁ t₂ hq => ?_
    obtain ⟨hab, -⟩ := hq
    have hin : ∀ c', f.Under c c' → f.InsideBlock o c' := fun c' hu =>
      hu.insideBlock (hat.held c (by simp))
    split
    · have hat' : AtRegions f o blocks t₁ t₂ := AtRegions.next [c] hat hf hnodup
        (hab.mono fun c' hu => ⟨c, by simp, hu⟩)
      refine (ih hat' (List.nodup_cons.mp hnodup).2).mono fun out u₁ u₂ hq => ?_
      exact ⟨(hab.mono hin).trans hq.1, hq.2⟩
    · -- a block that hands something on is rejected, by the name of the operation
      obtain ⟨d, hd⟩ := hf.exists_op?_of_reached hat.reached
      obtain ⟨e, he⟩ := Option.ne_none_iff_exists'.mp
        (hab.level.since_left.op?_ne_none (p := o) (by simp [hd]))
      exact Agree.ask (op_of he) (hab.level.op_right he) (Agree.reject _)

/-- What a region comes to on both sides. -/
def RegionOutcome.HeldIn (f r : Routine) (o : OpId) (out : RegionOutcome) : Prop :=
  out.region ∈ f.regionsOf o ∧ ∀ i ∈ out.outcome.acquired, Held f r (f.InsideBlock o) i

theorem RegionOutcome.HeldIn.later (hout : out.HeldIn f r o) (hr : r.Coherent)
    (hadv : Advance r r') : out.HeldIn f r' o :=
  ⟨hout.1, fun i hi => (hout.2 i hi).later hr hadv⟩

theorem throughRegion_agree (hf : f.Coherent) (htreat : OpsAgree f o treat₁ treat₂)
    (hg : g ∈ f.regionsOf o) (hat : AtRegions f o (f.blocksOf g) s₁ s₂) :
    Agree (throughRegion settings₁ treat₁ site kind g) (throughRegion settings₂ treat₂ site kind g)
      s₁ s₂ fun out s₁' s₂' =>
        Abreast f (fun c' => ∃ c ∈ f.blocksOf g, f.Under c c') s₁ s₂ s₁' s₂' ∧
          out.HeldIn f s₁'.routine o := by
  have hregions := hat.standing.regionsOf hat.level.since_left hf hat.reached .refl
  have hg₁ : g ∈ s₁.routine.regionsOf o := hregions ▸ hg
  obtain ⟨args, hargs₁, hargs₂, -⟩ := hat.level.regionArgs hg₁
  refine Agree.ask hargs₁ hargs₂ ?_
  obtain ⟨b?, hb⟩ := hat.level.left.inRange.singleBlock? hg₁
  refine Agree.ask hb (hat.level.alike.singleBlock?_eq g ▸ hb) ?_
  cases b? with
  | none => exact Agree.pure ⟨.refl hat.level, hg, by simp [Outcome.none]⟩
  | some c =>
    have hc : c ∈ f.blocksOf g := by
      rw [← hat.level.since_left.blocks, singleBlock?_eq_some hb]
      simp
    refine Agree.bind (throughBlock_agree hf htreat (hat.atBlock hc) (hat.fresh c hc))
      fun out t₁ t₂ hq => ?_
    obtain ⟨hab, hheld⟩ := hq
    split
    · exact Agree.reject _
    · refine Agree.pure ⟨hab.mono fun c' hu => ⟨c, hc, hu⟩, hg, fun i hi => ?_⟩
      exact (hheld i hi).mono fun c' hu => hu.insideBlock (hat.held c hc)

theorem throughRegions_agree (hf : f.Coherent) (htreat : OpsAgree f o treat₁ treat₂)
    {gs : List RegionId} (hgs : gs ⊆ f.regionsOf o)
    (hnodup : (gs.flatMap f.blocksOf).Nodup)
    (hat : AtRegions f o (gs.flatMap f.blocksOf) s₁ s₂) :
    Agree (throughRegions settings₁ treat₁ site kind gs)
      (throughRegions settings₂ treat₂ site kind gs) s₁ s₂ fun outs s₁' s₂' =>
        Abreast f (f.InsideBlock o) s₁ s₂ s₁' s₂' ∧ ∀ out ∈ outs, out.HeldIn f s₁'.routine o := by
  induction gs generalizing s₁ s₂ with
  | nil => exact Agree.pure ⟨.refl hat.level, by simp⟩
  | cons g gs ih =>
    rw [List.flatMap_cons] at hat hnodup
    have hg : g ∈ f.regionsOf o := hgs (by simp)
    have hat₀ : AtRegions f o (f.blocksOf g) s₁ s₂ := hat.mono fun c hc => by simp [hc]
    refine Agree.bind (throughRegion_agree hf htreat hg hat₀) fun out t₁ t₂ hq => ?_
    obtain ⟨hab, hout⟩ := hq
    have hrest := ih (fun k hk => hgs (by simp [hk])) (List.nodup_append.mp hnodup).2.1
      (AtRegions.next _ hat hf hnodup hab)
    refine Agree.bind hrest fun outs u₁ u₂ hq => Agree.pure ?_
    obtain ⟨hab', houts⟩ := hq
    have hin : ∀ c', (∃ c ∈ f.blocksOf g, f.Under c c') → f.InsideBlock o c' := by
      rintro c' ⟨c, hc, hu⟩
      exact hu.insideBlock (hat₀.held c hc)
    refine ⟨(hab.mono hin).trans hab', fun out' hout' => ?_⟩
    -- what the first region came to is held still when the others are done
    rcases List.mem_cons.mp hout' with rfl | hout'
    · exact hout.later hab.level.left hab'.advance
    · exact houts out' hout'

/-! ## The agreement of branches -/

/-- Two sessions that were level are so again, with the routines that they had. -/
structure Steady (f : Routine) (s₁ s₂ s₁' s₂' : Session) : Prop where
  level : Level f s₁' s₂'
  left : s₁'.routine = s₁.routine
  right : s₂'.routine = s₂.routine

namespace Steady

variable {s₁'' s₂'' : Session}

theorem refl (hlevel : Level f s₁ s₂) : Steady f s₁ s₂ s₁ s₂ := ⟨hlevel, rfl, rfl⟩

theorem trans (hs : Steady f s₁ s₂ s₁' s₂') (hs' : Steady f s₁' s₂' s₁'' s₂'') :
    Steady f s₁ s₂ s₁'' s₂'' :=
  ⟨hs'.level, hs'.left.trans hs.left, hs'.right.trans hs.right⟩

theorem abreast (hs : Steady f s₁ s₂ s₁' s₂') : Abreast f P s₁ s₂ s₁' s₂' where
  level := hs.level
  advance := hs.left ▸ .refl _
  left _ _ := by rw [hs.left]
  right _ _ := by rw [hs.right]

end Steady

section

variable (hlevel : Level f s₁ s₂)
include hlevel

/-- A recorded indicator is held, wherever one looks. -/
theorem Level.indicatorOf? (hi : s₁.aliases.indicatorOf? v = some i) : Held f s₁.routine P i := by
  have hmem := AliasClasses.mem_indicators hi
  exact (hlevel.recorded v i hmem).mono fun _ hfalse => hfalse.elim

/-- What a block sends is the same on both sides. -/
theorem Level.sentByBlock (hb : b ∈ s₁.routine.blocksOf g) :
    ∃ sent, s₁.routine.sentByBlock b = .ok sent ∧
      s₂.routine.sentByBlock b = .ok sent ∧ ∀ v ∈ sent, v.index < s₁.routine.values.size := by
  have hb₂ : b ∈ s₂.routine.blocksOf g := hlevel.alike.blocksOf_eq g ▸ hb
  rw [Routine.sentByBlock, Routine.sentByBlock, bind_of_ok (hlevel.left.inRange.terminator? hb),
    bind_of_ok (hlevel.right.inRange.terminator? hb₂), ← hlevel.lastTerminator?]
  cases hlast : s₁.routine.lastTerminator? b with
  | none => exact ⟨[], rfl, rfl, by simp⟩
  | some t =>
    have ht : t ∈ s₁.routine.opsOf b := List.mem_of_getLast? (Option.filter_eq_some_iff.mp hlast).1
    obtain ⟨d, hd⟩ := hlevel.left.exists_op?_of_mem ht
    refine ⟨d.operands, bind_of_ok (op_of hd), bind_of_ok (hlevel.op_right hd), fun v hv => ?_⟩
    exact hlevel.left.operands_known t v (by rwa [operandsOf_of hd])

theorem Level.yieldSlot? {yielded : List ValueId}
    (hknown : ∀ v ∈ yielded, v.index < s₁.routine.values.size) (v : ValueId) :
    ∃ slot?, s₁.routine.yieldSlot? yielded v = .ok slot? ∧
      s₂.routine.yieldSlot? yielded v = .ok slot? := by
  rw [Routine.yieldSlot?, Routine.yieldSlot?]
  cases yielded.idxOf? v with
  | none => exact ⟨none, rfl, rfl⟩
  | some position =>
    have htake : ∀ w ∈ yielded.take position, w.index < s₁.routine.values.size := fun w hw =>
      hknown w (List.mem_of_mem_take hw)
    have htake₂ := hlevel.alike.values ▸ htake
    simp only [bind_of_ok (buffers_ok htake), bind_of_ok (buffers_ok htake₂)]
    exact ⟨_, rfl, by rw [funext hlevel.alike.holdsBuffer_eq]; rfl⟩

section

variable (hg : g ∈ s₁.routine.regionsOf o) (hheld : ∀ i ∈ acquired, Held f s₁.routine P i)
include hg hheld

theorem capture_agree :
    Agree (capture site g acquired v) (capture site g acquired v) s₁ s₂ fun q s₁' s₂' =>
      Steady f s₁ s₂ s₁' s₂' ∧ (∀ i ∈ q.1, Held f s₁'.routine P i) ∧
        Held f s₁'.routine P q.2 := by
  obtain ⟨G, hG, hblocks⟩ := hlevel.left.inRange.region hg
  refine Agree.ask hG (hlevel.alike.region_eq g ▸ hG) ?_
  rw [hblocks]
  cases hcases : s₁.routine.blocksOf g with
  | nil => exact Agree.reject _
  | cons b rest =>
    obtain ⟨sent, hsent₁, hsent₂, hknown⟩ := hlevel.sentByBlock (b := b) (g := g) (by simp [hcases])
    refine Agree.ask hsent₁ hsent₂ ?_
    obtain ⟨slot?, hslot₁, hslot₂⟩ := hlevel.yieldSlot? hknown v
    refine Agree.ask hslot₁ hslot₂ ?_
    cases slot? with
    | none => exact Agree.reject _
    | some slot =>
      cases hat : acquired[slot]? with
      | none =>
        simp only [hat]
        exact Agree.reject _
      | some displaced =>
        simp only [hat]
        refine Agree.aliases hlevel.aliases ?_
        cases hindicator : s₁.aliases.indicatorOf? v with
        | none => exact Agree.reject _
        | some i =>
          -- the recorded indicator comes in for the one that was in the slot
          refine Agree.modifyAliases (Agree.pure ⟨⟨hlevel.dropIndicator v, rfl, rfl⟩, ?_, ?_⟩)
          · intro j hj
            rcases List.mem_or_eq_of_mem_set hj with hj | rfl
            · exact hheld j hj
            · exact hlevel.indicatorOf? hindicator
          · exact hheld displaced (List.mem_of_getElem? hat)

theorem captureAll_agree :
    Agree (captureAll site g vs acquired) (captureAll site g vs acquired) s₁ s₂ fun q s₁' s₂' =>
      Steady f s₁ s₂ s₁' s₂' ∧ (∀ i ∈ q.1, Held f s₁'.routine P i) ∧
        ∀ i ∈ q.2, Held f s₁'.routine P i := by
  induction vs generalizing s₁ s₂ acquired with
  | nil => exact Agree.pure ⟨.refl hlevel, hheld, by simp⟩
  | cons v vs ih =>
    refine Agree.bind (capture_agree hlevel hg hheld) fun q t₁ t₂ hq => ?_
    obtain ⟨hs, hacquired, hdisplaced⟩ := hq
    refine Agree.bind (ih hs.level (hs.left ▸ hg) hacquired) fun q' u₁ u₂ hq => Agree.pure ?_
    obtain ⟨hs', hacquired', hothers⟩ := hq
    refine ⟨hs.trans hs', hacquired', fun i hi => ?_⟩
    rcases List.mem_cons.mp hi with rfl | hi
    · exact hs'.left ▸ hdisplaced
    · exact hothers i hi

end

end

/-- What the regions of a construct come to together, on both sides. -/
def Reconciled.HeldIn (f r : Routine) (o : OpId) (agreed : Reconciled) : Prop :=
  (∀ out ∈ agreed.regions, out.HeldIn f r o) ∧
    ∀ i ∈ agreed.displaced, Held f r (f.InsideBlock o) i

section Reconcile

variable (hlevel : Level f s₁ s₂) (hregions : s₁.routine.regionsOf o = f.regionsOf o)
include hlevel hregions

theorem reconcilePair_agree {first second : RegionOutcome}
    (hfirst : first.HeldIn f s₁.routine o) (hsecond : second.HeldIn f s₁.routine o) :
    Agree (reconcilePair site first second) (reconcilePair site first second) s₁ s₂
      fun agreed s₁' s₂' => Steady f s₁ s₂ s₁' s₂' ∧ agreed.HeldIn f s₁'.routine o := by
  unfold reconcilePair
  simp only
  split
  · refine Agree.pure ⟨.refl hlevel, fun out hout => ?_, by simp⟩
    rcases List.mem_pair.mp hout with rfl | rfl
    · exact hfirst
    · exact hsecond
  · -- each region captures what the other one releases; neither changes a routine
    refine Agree.bind (captureAll_agree hlevel (hregions ▸ hsecond.1) hsecond.2)
      fun q t₁ t₂ hq => ?_
    obtain ⟨hs, hq₁, hq₂⟩ := hq
    refine Agree.bind (captureAll_agree hs.level (o := o) (hs.left ▸ hregions ▸ hfirst.1)
      (hs.left ▸ hfirst.2)) fun q' u₁ u₂ hq => Agree.pure ?_
    obtain ⟨hs', hq₁', hq₂'⟩ := hq
    refine ⟨hs.trans hs', fun out hout => ?_, fun i hi => ?_⟩
    · rcases List.mem_pair.mp hout with rfl | rfl
      · exact ⟨hfirst.1, hq₁'⟩
      · exact ⟨hsecond.1, hs'.left ▸ hq₁⟩
    · rcases List.mem_append.mp hi with hi | hi
      · exact hs'.left ▸ hq₂ i hi
      · exact hq₂' i hi

theorem reconcile_agree (houts : ∀ out ∈ outs, out.HeldIn f s₁.routine o) :
    Agree (reconcile site outs) (reconcile site outs) s₁ s₂ fun agreed s₁' s₂' =>
      Steady f s₁ s₂ s₁' s₂' ∧ agreed.HeldIn f s₁'.routine o := by
  unfold reconcile
  split
  · exact Agree.pure ⟨.refl hlevel, houts, by simp⟩
  split
  · exact reconcilePair_agree hlevel hregions (houts _ (by simp)) (houts _ (by simp))
  · exact Agree.reject _

end Reconcile

/-! ## What the regions hand on -/

/-- The terminator of a region gets more operands, and nothing moves. -/
theorem sendAcquired_agree (hlevel : Level f s₁ s₂)
    (hregions : s₁.routine.regionsOf o = f.regionsOf o) (hout : out.HeldIn f s₁.routine o) :
    Agree (sendAcquired out) (sendAcquired out) s₁ s₂ fun _ s₁' s₂' =>
      Abreast f (fun _ => False) s₁ s₂ s₁' s₂' := by
  obtain ⟨b?, hb⟩ := hlevel.left.inRange.singleBlock? (o := o) (hregions ▸ hout.1)
  refine Agree.ask hb (hlevel.alike.singleBlock?_eq _ ▸ hb) ?_
  cases b? with
  | none => exact Agree.pure (.refl hlevel)
  | some c =>
    have hc : c ∈ s₁.routine.blocksOf out.region := by simp [singleBlock?_eq_some hb]
    refine Agree.ask (hlevel.left.inRange.terminator? hc) (hlevel.lastTerminator? c ▸
      hlevel.right.inRange.terminator? (hlevel.alike.blocksOf_eq out.region ▸ hc)) ?_
    cases hlast : s₁.routine.lastTerminator? c with
    | none => exact Agree.pure (.refl hlevel)
    | some t =>
      have ht : t ∈ s₁.routine.opsOf c :=
        List.mem_of_getLast? (Option.filter_eq_some_iff.mp hlast).1
      obtain ⟨d, hd⟩ := hlevel.left.exists_op?_of_mem ht
      have hd₂ := (hlevel.alike.op?_eq t).symm.trans hd
      obtain ⟨r₁', hr₁⟩ := appendOperands_ok hd out.outcome.acquired
      obtain ⟨r₂', hr₂⟩ := appendOperands_ok hd₂ out.outcome.acquired
      have hknown : ∀ v ∈ out.outcome.acquired, v.index < s₁.routine.values.size := fun v hv =>
        (hout.2 v hv).known
      have hknown₂ := hlevel.alike.values ▸ hknown
      refine Agree.edit (Edit.change_eq_ok.mpr hr₁) (Edit.change_eq_ok.mpr hr₂)
        ⟨?_, .appendOperands hr₁, fun c' _ => opsOf_congr (tables_appendOperands hr₁).2.1 c',
          fun c' _ => opsOf_congr (tables_appendOperands hr₂).2.1 c'⟩
      exact hlevel.edited (.appendOperands hr₁ hlevel.left hknown)
        (.appendOperands hr₂ hlevel.right hknown₂) (.appendOperands hr₁) (.appendOperands hr₂)
        (hlevel.alike.appendOperands hlevel.left hlevel.right hr₁ hr₂)

/-- A retain that a run has put in holds nothing, and is not the last of a block. -/
theorem Routine.Advance.new_retain (hadv : Advance f r) (hf : f.Coherent) {n k : Nat}
    (hi : f.values.size ≤ i.index) (horigin : r.origin? i = some (.result x k))
    (hkind : r.kind? x = some (.retain n)) :
    r.regionsOf x = [] ∧ ∀ c, (r.opsOf c).getLast? ≠ some x := by
  have hnew : f.op? x = none := hadv.origin i x k (value?_eq_none_iff.mpr hi) horigin
  refine ⟨(hadv.retains x n hnew hkind).1, fun c hlast => ?_⟩
  rw [hadv.last] at hlast
  exact hf.inRange.ops c x (List.mem_of_getLast? hlast) hnew

/-- Both sides take out a retain that holds nothing. -/
theorem Level.eraseLeaf (hlevel : Level f s₁ s₂) (hd : s₁.routine.op? x = some d)
    (hleaf : d.regions = []) (hlast₁ : ∀ c, (s₁.routine.opsOf c).getLast? ≠ some x)
    (hlast₂ : ∀ c, (s₂.routine.opsOf c).getLast? ≠ some x)
    (hplace : ∀ c, s₁.routine.parent? x = some c → P c) :
    ∃ r₁' r₂', s₁.routine.eraseOp x = .ok r₁' ∧ s₂.routine.eraseOp x = .ok r₂' ∧
      Abreast f P s₁ s₂ { s₁ with routine := r₁' } { s₂ with routine := r₂' } := by
  have hd₂ := (hlevel.alike.op?_eq x).symm.trans hd
  obtain ⟨r₁', hr₁⟩ := hlevel.left.toNested.eraseLeaf hd hleaf
  obtain ⟨r₂', hr₂⟩ := hlevel.right.toNested.eraseLeaf hd₂ hleaf
  have hadv₁ := Advance.eraseLeaf hd hleaf hr₁ hlevel.left.toNested hlast₁
  have hadv₂ := Advance.eraseLeaf hd₂ hleaf hr₂ hlevel.right.toNested hlast₂
  -- a list in which it does not stand stays
  have hstay : ∀ {r : Routine} {c}, r.Coherent → r.parent? x = s₁.routine.parent? x → ¬ P c →
      (r.opsOf c).filter (fun p => !decide (p = x)) = r.opsOf c := by
    intro r c hr hparent hc
    refine List.filter_eq_self.mpr fun p hp => ?_
    have hne : p ≠ x := fun e => hc (hplace c (hparent ▸ (hr.op_listed x c).mp (e ▸ hp)))
    simpa using hne
  refine ⟨r₁', r₂', hr₁, hr₂, ?_, hadv₁, fun c hc => ?_, fun c hc => ?_⟩
  · exact hlevel.edited (.eraseLeaf hd hleaf hr₁ hlevel.left)
      (.eraseLeaf hd₂ hleaf hr₂ hlevel.right) hadv₁ hadv₂
      (hlevel.alike.eraseLeaf hlevel.left hlevel.right hd hleaf hadv₁ hr₁ hr₂)
  · exact (opsOf_eraseOp hlevel.left.toNested hd hleaf hr₁ c).trans (hstay hlevel.left rfl hc)
  · exact (opsOf_eraseOp hlevel.right.toNested hd₂ hleaf hr₂ c).trans
      (hstay hlevel.right (hlevel.alike.parent?_eq x).symm hc)

/-- What no one needs any more goes, on both sides, and comes out of a block where it may stand. -/
theorem dropIfDead_agree (hf : f.Coherent) (hlevel : Level f s₁ s₂)
    (hi : Held f s₁.routine P i) :
    Agree (dropIfDead i) (dropIfDead i) s₁ s₂ fun _ s₁' s₂' => Abreast f P s₁ s₂ s₁' s₂' := by
  obtain ⟨V, hV⟩ := exists_value? hi.known
  have hV₂ : s₂.routine.value? i = some V := by rw [← hlevel.alike.value?_eq, hV]
  refine Agree.ask (value_eq_ok.mpr hV) (value_eq_ok.mpr hV₂) ?_
  cases horigin : V.origin with
  | argument => exact Agree.pure (.refl hlevel)
  | result x k =>
    replace horigin : s₁.routine.origin? i = some (.result x k) := by rw [origin?_of hV, horigin]
    obtain ⟨d, hd⟩ := exists_op? (hlevel.left.origin_known i x k horigin)
    have huses : s₂.routine.uses = s₁.routine.uses := funext fun v => by
      rw [Routine.uses, Routine.uses, hlevel.alike.ops]
    have hunused : (fun r : Routine => (return d.results.all fun v => (r.uses v).isEmpty :
        Except Fault Bool)) s₂.routine =
        .ok (d.results.all fun v => (s₁.routine.uses v).isEmpty) := by
      simp only [huses]
      rfl
    refine Agree.ask (op_of hd) (hlevel.op_right hd) (Agree.ask rfl hunused ?_)
    split
    · -- what is dropped is a retain that was inserted, so it is not the last of any block
      rename_i hdead
      have hkind : s₁.routine.kind? x = some (.retain d.operands.length) := by
        rw [kind?_of hd, hdead.1]
      obtain ⟨hleaf, hlast₁⟩ := hlevel.since_left.new_retain hf hi.made horigin hkind
      have hlast₂ : ∀ c, (s₂.routine.opsOf c).getLast? ≠ some x := fun c => by
        rw [hlevel.since_right.last, ← hlevel.since_left.last]
        exact hlast₁ c
      have hplace : ∀ c, s₁.routine.parent? x = some c → P c := by
        rcases hi.place x k horigin with hown | hplace
        · cases hown.symm.trans hkind
        · exact hplace
      obtain ⟨r₁', r₂', hr₁, hr₂, hab⟩ :=
        hlevel.eraseLeaf hd (regionsOf_of hd ▸ hleaf) hlast₁ hlast₂ hplace
      refine Agree.edit_bind (Edit.change_eq_ok.mpr hr₁) (Edit.change_eq_ok.mpr hr₂) (.inr ?_)
      exact ⟨_, _, _, rfl, rfl, hab.level.count fun t => { t with retains := t.retains - 1 },
        hab.advance, hab.left, hab.right⟩
    · exact Agree.pure (.refl hlevel)

/-! ## What goes in with the operands -/

/-- A value that was known and some that are known now. -/
theorem Routine.Advance.known_cons (hadv : Advance r r') (hv : v.index < r.values.size)
    (hvs : ∀ w ∈ vs, w.index < r'.values.size) : ∀ w ∈ v :: vs, w.index < r'.values.size := by
  intro w hw
  rcases List.mem_cons.mp hw with rfl | hw
  · exact Nat.lt_of_lt_of_le hv hadv.size_values
  · exact hvs w hw

section Operands

variable (hf : f.Coherent) (htransfer : settings₁.transfer = settings₂.transfer)
variable {owned released : ValueSet} {front rest : List OpId}
include hf htransfer

/-- Whether an indicator can go in does not depend on where releases stand. -/
theorem transferable?_agree (hat : AtBlock f b h s₁ s₂)
    (hl₁ : s₁.routine.opsOf b = front ++ o :: rest)
    (hl₂ : s₂.routine.opsOf b = front ++ o :: rest) :
    Agree (transferable? settings₁ o owned released v) (transferable? settings₂ o owned released v)
      s₁ s₂ fun i? s₁' s₂' => s₁' = s₁ ∧ s₂' = s₂ ∧ ∀ i ∈ i?, i ∈ owned := by
  have hnone : Agree (pure (none : Option ValueId)) (pure none) s₁ s₂
      fun i? s₁' s₂' => s₁' = s₁ ∧ s₂' = s₂ ∧ ∀ i ∈ i?, i ∈ owned :=
    Agree.pure ⟨rfl, rfl, by simp⟩
  unfold transferable?
  rw [htransfer]
  split
  · refine Agree.aliases hat.level.aliases ?_
    cases hfind : owned.toList.find? (s₁.aliases.same v) with
    | none => exact hnone
    | some i =>
      dsimp only
      split
      · exact hnone
      · -- both sides look at the same operations, and see the same
        obtain ⟨answer, hanswer, hiff⟩ :=
          hat.level.left.isLastUse (hat.reached_left hf) hl₁ s₁.aliases v
        obtain ⟨answer₂, hanswer₂, hiff₂⟩ :=
          hat.level.right.isLastUse (hat.reached_right hf) hl₂ s₁.aliases v
        obtain rfl : answer = answer₂ := eq_of_true_iff hiff hiff₂ <| forall₂_congr fun p _ =>
          (hat.level.alike.touches_iff _ p _).not
        refine Agree.ask hanswer hanswer₂ ?_
        split
        · refine Agree.pure ⟨rfl, rfl, fun j hj => ?_⟩
          cases hj
          exact List.mem_of_find?_eq_some hfind
        · exact hnone
  · exact hnone

theorem transferOperands_agree (hat : AtBlock f b h s₁ s₂) (ho : o.index < f.ops.size)
    {operands : List ValueId} (hl₁ : s₁.routine.opsOf b = front ++ o :: rest)
    (hl₂ : s₂.routine.opsOf b = front ++ o :: rest)
    (howned : ∀ i ∈ owned, i.index < s₁.routine.values.size) :
    Agree (transferOperands settings₁ o owned operands released)
      (transferOperands settings₂ o owned operands released) s₁ s₂ fun q s₁' s₂' =>
        Abreast f (· = b) s₁ s₂ s₁' s₂' ∧ (∀ i ∈ q.1, i.index < s₁'.routine.values.size) ∧
          ∃ front', s₁'.routine.opsOf b = front' ++ o :: rest ∧
            s₂'.routine.opsOf b = front' ++ o :: rest := by
  induction operands generalizing s₁ s₂ released front with
  | nil => exact Agree.pure ⟨.refl hat.level, by simp, front, hl₁, hl₂⟩
  | cons operand operands ih =>
    refine Agree.bind (transferable?_agree hf htransfer hat hl₁ hl₂) fun i? t₁ t₂ hq => ?_
    obtain ⟨rfl, rfl, hi⟩ := hq
    cases i? with
    | some i =>
      -- a transfer is counted, and changes neither routine
      have hlevel := hat.level.count fun t => { t with transfers := t.transfers + 1 }
      refine Agree.count (Agree.bind (ih ⟨hat.holder, hat.reached, hlevel, hat.standing⟩ hl₁ hl₂
        howned) fun q u₁ u₂ hq => Agree.pure ?_)
      obtain ⟨hab, hknown, hlists⟩ := hq
      refine ⟨⟨hab.level, hab.advance, hab.left, hab.right⟩, ?_, hlists⟩
      exact hab.advance.known_cons (howned i (hi i rfl)) hknown
    | none =>
      refine Agree.bind (hat.level.null hl₁ hl₂ ho) fun i u₁ u₂ hq => ?_
      obtain ⟨hab, hheld, x, hl₁', hl₂'⟩ := hq
      have hat' := hat.later hf hab fun c hc => .inl hc
      replace hl₁' : u₁.routine.opsOf b = (front ++ [x]) ++ o :: rest := by simpa using hl₁'
      replace hl₂' : u₂.routine.opsOf b = (front ++ [x]) ++ o :: rest := by simpa using hl₂'
      refine Agree.bind (ih hat' hl₁' hl₂' fun j hj =>
        Nat.lt_of_lt_of_le (howned j hj) hab.advance.size_values) fun q w₁ w₂ hq => Agree.pure ?_
      obtain ⟨hab', hknown, hlists⟩ := hq
      exact ⟨hab.trans hab', hab'.advance.known_cons hheld.known hknown, hlists⟩

end Operands

/-! ## The new construct -/

/-- A construct is rebuilt on both sides, in a block that is the same on both. -/
theorem Level.rebuild (hlevel : Level f s₁ s₂) {front rest : List OpId}
    (hl₁ : s₁.routine.opsOf b = front ++ o :: rest) (hl₂ : s₂.routine.opsOf b = front ++ o :: rest)
    (hrest : rest ≠ []) (hd : s₁.routine.op? o = some d) (hkind : d.kind.construct? ≠ none)
    (hknown : ∀ i ∈ indicators, i.index < s₁.routine.values.size) :
    ∃ r₁' r₂' types, rebuildConstruct o indicators s₁.routine = .ok (s₁.routine.freshOp, r₁') ∧
      rebuildConstruct o indicators s₂.routine = .ok (s₁.routine.freshOp, r₂') ∧
      Rebuilt s₁.routine r₁' o d b front rest indicators types ∧
      r₁'.opsOf b = front ++ s₁.routine.freshOp :: rest ∧
      r₂'.opsOf b = front ++ s₁.routine.freshOp :: rest ∧
      Abreast f (· = b) s₁ s₂ { s₁ with routine := r₁' } { s₂ with routine := r₂' } := by
  obtain ⟨d₁, r₁', types, hr₁, e₁⟩ := hlevel.left.rebuild hl₁ indicators
  obtain ⟨d₂, r₂', types₂, hr₂, e₂⟩ := hlevel.right.rebuild hl₂ indicators
  obtain rfl := Option.mem_unique e₁.old hd
  -- both sides rebuild the same entry
  obtain rfl : d₂ = d₁ :=
    Option.mem_unique e₂.old ((hlevel.alike.op?_eq o).symm.trans hd)
  have hadv₁ := e₁.advance hlevel.left.toNested hrest hkind
  have hadv₂ := e₂.advance hlevel.right.toNested hrest hkind
  have hknown₂ := hlevel.alike.values ▸ hknown
  have hfresh := hlevel.alike.freshOp_eq
  refine ⟨r₁', r₂', types, hr₁, hfresh ▸ hr₂, e₁, ?_, ?_, ?_, hadv₁, fun c hc => ?_, fun c hc => ?_⟩
  · rw [e₁.opsOf_eq, if_pos rfl]
  · rw [e₂.opsOf_eq, if_pos rfl, hfresh]
  · exact hlevel.edited (e₁.coherent hlevel.left (hlevel.left.rebuildConstruct hr₁) hknown)
      (e₂.coherent hlevel.right (hlevel.right.rebuildConstruct hr₂) hknown₂) hadv₁ hadv₂
      (hlevel.alike.replaced hlevel.left hlevel.right hadv₁ e₁ e₂)
  · rw [e₁.opsOf_eq, if_neg hc]
  · rw [e₂.opsOf_eq, if_neg hc]

/-- The results of a construct that was rebuilt are held, if they are indicators. -/
theorem Rebuilt.held {r : Routine} {pre post : List OpId} {types : List Ty}
    (e : Rebuilt r r' o d b pre post indicators types) (hsize : f.values.size ≤ r.values.size)
    (hv : v ∈ r.freshValues (rebuiltTypes types).length) : Held f r' (· = b) v := by
  obtain ⟨hge, hlt⟩ := mem_freshValues.mp hv
  refine ⟨Nat.le_trans hsize hge, by rw [e.size_values]; exact hlt, fun x k hx => .inr ?_⟩
  cases e.origin?_new hge hx
  intro c hc
  rw [e.parent?_eq, if_pos rfl] at hc
  exact (Option.some.inj hc).symm

/-! ## What a construct makes alias -/

section Aliases

variable (hlevel : Level f s₁ s₂)
include hlevel

theorem Level.edgesFrom (d : Op) (source : Option Nat) :
    s₁.routine.edgesFrom d source = s₂.routine.edgesFrom d source := by
  have hblock : ∀ index, s₁.routine.blockAt? d.regions index =
      s₂.routine.blockAt? d.regions index := fun index => by
    simp only [blockAt?, hlevel.alike.blocksOf_eq]
  refine edgesFrom_congr hlevel.alike.blocksOf_eq (fun index => ?_) (fun index => ?_) source
  · rw [argsAt, argsAt, hblock, funext hlevel.alike.argsOf_eq]
  · rw [sentAt?, sentAt?, hblock, funext hlevel.lastTerminator?, funext hlevel.alike.operandsOf_eq]

theorem Level.edgeAliases (hd : s₁.routine.op? x = some d) (source : Option Nat) :
    Concur (s₁.routine.edgeAliases x source) (s₂.routine.edgeAliases x source) := by
  have hd₂ := (hlevel.alike.op?_eq x).symm.trans hd
  rw [Routine.edgeAliases, Routine.edgeAliases, bind_of_ok (hlevel.left.inRange.flowEdges hd _),
    bind_of_ok (hlevel.right.inRange.flowEdges hd₂ _), hlevel.edgesFrom]
  exact ⟨_, rfl, rfl⟩

theorem Level.regionsAliases (hd : s₁.routine.op? x = some d)
    (houts : ∀ out ∈ outs, out.region ∈ d.regions) (index : Nat) :
    Concur (s₁.routine.regionsAliases x index outs) (s₂.routine.regionsAliases x index outs) := by
  induction outs generalizing index with
  | nil => exact ⟨[], rfl, rfl⟩
  | cons out outs ih =>
    obtain ⟨args, hargs₁, hargs₂, hknown⟩ :=
      hlevel.regionArgs (o := x) (regionsOf_of hd ▸ houts out (by simp))
    have hfirst : Concur (s₁.routine.regionAliases x index out)
        (s₂.routine.regionAliases x index out) := by
      refine (hlevel.edgeAliases hd _).bind fun edges _ => ?_
      rw [bind_of_ok hargs₁, bind_of_ok hargs₂]
      refine (hlevel.buffers fun v hv => hknown v (List.mem_of_mem_take hv)).bind fun bs _ => ?_
      exact ⟨_, rfl, rfl⟩
    refine hfirst.bind fun first _ =>
      (ih (fun k hk => houts k (by simp [hk])) _).bind fun rest _ => ?_
    exact ⟨_, rfl, rfl⟩

theorem Level.constructAliases (hd : s₁.routine.op? x = some d)
    (houts : ∀ out ∈ outs, out.region ∈ d.regions) (n : Nat) :
    Concur (s₁.routine.constructAliases x n outs) (s₂.routine.constructAliases x n outs) := by
  have hknown : ∀ v ∈ d.results.take n, v.index < s₁.routine.values.size := fun v hv =>
    hlevel.left.results_known x v (by rw [resultsOf_of hd]; exact List.mem_of_mem_take hv)
  rw [Routine.constructAliases, Routine.constructAliases, bind_of_ok (op_of hd),
    bind_of_ok (hlevel.op_right hd)]
  refine (hlevel.edgeAliases hd none).bind fun onEntry _ => ?_
  refine (hlevel.regionsAliases hd houts 0).bind fun inRegions _ => ?_
  refine (hlevel.buffers hknown).bind fun bs _ => ?_
  exact ⟨_, rfl, rfl⟩

end Aliases

/-! ## A construct as a whole -/

theorem Level.hasMultiBlockRegion (hlevel : Level f s₁ s₂) (hd : s₁.routine.op? o = some d) :
    Concur (s₁.routine.hasMultiBlockRegion d.regions)
      (s₂.routine.hasMultiBlockRegion d.regions) := by
  have hsub : d.regions ⊆ s₁.routine.regionsOf o := by rw [regionsOf_of hd]; simp
  refine ⟨_, hlevel.left.inRange.hasMultiBlockRegion hsub, ?_⟩
  rw [hlevel.right.inRange.hasMultiBlockRegion (hlevel.alike.regionsOf_eq o ▸ hsub)]
  simp only [hlevel.alike.blocksOf_eq]

section Construct

variable (hf : f.Coherent) {front rest : List OpId} {owned : ValueSet}
include hf

/-- Before an operation is treated, its blocks are as at the start. -/
theorem AtNext.atRegions (hat : AtNext f b h o front rest s₁ s₂) :
    AtRegions f o ((f.regionsOf o).flatMap f.blocksOf) s₁ s₂ where
  reached := hat.reached_op
  level := hat.level
  standing := hat.standing_op
  held c hc := by
    obtain ⟨g, hg, hgc⟩ := List.mem_flatMap.mp hc
    exact hf.holder?_iff.mpr ⟨g, hg, hgc⟩
  fresh c hc c' hunder := by
    obtain ⟨g, hg, hgc⟩ := List.mem_flatMap.mp hc
    have hin := hunder.insideBlock (hf.holder?_iff.mpr ⟨g, hg, hgc⟩)
    exact ⟨hat.inner_left c' hin, hat.inner_right c' hin⟩

/-- The regions of a construct are treated alike, brought to agree, and hand on what they owe. -/
theorem regions_agree (htreat : OpsAgree f o treat₁ treat₂) (hat : AtNext f b h o front rest s₁ s₂)
    {then₁ then₂ : Reconciled → Pass Outcome} {R : Outcome → Session → Session → Prop}
    (hthen : ∀ agreed t₁ t₂, Abreast f (f.InsideBlock o) s₁ s₂ t₁ t₂ →
      (∀ out ∈ agreed.regions, out.region ∈ f.regionsOf o) →
      Agree (then₁ agreed) (then₂ agreed) t₁ t₂ R) :
    Agree (do
        let regions ← throughRegions settings₁ treat₁ site kind (f.regionsOf o)
        let agreed ← reconcile site regions
        agreed.regions.forM sendAcquired
        agreed.displaced.forM dropIfDead
        then₁ agreed)
      (do
        let regions ← throughRegions settings₂ treat₂ site kind (f.regionsOf o)
        let agreed ← reconcile site regions
        agreed.regions.forM sendAcquired
        agreed.displaced.forM dropIfDead
        then₂ agreed) s₁ s₂ R := by
  refine Agree.bind (throughRegions_agree hf htreat (List.Subset.refl _)
    (nodup_innerBlocks hf.toNested o) (hat.atRegions hf)) fun outs t₁ t₂ hq => ?_
  obtain ⟨hab, houts⟩ := hq
  refine Agree.bind (reconcile_agree hab.level ((hat.inside hf hab).regionsOf hf) houts)
    fun agreed u₁ u₂ hq => ?_
  obtain ⟨hs, hagreed, hdisplaced⟩ := hq
  replace hab := hab.trans hs.abreast
  -- sending and dropping keep the sessions abreast, inside the construct
  have hsend : Agree (agreed.regions.forM sendAcquired) (agreed.regions.forM sendAcquired) u₁ u₂
      fun _ w₁ w₂ => Abreast f (f.InsideBlock o) u₁ u₂ w₁ w₂ := by
    refine Agree.forM (.refl hs.level) fun out hout w₁ w₂ hw => ?_
    have hregions := (hat.inside hf (hab.trans hw)).regionsOf hf
    exact (sendAcquired_agree hw.level hregions ((hagreed out hout).later hs.level.left
      hw.advance)).mono fun _ _ _ hab' => hw.trans (hab'.mono fun _ hfalse => hfalse.elim)
  refine Agree.bind hsend fun _ w₁ w₂ hw => ?_
  have hdrop : Agree (agreed.displaced.forM dropIfDead) (agreed.displaced.forM dropIfDead) w₁ w₂
      fun _ z₁ z₂ => Abreast f (f.InsideBlock o) w₁ w₂ z₁ z₂ := by
    refine Agree.forM (.refl hw.level) fun i hi z₁ z₂ hz => ?_
    have hheld := (hdisplaced i hi).later hs.level.left (hw.advance.trans hz.advance)
    exact (dropIfDead_agree hf hz.level hheld).mono fun _ _ _ hab' => hz.trans hab'
  refine Agree.bind hdrop fun _ z₁ z₂ hz => hthen agreed z₁ z₂ ((hab.trans hw).trans hz) ?_
  exact fun out hout => (hagreed out hout).1

omit hf in
/-- The construct is replaced by one that takes and gives indicators. -/
theorem replace_agree (hlevel : Level f s₁ s₂) {released : ValueSet}
    (hl₁ : s₁.routine.opsOf b = front ++ o :: rest) (hl₂ : s₂.routine.opsOf b = front ++ o :: rest)
    (hrest : rest ≠ []) (hd : s₁.routine.op? o = some d) (hkind : d.kind.construct? ≠ none)
    (hindicators : ∀ i ∈ indicators, i.index < s₁.routine.values.size)
    (houts : ∀ out ∈ outs, out.region ∈ d.regions) : let replace : Pass Outcome := do
      let resultCount := (← ask (·.op o)).results.length
      let new ← edit (rebuildConstruct o indicators)
      let pairs ← ask (·.constructAliases new resultCount outs)
      Pass.modifyAliases (·.unionAll pairs)
      return { released, acquired := (← ask (·.op new)).results.drop resultCount }
    Agree replace replace s₁ s₂ fun out s₁' s₂' =>
      Abreast f (· = b) s₁ s₂ s₁' s₂' ∧
        (∃ front', s₁'.routine.opsOf b = front' ++ rest ∧ s₂'.routine.opsOf b = front' ++ rest) ∧
        ∀ i ∈ out.acquired, Held f s₁'.routine (· = b) i := by
  refine Agree.ask (op_of hd) (hlevel.op_right hd) ?_
  obtain ⟨r₁', r₂', types, hr₁, hr₂, e, hl₁', hl₂', hab⟩ :=
    hlevel.rebuild hl₁ hl₂ hrest hd hkind hindicators
  -- from here on both sides ask about the new construct, which has one entry
  refine Agree.edit_bind hr₁ hr₂ ?_
  obtain ⟨pairs, hpairs₁, hpairs₂⟩ := hab.level.constructAliases e.op?_fresh houts d.results.length
  refine Agree.ask hpairs₁ hpairs₂ (Agree.modifyAliases ?_)
  refine Agree.ask (op_of e.op?_fresh) (hab.level.op_right e.op?_fresh) (Agree.pure ⟨?_, ?_, ?_⟩)
  · exact ⟨hab.level.unionAll pairs, hab.advance, hab.left, hab.right⟩
  · exact ⟨front ++ [s₁.routine.freshOp], by simpa using hl₁', by simpa using hl₂'⟩
  · exact fun i hi => e.held hlevel.since_left.size_values (List.mem_of_mem_drop hi)

theorem throughConstruct_agree (htransfer : settings₁.transfer = settings₂.transfer)
    (htreat : OpsAgree f o treat₁ treat₂)
    (hat : AtNext f b h o front rest s₁ s₂) (hd : s₁.routine.op? o = some d)
    (hkind : d.kind.construct? = some kind)
    (howned : ∀ i ∈ owned, i.index < s₁.routine.values.size) :
    Agree (throughConstruct settings₁ treat₁ kind o owned)
      (throughConstruct settings₂ treat₂ kind o owned) s₁ s₂ (OpDone f b o rest s₁ s₂) := by
  refine Agree.ask (op_of hd) (hat.level.op_right hd) ?_
  obtain ⟨multi, hmulti₁, hmulti₂⟩ := hat.level.hasMultiBlockRegion hd
  refine Agree.ask hmulti₁ hmulti₂ ?_
  have hregions : d.regions = f.regionsOf o := (regionsOf_of hd).symm.trans (hat.regionsOf hf)
  rw [hregions]
  split
  · exact Agree.reject _
  refine regions_agree hf htreat hat fun agreed t₁ t₂ hab hagreed => ?_
  -- inside, all is done; the construct still stands where it did
  have hat₁ := hat.inside hf hab
  obtain ⟨e, he⟩ := hat₁.op?
  obtain ⟨hquery₁, hquery₂⟩ := hat₁.level.operandBuffers he
  refine Agree.ask hquery₁ hquery₂ ?_
  refine Agree.bind (transferOperands_agree hf htransfer hat₁.toAtBlock hat₁.lt hat₁.left
    hat₁.right fun i hi => Nat.lt_of_lt_of_le (howned i hi) hab.advance.size_values)
    fun q u₁ u₂ hq => ?_
  obtain ⟨hab₁, hindicators, front', hl₁, hl₂⟩ := hq
  -- what was there before the operands came in is there still
  have hsame : ∃ e', u₁.routine.op? o = some e' ∧ e'.kind = d.kind ∧
      e'.regions = f.regionsOf o := by
    obtain ⟨e', he'⟩ := hab₁.level.left.exists_op?_of_mem (o := o) (b := b) (by simp [hl₁])
    have hadv := hab.advance.trans hab₁.advance
    have hk := hadv.kind?_eq (p := o) (by simp [hd])
    have hat₂ : BothAt f b h o front' rest u₁ u₂ :=
      { toAtBlock := hat₁.later hf hab₁ fun c hc => .inl hc
        parent := hat.parent, left := hl₁, right := hl₂, more := hat.more, old := hat.old }
    refine ⟨e', he', ?_, (regionsOf_of he').symm.trans (hat₂.regionsOf hf)⟩
    rwa [kind?_of he', kind?_of hd, Option.some.injEq] at hk
  obtain ⟨e', he', hkind', hregions'⟩ := hsame
  refine (replace_agree hab₁.level hl₁ hl₂ hat.more he' (by simp [hkind', hkind]) hindicators
    fun out hout => hregions' ▸ hagreed out hout).mono fun out w₁ w₂ hq => ?_
  obtain ⟨hab₂, hlists, hacquired⟩ := hq
  refine ⟨?_, hlists, fun i hi => (hacquired i hi).mono fun c hc => .inl hc⟩
  exact (hab.mono fun c hc => .inr hc).trans ((hab₁.trans hab₂).mono fun c hc => .inl hc)

end Construct

end BufferOwnership
