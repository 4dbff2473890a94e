import BufferOwnership.Proofs.ConstructWalk

/-!
# Threading through a routine

Every class of operations meets `OpSpec`, given that what is inside meets it. So the pass with any
amount of fuel meets it, by induction on the fuel, and the pass from the root keeps the session
threaded and treats everything that can be visited.
-/

namespace BufferOwnership

open Routine

variable {f r : Routine} {s s' : Session} {b c : BlockId} {o x : OpId} {out : Outcome}
variable {owned : ValueSet} {front rest : List OpId} {i v : ValueId} {d : Op}
variable {settings : Settings} {treat : OpPass}

/-! ## Effects -/

/-- What is put right behind an operation and has no place of its own follows it. -/
theorem follows_of_list (hl : r.Linked) {mid : List OpId}
    (hlist : r.opsOf b = front ++ o :: (mid ++ rest)) (hx : x ∈ mid)
    (hmid : ∀ y ∈ mid, ¬ r.Structural y) : r.Follows o x := by
  intro c front' p rest' hlist' hp ho
  obtain rfl : b = c := hl.block_unique (o := o) (by simp [hlist]) (by simp [hlist', ho])
  obtain ⟨before, between, rfl⟩ := List.append_of_mem ho
  have hplace : r.opsOf b = before ++ o :: (between ++ p :: rest') := by simpa using hlist'
  obtain ⟨-, rfl, htail⟩ := hl.place_unique hlist hplace
  rcases List.append_eq_append_iff.mp htail with ⟨more, rfl, -⟩ | ⟨more, rfl, hmore⟩
  · simp [hx]
  · cases more with
    | nil => simpa using Or.inr (Or.inr hx)
    | cons y more =>
      -- the structural operation would be among those without a place of their own
      obtain ⟨rfl, -⟩ := List.cons.inj hmore
      exact absurd hp (hmid p (by simp))

section Effects

variable {post : List OpId}

theorem own_spec (ht : Threaded f s)
    (hlist : s.routine.opsOf b = front ++ o :: (mid ++ next :: post))
    (hmid : ∀ y ∈ mid, ¬ s.routine.Structural y) (hv : v ∈ s.routine.resultsOf o)
    (halloc : f.AllocatedIn b v) (h : Pass.own (.before next) v s = .ok (i, s')) :
    ∃ x, Run f (.emission b) s s' ∧
      s'.routine.opsOf b = front ++ o :: ((mid ++ [x]) ++ next :: post) ∧
      (∀ y ∈ mid ++ [x], ¬ s'.routine.Structural y) ∧
      Token f s'.routine b (front ++ o :: (mid ++ [x])) i := by
  obtain ⟨rfl, haliases, x, hemit⟩ := Pass.own_eq_ok h
  have hl := ht.wellFormed.linked
  -- the insertion is one step, recording the indicator another
  obtain ⟨s₁, hroutine, haliases₁⟩ : ∃ s₁ : Session, s'.routine = s₁.routine ∧
      s₁.aliases = s.aliases := ⟨{ s with routine := s'.routine }, rfl, rfl⟩
  rw [hroutine] at hemit ⊢
  have hplace : s.routine.opsOf b = (front ++ o :: mid) ++ next :: post := by simp [hlist]
  obtain ⟨hrun, hlist₁, hkind, hregions, hres⟩ := ht.emit hplace hemit haliases₁ (.inl rfl)
    (by simp) (fun _ => ⟨v, rfl, halloc⟩) (by simpa using .earlier (by simp) hv)
  have hlist₂ : s₁.routine.opsOf b = front ++ o :: ((mid ++ [x]) ++ next :: post) := by
    simp [hlist₁]
  have htoken : Token f s₁.routine b (front ++ o :: (mid ++ [x])) ⟨s.routine.values.size⟩ :=
    ht.emit_token hplace hemit (by simp) (by simp) (by simp [mem_freshValues])
  have hmid₁ : ∀ y ∈ mid ++ [x], ¬ s₁.routine.Structural y := by
    intro y hy
    rcases List.mem_append.mp hy with hold | hnew
    · obtain ⟨rfl, hem⟩ := Emit.operation_before hl hplace hemit
      obtain ⟨e, he⟩ := Option.ne_none_iff_exists'.mp
        (hl.op?_of_listed (o := y) (b := b) (by simp [hlist, hold]))
      have hsame := hem.op?_of_ne (ne_freshOp he)
      simpa only [Structural, Routine.regionsOf, Routine.kind?, hsame] using hmid y hold
    · rw [List.mem_singleton.mp hnew]
      simp [Structural, hregions, hkind, OpKind.isTerminator]
  have hrec : Recorded f s₁.routine v ⟨s.routine.values.size⟩ := by
    have hi : (⟨s.routine.values.size⟩ : ValueId) ∈ s₁.routine.resultsOf x := by
      simp [hres, mem_freshValues]
    obtain ⟨rfl, hem⟩ := Emit.operation_before hl hplace hemit
    have hnew : f.op? s.routine.freshOp = none := by
      obtain ⟨δ, hδ⟩ := ht.embedded
      by_contra hne
      exact hδ.change.keeps.op?_ne_none hne (op?_freshOp _)
    refine ⟨.results (hrun.keeps.mem_resultsOf hv) hi hkind ?_, htoken.typed, htoken.later,
      .inr ⟨_, hnew, hkind, hi, operandsOf_of hem.op?_fresh⟩⟩
    exact follows_of_list (hl.operation hemit) hlist₂ (by simp) hmid₁
  refine ⟨x, hrun.tail (.record v _ hroutine ?_ ?_ hrec ?_ ?_), hlist₂, hmid₁, htoken⟩
  · rw [haliases, haliases₁]
    exact AliasClasses.indicators_setIndicator_subset ..
  · rw [haliases₁]
    exact ht.not_recorded (Nat.le_refl _)
  · rw [haliases, haliases₁]
    exact .setIndicator _ v _
  · rw [haliases, haliases₁]
    exact fun hsound => hsound.same_setIndicator v _

theorem ownAll_spec (hw : f.WellFormed) {buffers indicators : List ValueId} (ht : Threaded f s)
    (hlist : s.routine.opsOf b = front ++ o :: (mid ++ next :: post))
    (hmid : ∀ y ∈ mid, ¬ s.routine.Structural y)
    (hbuffers : ∀ v ∈ buffers, v ∈ s.routine.resultsOf o ∧ f.AllocatedIn b v)
    (h : Pass.ownAll (.before next) buffers s = .ok (indicators, s')) :
    ∃ mid', Run f (.emission b) s s' ∧
      s'.routine.opsOf b = front ++ o :: (mid' ++ next :: post) ∧ (∀ y ∈ mid, y ∈ mid') ∧
      ∀ i ∈ indicators, Token f s'.routine b (front ++ o :: mid') i := by
  induction buffers generalizing s mid indicators with
  | nil =>
    cases h
    exact ⟨mid, .refl, hlist, fun _ => id, by simp⟩
  | cons v buffers ih =>
    obtain ⟨i, others, s₁, rfl, hown, hothers⟩ := Pass.ownAll_cons h
    obtain ⟨x, hrun₁, hlist₁, hmid₁, htoken⟩ := own_spec ht hlist hmid
      (hbuffers v (by simp)).1 (hbuffers v (by simp)).2 hown
    obtain ⟨mid', hrun₂, hlist₂, hsub, htokens⟩ := ih (ht.run hw hrun₁) hlist₁ hmid₁
      (fun w hw => (hbuffers w (by simp [hw])).imp_left hrun₁.keeps.mem_resultsOf) hothers
    refine ⟨mid', hrun₁.trans hrun₂, hlist₂, fun y hy => hsub y (by simp [hy]), fun j hj => ?_⟩
    rcases List.mem_cons.mp hj with rfl | hj
    · -- the own of the first buffer stands before those of the others
      refine htoken.keep hrun₂.keeps fun p hp => ?_
      simp only [List.mem_append, List.mem_cons] at hp ⊢
      rcases hp with hp | hp | hp
      · exact .inl hp
      · exact .inr (.inl hp)
      · exact .inr (.inr (hsub p (List.mem_append.mpr (by simpa using hp))))
    · exact htokens j hj

end Effects

/-! ## Regions of unknown control flow -/

theorem throughUnknownBlocks_spec (htreat : OpSpec f treat) (hw : f.WellFormed)
    {bs : List BlockId} (hat : AtBlocks f s o bs)
    (h : Pass.throughUnknownBlocks settings treat o bs s = .ok (out, s')) :
    Run f (.ofBlocks f bs) s s' ∧ out = .none ∧
      ∀ b ∈ bs, ∃ body t front, Walked f s'.routine b false body t front := by
  induction bs generalizing s with
  | nil =>
    cases h
    exact ⟨.refl, rfl, by simp⟩
  | cons b rest ih =>
    have hat : AtBlocks f s o ([b] ++ rest) := hat
    obtain ⟨first, s₁, hfirst, h⟩ := Pass.bind_eq_ok.mp h
    obtain ⟨hrun₁, body, t, front, hwalked, -⟩ := throughBlock_spec htreat hw hat.threaded
      hat.visited (hat.enters b (by simp)) (by simp) (hat.untouched b (by simp)) hfirst
    have hrun₁ : Run f (.ofBlocks f [b]) s s₁ := hrun₁.mono (Footprint.ofBlock_within (by simp))
    have hat₁ := hat.next hw hrun₁
    split at h
    · obtain ⟨hrun₂, hnone, hwalked₂⟩ := ih hat₁ h
      refine ⟨(hrun₁.mono (Footprint.ofBlocks_mono (by simp))).trans
        (hrun₂.mono (Footprint.ofBlocks_mono fun c => List.mem_cons_of_mem _)), hnone,
        fun c hc => ?_⟩
      rcases List.mem_cons.mp hc with rfl | hc
      · have havoids := (hat.avoids hw).2 c (by simp)
        exact ⟨body, t, front, hwalked.run hrun₂ hat₁.threaded hw.linked havoids⟩
      · exact hwalked₂ c hc
    · obtain ⟨_, _, -, h⟩ := Pass.bind_eq_ok.mp h
      exact absurd h Pass.reject_ne_ok

theorem enters_iff_of_unknown (hd : f.op? o = some d) (hclass : d.classify = .unknownRegions) :
    b ∈ d.regions.flatMap f.blocksOf ↔ f.Enters o b := by
  rw [List.mem_flatMap]
  refine ⟨fun hb => ⟨d, hd, by rwa [hclass]⟩, ?_⟩
  rintro ⟨d', hd', hb⟩
  obtain rfl := Option.mem_unique hd hd'
  rwa [hclass] at hb

/-- If regions of unknown control flow are gone through, then block by block, with any treatment. -/
theorem throughUnknownRegions_split (hw : f.WellFormed) (hd : f.op? o = some d)
    (hat : AtOp f s o owned b front rest)
    (h : Pass.throughUnknownRegions settings treat o s = .ok (out, s')) {treat' : OpPass} :
    Pass.throughUnknownRegions settings treat' o s =
      Pass.throughUnknownBlocks settings treat' o (d.regions.flatMap f.blocksOf) s := by
  obtain ⟨τ, hentry⟩ := hat.entry hw hd
  obtain ⟨d₀, _, hdata, h⟩ := Pass.bind_eq_ok.mp h
  obtain ⟨-, rfl⟩ := Pass.ask_eq_ok.mp hdata
  obtain ⟨answer, _, hanswer, h⟩ := Pass.bind_eq_ok.mp h
  obtain ⟨-, rfl⟩ := Pass.ask_eq_ok.mp hanswer
  unfold Pass.throughUnknownRegions
  rw [Pass.bind_of_ok hdata, Pass.bind_of_ok hanswer]
  split at h
  · exact absurd h Pass.reject_ne_ok
  · rename_i hfalse
    obtain ⟨blocks, _, hinner, h⟩ := Pass.bind_eq_ok.mp h
    obtain ⟨hblocks, rfl⟩ := Pass.ask_eq_ok.mp hinner
    rw [if_neg hfalse, Pass.bind_of_ok hinner, innerBlocks_eq_ok hblocks, regionsOf_of hentry,
      funext hat.threaded.blocksOf]

theorem throughUnknownRegions_spec (htreat : OpSpec f treat) (hw : f.WellFormed)
    (hd : f.op? o = some d) (hclass : d.classify = .unknownRegions)
    (hat : AtOp f s o owned b front rest)
    (h : Pass.throughUnknownRegions settings treat o s = .ok (out, s')) :
    Run f (.ofBlocks f (d.regions.flatMap f.blocksOf)) s s' ∧ out = .none ∧
      Done f s'.routine o := by
  rw [throughUnknownRegions_split hw hd hat h] at h
  obtain ⟨hrun, hnone, hwalked⟩ := throughUnknownBlocks_spec htreat hw
    (hat.atBlocks hw hd fun c => (enters_iff_of_unknown hd hclass).mp) h
  refine ⟨hrun, hnone, .intro (fun hcons => ?_) fun b body t hb hlist q hq => ?_⟩
  · cases (isConstruct_of_unknown hd hclass).symm.trans hcons
  · obtain ⟨body', t', front, hw'⟩ := hwalked b ((enters_iff_of_unknown hd hclass).mpr hb)
    obtain ⟨rfl, -⟩ := List.append_inj' (hlist.symm.trans hw'.original) rfl
    exact hw'.done q hq

/-! ## All classes -/

/-- An operation that threading does not go into is done as it is. -/
theorem Done.leaf (hd : f.op? o = some d) (hclass : d.kind.construct? = none)
    (henters : ∀ b, ¬ f.Enters o b) : Done f r o := by
  refine .intro (fun hcons => ?_) fun b _ _ hb => absurd hb (henters b)
  simp [isConstruct_of hd, hclass] at hcons

theorem throughPlain_eq_ok (h : Pass.throughPlain o s = .ok (out, s')) :
    out = .none ∧ s'.routine = s.routine ∧ (∃ pairs, s.routine.plainAliases o = .ok pairs ∧
      s'.aliases = s.aliases.unionAll pairs) ∧ s'.tally = s.tally := by
  obtain ⟨pairs, hpairs, h⟩ := Pass.ask_bind_eq_ok.mp h
  obtain ⟨_, s₁, hunion, h⟩ := Pass.bind_eq_ok.mp h
  obtain ⟨hroutine, haliases⟩ := Pass.modifyAliases_eq_ok hunion
  cases h
  exact ⟨rfl, hroutine, ⟨pairs, hpairs, haliases⟩, Pass.modifyAliases_tally hunion⟩

/-- An operation with effects puts owns for what it allocates right after itself. -/
theorem AtOp.throughEffects {allocated freed : List ValueId} (hat : AtOp f s o owned b front rest)
    (h : Pass.throughEffects o allocated freed s = .ok (out, s')) :
    ∃ next post, rest = next :: post ∧ out.released = .ofList freed ∧
      Pass.ownAll (.before next) allocated s = .ok (out.acquired, s') := by
  obtain ⟨next, post, rfl⟩ := List.exists_cons_of_ne_nil hat.rest_ne
  obtain ⟨point, hpoint, h⟩ := Pass.ask_bind_eq_ok.mp h
  obtain rfl := pointAfter_eq_ok hat.threaded.wellFormed.linked hat.list hpoint
  obtain ⟨acquired, s₁, hown, h⟩ := Pass.bind_eq_ok.mp h
  cases h
  exact ⟨next, post, rfl, rfl, hown⟩

/-- What is done with an operation, by its class. -/
def Pass.byClass (settings : Settings) (treat : OpPass) (o : OpId) (owned : ValueSet) :
    OpClass → Pass Outcome
  | .construct kind => throughConstruct settings treat kind o owned
  | .effects allocated freed => throughEffects o allocated freed
  | .routine => throughRoutine settings treat o
  | .unknownRegions => throughUnknownRegions settings treat o
  | .plain => throughPlain o

theorem Pass.throughOp_of (hd : s.routine.op? o = some d) :
    throughOp settings treat o owned s = byClass settings treat o owned d.classify s := by
  unfold throughOp
  rw [Pass.bind_of_ok (Pass.ask_eq_ok.mpr ⟨op_eq_ok.mpr hd, rfl⟩)]
  cases d.classify <;> rfl

/-- An operation that stands in a block is no routine: only the root is one. -/
theorem AtOp.not_routine (hat : AtOp f s o owned b front rest)
    (hw : f.WellFormed) (hd : f.op? o = some d) : d.classify ≠ .routine := by
  intro hclass
  have hspec := d.classify_spec
  simp only [hclass] at hspec
  obtain ⟨name, hname⟩ := hspec
  have hparent := hat.parent
  rw [hw.only_root o name (by rw [kind?_of hd, hname]), hw.root_unlinked] at hparent
  cases hparent

/-- Treating an operation is within its bounds if treating those inside it is. -/
theorem throughOp_spec (htreat : OpSpec f treat) (hw : f.WellFormed) :
    OpSpec f (Pass.throughOp settings treat) := by
  intro o owned s s' out b front rest hat h
  have ⟨ht, hvisited, hparent, hlist, hrest, hun, _⟩ := hat
  obtain ⟨d, hd, -⟩ := exists_op?_of_parent? hparent
  obtain ⟨τ, hentry⟩ := hat.entry hw hd
  rw [Pass.throughOp_of hentry, Op.classify_map] at h
  have hspec := d.classify_spec
  cases hclass : d.classify with
  | construct kind =>
    simp only [hclass, Pass.byClass] at h hspec
    exact throughConstruct_spec hw hd (by simp [hspec]) htreat hat h
  | effects allocated freed =>
    simp only [hclass, Pass.byClass] at h hspec
    obtain ⟨hcons, rfl, -⟩ := hspec
    -- owns come right after it, and they are all that is put in
    obtain ⟨next, post, rfl, -, hown⟩ := hat.throughEffects h
    have hbuffers : ∀ v ∈ d.allocated, v ∈ s.routine.resultsOf o ∧ f.AllocatedIn b v :=
      fun v hv => ⟨hat.allocated_results hw hd v hv, o, d, hvisited, hd, hparent, hv⟩
    have hlist : s.routine.opsOf b = front ++ o :: ([] ++ next :: post) := hlist
    obtain ⟨owns, hrun, hlist', -, htokens⟩ := ownAll_spec hw ht hlist (by simp) hbuffers hown
    refine ⟨o :: owns, hrun.mono (Footprint.emission_within _), by simpa using hlist',
      by simpa using htokens, .leaf hd hcons ?_⟩
    rintro c ⟨d', hd', hc⟩
    obtain rfl := Option.mem_unique hd hd'
    rwa [hclass] at hc
  | routine => exact absurd hclass (hat.not_routine hw hd)
  | unknownRegions =>
    simp only [hclass, Pass.byClass] at h
    obtain ⟨hrun, rfl, hdone⟩ := throughUnknownRegions_spec htreat hw hd hclass hat h
    -- what is done happens in its own blocks, so it stays where it is
    have hholder : ∀ c ∈ d.regions.flatMap f.blocksOf, f.holder? c = some o := fun c hc => by
      rw [hw.linked.holder?_iff, regionsOf_of hd]
      exact List.mem_flatMap.mp hc
    exact ⟨[o], hrun.mono (Footprint.ofBlocks_within hholder),
      by simp [hrun.opsOf_parent hw hvisited hparent hholder, hlist], by simp [Outcome.none], hdone⟩
  | plain =>
    simp only [hclass, Pass.byClass] at h hspec
    -- only classes are joined
    obtain ⟨rfl, hroutine, ⟨pairs, -, haliases⟩, -⟩ := throughPlain_eq_ok h
    refine ⟨[o], Run.unionAll hroutine haliases, by simp [hroutine, hlist], by simp [Outcome.none],
      .leaf hd hspec ?_⟩
    rintro c ⟨d', hd', hc⟩
    obtain rfl := Option.mem_unique hd hd'
    rwa [hclass] at hc

/-- Treating an operation is within its bounds, however deep it goes. -/
theorem throughOpWithin_spec (hw : f.WellFormed) (settings : Settings) (fuel : Nat) :
    OpSpec f (Pass.throughOpWithin settings fuel) := by
  induction fuel with
  | zero =>
    intro o owned s s' out b front rest _ h
    cases h
  | succ fuel ih =>
    intro o owned s s' out b front rest hat h
    exact throughOp_spec ih hw hat h

/-! ## From the root -/

theorem Untouched.start (hw : f.WellFormed) (ho : f.Reached o) : Untouched f f o where
  ops p hp := ⟨hw.live p (ho.inside hp), rfl⟩
  lists _ _ := rfl
  args _ _ := rfl

theorem BlockUntouched.start (hw : f.WellFormed) (henters : f.Enters f.root b) :
    BlockUntouched f f b :=
  (Untouched.start hw .refl).block hw.linked (henters.holder? hw.linked)

/-- What is done with a routine after the pass through its block. -/
def Pass.finishRoutine (o : OpId) (name : String) (outcome : Outcome) : Pass Outcome :=
  if outcome.released.isEmpty then
    return { released := ∅, acquired := outcome.acquired }
  else
    reject (.invalidRealloc o name)

/-- The root is treated as a routine. -/
theorem throughOp_routine (hw : f.WellFormed) : Pass.throughOp settings treat f.root ∅ (.start f) =
      Pass.throughRoutine settings treat f.root (.start f) := by
  obtain ⟨rootName, hroot⟩ := hw.root_routine
  obtain ⟨d, hd, hkind⟩ := exists_op?_of_kind? hroot
  rw [Pass.throughOp_of (s := .start f) hd, Op.classify_of_routine hkind]
  rfl

/-- What is found as the body of the routine is a block that threading goes into. -/
theorem bodyBlock?_eq_some (hw : f.WellFormed)
    (h : Pass.bodyBlock? f.root (.start f) = .ok (some b, s)) :
    s = .start f ∧ f.Enters f.root b := by
  obtain ⟨rootName, hroot⟩ := hw.root_routine
  obtain ⟨d, hd, hkind⟩ := exists_op?_of_kind? hroot
  have hask : Pass.ask (·.op f.root) (.start f) = .ok (d, .start f) :=
    Pass.ask_eq_ok.mpr ⟨op_eq_ok.mpr hd, rfl⟩
  unfold Pass.bodyBlock? at h
  rw [Pass.bind_of_ok hask] at h
  cases hregions : d.regions with
  | nil =>
    simp only [hregions] at h
    obtain ⟨hb, -⟩ := Pass.pure_eq_ok.mp h
    cases hb
  | cons g rest =>
    simp only [hregions] at h
    obtain ⟨hb, rfl⟩ := Pass.ask_eq_ok.mp h
    refine ⟨rfl, d, hd, ?_⟩
    rw [Op.classify_of_routine hkind]
    exact ⟨g, by simp [hregions], singleBlock?_eq_some hb⟩

/-- The root is gone through by its block. -/
theorem throughOp_root (hw : f.WellFormed)
    (h : Pass.throughOp settings treat f.root ∅ (.start f) = .ok (out, s)) :
    ∃ b name, f.Enters f.root b ∧ ∀ treat', Pass.throughOp settings treat' f.root ∅ (.start f) =
      (Pass.throughBlock settings treat' b false >>= Pass.finishRoutine f.root name)
        (.start f) := by
  rw [throughOp_routine hw] at h
  obtain ⟨name, _, hname, h⟩ := Pass.bind_eq_ok.mp h
  obtain ⟨-, rfl⟩ := Pass.ask_eq_ok.mp hname
  obtain ⟨b?, s₁, hbody, h⟩ := Pass.bind_eq_ok.mp h
  cases b? with
  | none => exact absurd h Pass.reject_ne_ok
  | some b =>
    obtain ⟨rfl, henters⟩ := bodyBlock?_eq_some hw hbody
    refine ⟨b, name, henters, fun treat' => ?_⟩
    rw [throughOp_routine hw]
    unfold Pass.throughRoutine
    rw [Pass.bind_of_ok hname, Pass.bind_of_ok hbody]
    rfl

theorem finishRoutine_eq_ok {name : String} {outcome : Outcome}
    (h : Pass.finishRoutine o name outcome s = .ok (out, s')) :
    outcome.released = ∅ ∧ out = { released := ∅, acquired := outcome.acquired } ∧ s = s' := by
  unfold Pass.finishRoutine at h
  split at h
  · rename_i hempty
    cases h
    exact ⟨ValueSet.isEmpty_iff.mp hempty, rfl, rfl⟩
  · exact absurd h Pass.reject_ne_ok

/-- Threading goes through the body, where nothing is released that comes from outside. -/
theorem threadFromRoot_block (hw : f.WellFormed) (h : f.threadFromRoot settings = .ok (out, s)) :
    ∃ b outcome, f.Enters f.root b ∧
      Pass.throughBlock settings (Pass.throughOpWithin settings f.ops.size) b false (.start f) =
        .ok (outcome, s) ∧
      outcome.released = ∅ ∧ out = { released := ∅, acquired := outcome.acquired } := by
  obtain ⟨b, name, henters, hsplit⟩ := throughOp_root hw h
  obtain ⟨outcome, s₁, hblock, h⟩ := Pass.bind_eq_ok.mp ((hsplit _).symm.trans h)
  obtain ⟨hnone, rfl, rfl⟩ := finishRoutine_eq_ok h
  exact ⟨b, outcome, henters, hblock, hnone, rfl⟩

/-- Threading goes into one block of the root. -/
theorem Routine.WellFormed.root_block_unique (hw : f.WellFormed) (hb : f.Enters f.root b)
    (hc : f.Enters f.root c) : b = c := by
  obtain ⟨name, hroot⟩ := hw.root_routine
  obtain ⟨d, hd, hkind⟩ := exists_op?_of_kind? hroot
  have hclass := Op.classify_of_routine hkind
  obtain ⟨d', hd', hb⟩ := hb
  obtain ⟨d'', hd'', hc⟩ := hc
  obtain rfl := Option.mem_unique hd hd'
  obtain rfl := Option.mem_unique hd hd''
  rw [hclass] at hb hc
  obtain ⟨g, hg, hb⟩ := hb
  obtain ⟨g', hg', hc⟩ := hc
  obtain rfl := Option.mem_unique hg hg'
  simpa using hb.symm.trans hc

/-- Threading keeps the session threaded, treats all that is visited, and returns tokens. -/
theorem threadFromRoot_spec (hw : f.WellFormed) (h : f.threadFromRoot settings = .ok (out, s)) :
    Threaded f s ∧ Done f s.routine f.root ∧ ∃ b body t front, f.Enters f.root b ∧
      Walked f s.routine b false body t front ∧
      out.acquired.length = f.bufferCount (f.operandsOf t) ∧
      ∀ i ∈ out.acquired, Token f s.routine b front i := by
  have ht := Threaded.start hw
  obtain ⟨b, outcome, henters, hblock, -, rfl⟩ := threadFromRoot_block hw h
  have hun := BlockUntouched.start hw henters
  obtain ⟨hrun, body, t, front, hwalked, hcount, htokens⟩ := throughBlock_spec
    (throughOpWithin_spec hw settings f.ops.size) hw ht .refl henters (by simp) hun hblock
  refine ⟨ht.run hw hrun, .intro (fun hcons => ?_) fun c body' t' hc hlist q hq => ?_,
    b, body, t, front, henters, hwalked, hcount, htokens⟩
  · cases hcons.symm.trans hw.isConstruct_root
  · obtain rfl := hw.root_block_unique henters hc
    obtain ⟨rfl, -⟩ := List.append_inj' (hlist.symm.trans hwalked.original) rfl
    exact hwalked.done q hq

end BufferOwnership
