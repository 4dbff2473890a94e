import BufferOwnership.Proofs.Releases

/-!
# Freed buffers and their indicators

A buffer that is freed in the block that allocates it has no use for its indicator any more: the
release strikes it off, and from then on it is idle. What makes an idle indicator used is always a
release of it or of its buffer: a construct takes it over, or a branch hands it on since the other
branch releases the buffer. So it stays idle to the end, unless such a release strikes off another
indicator in its place.
-/

namespace BufferOwnership

open Routine

/-- An indicator that was introduced and that no live operation uses. -/
structure Idle (f r : Routine) (i : ValueId) : Prop where
  introduced : Introduced f r i
  unused : r.useCount i = 0

/-- A release of a buffer, or of its indicator, strikes off another indicator. -/
def Mistaken (f : Routine) (settings : Settings) (v i : ValueId) : Prop :=
  ∃ x w j, j ≠ i ∧ Strikes f settings x w j ∧ (w = v ∨ w = i)

/-- What has become of the idle indicator of a buffer: it is idle still and not among those that are
left, or one of the two is released, or a release of one of them strikes off another indicator. -/
def Quiet (f : Routine) (settings : Settings) (v i : ValueId) (r : Routine) (left : Prop)
    (released : ValueId → Prop) : Prop :=
  (Idle f r i ∧ ¬ left) ∨ (∃ w, released w ∧ (w = v ∨ w = i)) ∨ Mistaken f settings v i

variable {f g r r' : Routine} {s s' final : Session} {b : BlockId} {o x : OpId}
variable {front rest : List OpId} {i v w : ValueId} {d : Op} {settings : Settings} {fuel : Nat}
variable {out : Outcome} {k K : Transit} {c : Call}

/-! ## Single stages -/

section Ledgers

variable {given left : List ValueId} {sound : Prop}

/-- An idle indicator stays so where it is not consumed. -/
theorem Idle.ledger (hi : Idle f r i) (h : Ledger f r given r' left sound) (hnot : i ∉ given) :
    Idle f r' i ∧ i ∉ left := by
  have hcarried := h.carried i hi.introduced
  rw [hi.unused, List.count_eq_zero.mpr hnot] at hcarried
  refine ⟨⟨h.kept.introduced h.booked.linked hi.introduced, ?_⟩, List.count_eq_zero.mp ?_⟩
  · omega
  · omega

/-- What is left behind is idle, if it is new. -/
theorem Ledger.idle (h : Ledger f r given r' left True) (hi : i ∈ left)
    (hnew : r.values.size ≤ i.index) (hintroduced : Introduced f r' i) : Idle f r' i := by
  have hspent := h.spent trivial i hintroduced fun hold =>
    Nat.not_lt.mpr hnew (hold.known h.booked.linked)
  have hcount := List.count_pos_iff.mpr hi
  exact ⟨hintroduced, by omega⟩

end Ledgers

theorem Ready.known {region : RegionId} {acquired : List ValueId}
    (h : Ready f r region acquired) (hl : r.Linked) : ∀ j ∈ acquired, j.index < r.values.size := by
  intro j hj
  rcases h with ⟨-, hnone⟩ | ⟨_, _, _, _, hp⟩
  · rw [hnone] at hj
    cases hj
  · rcases hp.handed j hj with htoken | hcaptured
    · exact htoken.known
    · exact hcaptured.scope.known hl

section Construct

variable {owned : ValueSet} {site : ConstructSite} {outs : List RegionOutcome}
variable (pass : ConstructPass f settings o d owned site outs s b front rest out s')
variable (hw : f.WellFormed) (hd : f.op? o = some d) (hcons : d.kind.construct?.isSome = true)
include pass hw hd hcons

/-- A construct leaves an idle indicator idle, or releases it or what it is recorded for. -/
theorem ConstructPass.quiet (ht : Threaded f s) (hi : Idle f s.routine i)
    (hnot : ∀ region ∈ outs, i ∉ region.outcome.acquired) :
    (Idle f s'.routine i ∧ i ∉ out.acquired) ∨
      ∃ w ∈ out.released, (w, i) ∈ s.aliases.indicators ∨ w = i := by
  by_cases hcaptured : ∃ w ∈ pass.agreed.released, (w, i) ∈ s.aliases.indicators
  · obtain ⟨w, hw, hrecorded⟩ := hcaptured
    exact .inr ⟨w, transferOperands_released hw pass.transfers, .inl hrecorded⟩
  · have ht' := pass.forgets.threaded ht hw
    have hroutine := pass.forgets.routine
    have hready : ∀ region ∈ pass.agreed.regions,
        Ready f pass.reconciled.routine region.region region.outcome.acquired := by
      rw [hroutine]
      exact pass.agrees.ready
    -- the regions do not hand it on after they have been brought to agree either
    have hregions := sendAll_ledger (ht'.booked hw)
      (fun region hr => (hready region hr).sendable hw ht')
      (fun region hr => (hready region hr).known ht'.wellFormed.linked) pass.sends
    have hsent := hroutine.symm ▸ hi
    obtain ⟨hsent, -⟩ := Idle.ledger hsent hregions <| by
      intro hmem
      obtain ⟨region, hr, hmem⟩ := List.mem_flatMap.mp hmem
      rcases pass.agrees.acquired region hr i hmem with ⟨region', hr', hmem⟩ | hrecorded
      · exact hnot region' hr' hmem
      · exact hcaptured hrecorded
    -- nothing is used more when retains are dropped
    have hl := (ht'.run hw pass.run_sends).wellFormed.linked
    have hinside : Idle f pass.inside.routine i :=
      ⟨pass.run_drops.keeps.introduced hl hsent.introduced,
        Nat.le_zero.mp (hsent.unused ▸ pass.uses_drops i)⟩
    obtain ⟨htransfer, hbalance, -, -⟩ :=
      transferOperands_ledger (pass.threaded.booked hw) pass.transfers
    obtain ⟨htransferred, -⟩ := hinside.ledger htransfer (by simp)
    by_cases htaken : i ∈ pass.indicators
    · -- what is taken over is released
      right
      refine ⟨i, ?_, .inr rfl⟩
      have hcount := hbalance i htransferred.introduced
      have hpos := List.count_pos_iff.mpr htaken
      exact List.count_pos_iff.mp (by omega)
    · exact .inl (htransferred.ledger (pass.ledger_rebuild hw hd hcons) htaken)

/-- What a construct leaves is idle. -/
theorem ConstructPass.idle_acquired (hi : i ∈ out.acquired) : Idle f s'.routine i := by
  obtain ⟨-, -, -, hnew⟩ := pass.made hw hcons
  exact (pass.ledger_rebuild hw hd hcons).idle hi (hnew.fresh i hi) (hnew.introduced i hi)

end Construct

/-- What an operation that is called for acquires is idle. -/
theorem Call.Placed.idle_acquired (h : c.Placed f settings final fuel b front rest)
    (hw : f.WellFormed) (hi : i ∈ c.out.acquired) : Idle f c.after.routine i := by
  have ht := h.atOp.threaded
  obtain ⟨n, d, rfl, hd, hcase⟩ := h.cases hw
  cases hcase with
  | effects next post _ _ hown _ =>
    obtain ⟨hledger, hacquired⟩ := ownAll_ledger (ht.booked hw) (by simp [hd])
      (h.atOp.allocated_results hw hd) hown
    exact hledger.idle hi (hacquired.fresh i hi) (hacquired.introduced i hi)
  | plain pairs _ hnone => simp [hnone, Outcome.none] at hi
  | unknown outs _ hnone => simp [hnone, Outcome.none] at hi
  | construct kind site outs regions mid hkind _ _ _ _ _ _ hpass =>
    obtain ⟨pass⟩ := hpass
    exact pass.idle_acquired hw hd (by simp [hkind]) hi

/-! ## Calls and transits -/

section Root

variable {outs : List Outcome} {treat : OpPass}

variable (hw : f.WellFormed) (hroot : f.threadFromRoot settings = .ok (out, final))
include hw hroot

section

variable (hk : Transits f settings fuel k) (hc : k.Calls (Pass.throughOpWithin settings fuel) c)
include hk hc

/-- An operation of a block that does not own the indicator. -/
theorem Quiet.absorb (hnot : i ∉ c.held.owned)
    (hq : Quiet f settings v i c.after.routine (i ∈ c.out.acquired) (· ∈ c.out.released)) :
    Quiet f settings v i c.after.routine (i ∈ c.heldAfter.owned) (· ∈ c.heldAfter.released) := by
  rcases hk.placed hw hroot with ⟨o, hplaced⟩
  rcases hq with ⟨hidle, hleft⟩ | ⟨w, hw', htied⟩ | hmistaken
  · refine .inl ⟨hidle, fun hmem => ?_⟩
    rcases Holdings.mem_owned_absorb hmem with hmem | hmem
    · exact hnot hmem
    · exact hleft hmem
  · rcases hplaced.absorb_cases hw hc hw' with ⟨j, hj, hstruck, hgone⟩ | hpassed
    · refine .inr (.inr ⟨c.op, w, j, ?_, ⟨fuel, k, c, hk, hc, rfl, hw', hj, hstruck, hgone⟩, htied⟩)
      rintro rfl
      exact hnot hj
    · exact .inr (.inl ⟨w, hpassed, htied⟩)
  · exact .inr (.inr hmistaken)

/-- From one call of such a block to the next. -/
theorem Quiet.step
    (hcall : Idle f c.before.routine i →
      Quiet f settings v i c.after.routine (i ∈ c.out.acquired) (· ∈ c.out.released))
    (hq : Quiet f settings v i c.before.routine (i ∈ c.held.owned) (· ∈ c.held.released)) :
    Quiet f settings v i c.after.routine (i ∈ c.heldAfter.owned) (· ∈ c.heldAfter.released) := by
  rcases hq with ⟨hidle, hnot⟩ | ⟨w, hw', htied⟩ | hmistaken
  · exact .absorb hw hroot hk hc hnot (hcall hidle)
  · exact .inr (.inl ⟨w, Holdings.released_absorb hw', htied⟩)
  · exact .inr (.inr hmistaken)

end

omit hroot in
/-- The end of a block. -/
theorem BlockPass.quiet
    (pass : k.Passage f settings treat)
    (hq : Quiet f settings v i pass.walked.routine (i ∈ pass.held.owned)
      (· ∈ pass.held.released)) :
    Quiet f settings v i k.after.routine (i ∈ k.out.acquired) (· ∈ k.out.released) := by
  rcases hq with ⟨hidle, hnot⟩ | ⟨w, hw', htied⟩ | hmistaken
  · have hledger := closeBlock_ledger (pass.threaded.booked hw)
      (fun j hj => (pass.tokens j hj).known) pass.closes
    exact .inl (hidle.ledger hledger hnot)
  · rw [← pass.released] at hw'
    exact .inr (.inl ⟨w, hw', htied⟩)
  · exact .inr (.inr hmistaken)

/-- A transit of a block that is opened later than the indicator was introduced. -/
theorem Transits.quiet (hk : Transits f settings fuel k)
    (hcalls : ∀ c, k.Calls (Pass.throughOpWithin settings fuel) c → Idle f c.before.routine i →
      Quiet f settings v i c.after.routine (i ∈ c.out.acquired) (· ∈ c.out.released))
    (hi : Idle f k.before.routine i) :
    Quiet f settings v i k.after.routine (i ∈ k.out.acquired) (· ∈ k.out.released) := by
  rcases hk.placed hw hroot with ⟨o, hplaced⟩
  obtain ⟨pass⟩ := hplaced.pass hw
  obtain ⟨hledger, -⟩ := openBlock_ledger (hplaced.threaded.booked hw) pass.opens
  apply pass.quiet hw
  apply (Transit.Placed.walk pass (P := fun held s =>
    Quiet f settings v i s.routine (i ∈ held.owned) (· ∈ held.released)) _ _).1
  · intro c hc
    exact .step hw hroot hk hc (hcalls c hc)
  · exact .inl (hi.ledger hledger (by simp))

omit hroot in
/-- The blocks of an operation, one after the other. -/
theorem BlocksPassed.quiet {owns : Bool} {bs : List BlockId}
    (h : BlocksPassed settings treat owns bs s outs s') (htreat : OpSpec f treat)
    (hat : AtBlocks f s o bs) (howns : owns = true → f.isConstruct o = true)
    (hquiet : ∀ k, BlockCalls settings treat owns bs s k → Idle f k.before.routine i →
      Quiet f settings v i k.after.routine (i ∈ k.out.acquired) (· ∈ k.out.released))
    (hi : Idle f s.routine i) :
    Quiet f settings v i s'.routine (∃ out ∈ outs, i ∈ out.acquired)
      (fun w => ∃ out ∈ outs, w ∈ out.released) := by
  induction h with
  | nil => exact .inl ⟨hi, by simp⟩
  | @cons b rest s mid s' out outs hgoes hrest ih =>
    obtain ⟨-, hat', -⟩ := hat.goes htreat hw howns hgoes
    rcases hquiet _ (.first hgoes) hi with ⟨hidle, hnot⟩ | ⟨w, hw', htied⟩ | hmistaken
    -- as long as the indicator is idle, the next block is in the same position
    · rcases ih hat' (fun k hk => hquiet k (.later hgoes hk)) hidle with
        ⟨hidle, hothers⟩ | ⟨w, ⟨out', hout', hw'⟩, htied⟩ | hmistaken
      · refine .inl ⟨hidle, ?_⟩
        rintro ⟨out', hout', hmem⟩
        rcases List.mem_cons.mp hout' with rfl | hout'
        · exact hnot hmem
        · exact hothers ⟨out', hout', hmem⟩
      · exact .inr (.inl ⟨w, ⟨out', by simp [hout'], hw'⟩, htied⟩)
      · exact .inr (.inr hmistaken)
    · exact .inr (.inl ⟨w, ⟨out, by simp, hw'⟩, htied⟩)
    · exact .inr (.inr hmistaken)

section

variable (honly : ∀ w, Recorded f final.routine w i → w = v)
include honly

omit hroot in
/-- An operation that is called for, given what becomes of the indicator in its blocks. -/
theorem Call.Placed.quiet (h : c.Placed f settings final (fuel + 1) b front rest)
    (hd : f.op? c.op = some d) (hleaf : (∀ a, ¬ f.Enters c.op a) → Idle f c.before.routine i)
    (hblocks : ∀ outs mid, AtBlocks f c.before c.op (d.regions.flatMap f.blocksOf) →
      BlocksPassed settings (Pass.throughOpWithin settings fuel) (f.isConstruct c.op)
        (d.regions.flatMap f.blocksOf) c.before outs mid →
      Quiet f settings v i mid.routine (∃ out ∈ outs, i ∈ out.acquired)
        (fun w => ∃ out ∈ outs, w ∈ out.released)) :
    Quiet f settings v i c.after.routine (i ∈ c.out.acquired) (· ∈ c.out.released) := by
  have ht := h.atOp.threaded
  have htreat : OpSpec f _ := throughOpWithin_spec hw settings fuel
  cases throughOp_cases htreat hw hd h.atOp h.treats with
  | effects next post hclass _ hown _ =>
    obtain ⟨hledger, -⟩ := ownAll_ledger (ht.booked hw) (by simp [hd])
      (h.atOp.allocated_results hw hd) hown
    have hidle := hleaf fun a ha => (ha.classify hd).2 _ _ hclass
    exact .inl (hidle.ledger hledger (by simp))
  | plain pairs hclass hnone hroutine _ =>
    have hidle := hleaf fun a ha => (ha.classify hd).1 hclass
    exact .inl ⟨hroutine ▸ hidle, by simp [hnone, Outcome.none]⟩
  | unknown outs hclass hnone hat hpassed houts =>
    rcases hblocks outs c.after hat (isConstruct_of_unknown hd hclass ▸ hpassed) with
      ⟨hidle, -⟩ | ⟨w, ⟨out, hout, hw'⟩, -⟩ | hmistaken
    · exact .inl ⟨hidle, by simp [hnone, Outcome.none]⟩
    · rw [(houts out hout).1] at hw'
      exact absurd hw' ValueSet.not_mem_empty
    · exact .inr (.inr hmistaken)
  | construct kind site outs regions mid hkind hat hpassed hto hfrom _ _ hpass =>
    obtain ⟨pass⟩ := hpass
    have hcons : f.isConstruct c.op = true := by simp [isConstruct_of hd, hkind]
    have ht' := ht.run hw (hpassed.run htreat hw hat fun _ => hcons)
    rcases hblocks outs mid hat (hcons ▸ hpassed) with
      ⟨hidle, hnot⟩ | ⟨w, ⟨out, hout, hw'⟩, htied⟩ | hmistaken
    · -- no region hands it on, so the construct takes it over only as a release
      have hregions : ∀ region ∈ regions, i ∉ region.outcome.acquired := by
        intro region hr hmem
        rcases hfrom region hr with hnone | hout
        · simp [hnone, Outcome.none] at hmem
        · exact hnot ⟨_, hout, hmem⟩
      rcases pass.quiet hw hd (by simp [hkind]) ht' hidle hregions with
        hidle | ⟨w, hw', hrecorded | rfl⟩
      · exact .inl hidle
      · -- what is recorded for a value now is recorded for the same one in the end
        have hrec := (ht'.recorded w i hrecorded).run ht' hw
          (pass.run.anywhere.trans h.later.anywhere)
        exact .inr (.inl ⟨w, hw', .inl (honly w hrec)⟩)
      · exact .inr (.inl ⟨w, hw', .inr rfl⟩)
    · rcases hto out hout with ⟨region, hr, rfl⟩
      refine .inr (.inl ⟨w, ?_, htied⟩)
      exact transferOperands_released ((pass.agrees.released w).mpr ⟨region, hr, hw'⟩)
        pass.transfers
    · exact .inr (.inr hmistaken)

section

variable (hk : Transits f settings fuel k) (hc : k.Calls (Pass.throughOpWithin settings fuel) c)
include hk hc

/-- An operation that is called for when an indicator is idle. The induction is on the fuel, which
is less for the operations inside. -/
theorem quiet_call (hi : Idle f c.before.routine i) :
    Quiet f settings v i c.after.routine (i ∈ c.out.acquired) (· ∈ c.out.released) := by
  induction fuel generalizing k c with
  | zero =>
    rcases hk.placed hw hroot with ⟨o, hplaced⟩
    rcases hplaced.call hw hc with ⟨front, rest, hcall⟩
    obtain ⟨n, d, hfuel, -⟩ := hcall.cases hw
    cases hfuel
  | succ fuel ih =>
    rcases hk.placed hw hroot with ⟨o, hplaced⟩
    rcases hplaced.call hw hc with ⟨front, rest, hcall⟩
    obtain ⟨_, d, -, hd, -⟩ := hcall.cases hw
    apply hcall.quiet hw honly hd fun _ => hi
    intro outs mid hat hpassed
    apply hpassed.quiet hw (throughOpWithin_spec hw settings fuel) hat id _ hi
    intro k' hk' hi'
    have hinner := Transits.of_blockCalls hk hc hd hat hpassed hk'
    exact hinner.quiet hw hroot (fun c' hc' => ih hinner hc') hi'

/-- From one call of a block on to the end of the block. -/
theorem Transits.quiet_from
    (hq : Quiet f settings v i c.after.routine (i ∈ c.heldAfter.owned) (· ∈ c.heldAfter.released)) :
    Quiet f settings v i k.after.routine (i ∈ k.out.acquired) (· ∈ k.out.released) := by
  rcases hk.placed hw hroot with ⟨o, hplaced⟩
  obtain ⟨pass⟩ := hplaced.pass hw
  apply pass.quiet hw
  apply Transit.Placed.walk_from hw pass
    (P := fun held s => Quiet f settings v i s.routine (i ∈ held.owned) (· ∈ held.released)) _ hc hq
  intro c' hc'
  exact .step hw hroot hk hc' (quiet_call hw hroot honly hk hc')

end

end

section

variable (hk : Transits f settings fuel k) (hplace : IndicatorOf f final.routine b i)
variable (hunder : f.Under k.block b)
include hk hplace hunder

/-- A release that leaves a block strikes off an indicator of a block around it. -/
theorem Transits.strikes_outside (hreleased : w ∈ k.out.released) :
    ∃ x j, j ≠ i ∧ Strikes f settings x w j := by
  obtain ⟨ht, -⟩ := threadFromRoot_spec hw hroot
  rcases hk.placed hw hroot with ⟨o, hplaced⟩
  have hholder := hplaced.holder? hw
  rcases hk.strikes hw hroot hholder hreleased with
    ⟨x, a, j, hbranches, hvisited, hparent, hstrikes, hj⟩
  refine ⟨x, j, ?_, hstrikes⟩
  rintro rfl
  -- the operation would stand in a block that is inside it
  obtain rfl := hj.block_unique hplace ht.wellFormed.linked
  obtain ⟨p, hin, hp⟩ := insideBlock_iff.mpr ⟨k.block, hholder, hunder⟩
  exact InsideBlock.not_parent hw.root_unlinked (hvisited.reached hw.linked) hparent
    ⟨p, hbranches.to_inside.trans hin, hp⟩

/-- A release that reaches a block further out strikes off another indicator. -/
theorem Transits.settle
    (hq : Quiet f settings v i k.after.routine (i ∈ k.out.acquired) (· ∈ k.out.released)) :
    (Idle f k.after.routine i ∧ i ∉ k.out.acquired) ∨ Mistaken f settings v i := by
  rcases hq with hidle | ⟨w, hreleased, htied⟩ | hmistaken
  · exact .inl hidle
  · rcases hk.strikes_outside hw hroot hplace hunder hreleased with ⟨x, j, hne, hstrikes⟩
    exact .inr ⟨x, w, j, hne, hstrikes, htied⟩
  · exact .inr hmistaken

end

section

variable (honly : ∀ w, Recorded f final.routine w i → w = v)
include honly

/-- The other blocks of an operation, once an indicator is idle in one of them. It is new there, so
the blocks before have nothing to do with it. -/
theorem Transits.quiet_siblings {mid : Session} (hK : Transits f settings (fuel + 1) K)
    (hc : K.Calls (Pass.throughOpWithin settings (fuel + 1)) c) (hd : f.op? c.op = some d)
    (hk : BlockCalls settings (Pass.throughOpWithin settings fuel) (f.isConstruct c.op)
      (d.regions.flatMap f.blocksOf) c.before k) (hidle : Idle f k.after.routine i)
    (hnot : i ∉ k.out.acquired) (hfresh : k.before.routine.values.size ≤ i.index)
    (hat : AtBlocks f c.before c.op (d.regions.flatMap f.blocksOf))
    (hpassed : BlocksPassed settings (Pass.throughOpWithin settings fuel) (f.isConstruct c.op)
      (d.regions.flatMap f.blocksOf) c.before outs mid) :
    Quiet f settings v i mid.routine (∃ out ∈ outs, i ∈ out.acquired)
      (fun w => ∃ out ∈ outs, w ∈ out.released) := by
  have htreat : OpSpec f _ := throughOpWithin_spec hw settings fuel
  rcases hk.split hpassed with
    ⟨howns, hgoes, bs₁, bs₂, outs₁, outs₂, hbs, rfl, hbefore, hafter, hlater⟩
  have hat₁ := hat
  rw [hbs] at hat₁
  have hat₂ : AtBlocks f k.before c.op (k.block :: bs₂) :=
    hat₁.next hw (hbefore.run htreat hw hat₁.first id)
  obtain ⟨-, hat₃, -⟩ := hat₂.goes htreat hw (fun h => howns ▸ h) hgoes
  -- what the blocks before acquire is known by then, and the indicator is not
  have hearlier : ∀ out ∈ outs₁, i ∉ out.acquired := fun out hout hmem =>
    Nat.not_lt.mpr hfresh (hbefore.known htreat hw hat₁.first id out hout i hmem)
  have hquiet : ∀ k', BlockCalls settings (Pass.throughOpWithin settings fuel)
      (f.isConstruct c.op) bs₂ k.after k' → Idle f k'.before.routine i →
      Quiet f settings v i k'.after.routine (i ∈ k'.out.acquired) (· ∈ k'.out.released) := by
    intro k' hk' hi'
    have hinner := Transits.of_blockCalls hK hc hd hat hpassed (hlater k' hk')
    exact hinner.quiet hw hroot (fun c' hc' => quiet_call hw hroot honly hinner hc') hi'
  rcases hafter.quiet hw htreat hat₃ id hquiet hidle with
    ⟨hidle, hothers⟩ | ⟨w, ⟨out, hout, hw'⟩, htied⟩ | hmistaken
  · refine .inl ⟨hidle, ?_⟩
    rintro ⟨out, hout, hmem⟩
    rcases List.mem_append.mp hout with hout | hout
    · exact hearlier out hout hmem
    · rcases List.mem_cons.mp hout with rfl | hout
      · exact hnot hmem
      · exact hothers ⟨out, hout, hmem⟩
  · exact .inr (.inl ⟨w, ⟨out, by simp [hout], hw'⟩, htied⟩)
  · exact .inr (.inr hmistaken)

/-- An indicator that is idle when the block to which it belongs has been gone through is idle in
the end. The induction goes from the block outwards. -/
theorem Transits.idle_to_end (hk : Transits f settings fuel k)
    (hplace : IndicatorOf f final.routine b i) (hunder : f.Under k.block b)
    (hfresh : k.before.routine.values.size ≤ i.index)
    (hq : Quiet f settings v i k.after.routine (i ∈ k.out.acquired) (· ∈ k.out.released)) :
    (Idle f final.routine i ∧ i ∉ out.acquired) ∨ Mistaken f settings v i := by
  rcases hk.settle hw hroot hplace hunder hq with ⟨hidle, hnot⟩ | hmistaken
  · induction hk with
    | @body k hbefore howns henters hgoes =>
      obtain ⟨hend, -, hacquired⟩ := hgoes.ends hw hroot hbefore howns henters
      exact .inl ⟨hend ▸ hidle, hacquired ▸ hnot⟩
    | @inner fuel K k c d hK hc hd henters hk ih =>
      rcases hK.placed hw hroot with ⟨m, hplaced⟩
      rcases hplaced.call hw hc with ⟨front, rest, hcall⟩
      obtain ⟨ht, -⟩ := threadFromRoot_spec hw hroot
      have hholder := henters.holder? hw.linked
      have hparent := hcall.atOp.parent
      have hunder' : f.Under K.block b :=
        .inr ⟨c.op, hparent, insideBlock_iff.mpr ⟨k.block, hholder, hunder⟩⟩
      -- the block around has not come to own it
      have hout : i ∉ c.held.owned := by
        intro hmem
        have hhere := (hplaced.within hw hc i hmem).1.run (hcall.ahead hw) hcall.atOp.threaded hw
        obtain rfl := hhere.block_unique hplace ht.wellFormed.linked
        exact not_under_parent hw (hcall.atOp.visited.reached hw.linked) hparent hholder hunder
      -- so it is idle after the operation, and to the end of the block around
      have hcallq : Quiet f settings v i c.after.routine (i ∈ c.out.acquired)
          (· ∈ c.out.released) :=
        hcall.quiet hw honly hd (fun hnone => absurd henters (hnone _)) fun outs mid hat hpassed =>
          hK.quiet_siblings hw hroot honly hc hd hk hidle hnot hfresh hat hpassed
      have hquiet := Transits.quiet_from hw hroot honly hK hc (.absorb hw hroot hK hc hout hcallq)
      rcases hK.settle hw hroot hplace hunder' hquiet with ⟨hidle', hnot'⟩ | hmistaken
      · have hrun : Run f .all K.before k.before :=
          (hplaced.run_to hw hc).trans (hcall.run_to hw hd henters hk)
        exact ih hunder' (Nat.le_trans hrun.keeps.size_values hfresh) hquiet hidle' hnot'
      · exact .inr hmistaken
  · exact .inr hmistaken

section

variable (hk : Transits f settings fuel k) (hplace : IndicatorOf f final.routine k.block i)
variable (hc : k.Calls (Pass.throughOpWithin settings fuel) c)
include hk hplace hc

/-- As long as a block owns an indicator of its own, the indicator is idle. -/
theorem Transits.idle_of_owned (hi : i ∈ c.held.owned) :
    Idle f c.before.routine i ∨ Mistaken f settings v i := by
  rcases hk.placed hw hroot with ⟨o, hplaced⟩
  obtain ⟨pass⟩ := hplaced.pass hw
  have hinv := (Transit.Placed.walk pass (P := fun held s =>
    i ∈ held.owned → Idle f s.routine i ∨ Mistaken f settings v i) ?_ ?_).2 c hc
  · exact hinv hi
  · -- an operation leaves it idle, or it is struck off, or something else is in its place
    intro c hc hidle hmem
    rcases hplaced.call hw hc with ⟨front, rest, hcall⟩
    rcases Holdings.mem_owned_absorb hmem with howned | hnew
    · rcases hidle howned with hidle | hmistaken
      · rcases quiet_call hw hroot honly hk hc hidle with
          ⟨hidle, -⟩ | ⟨w, hreleased, htied⟩ | hmistaken
        · exact .inl hidle
        · rcases hplaced.strikes_or_passes hw hk hc hreleased with
            ⟨j, hstrikes, -, -, hgone⟩ | hpassed
          · refine .inr ⟨c.op, w, j, ?_, hstrikes, htied⟩
            rintro rfl
            exact hgone hmem
          · rcases hk.strikes_outside hw hroot hplace (.inl rfl) hpassed with
              ⟨x, j, hne, hstrikes⟩
            exact .inr ⟨x, w, j, hne, hstrikes, htied⟩
        · exact .inr hmistaken
      · exact .inr hmistaken
    · exact .inl (hcall.idle_acquired hw hnew)
  · intro hmem
    obtain ⟨hledger, howned⟩ := openBlock_ledger (hplaced.threaded.booked hw) pass.opens
    exact .inl (hledger.idle hmem (howned i hmem).2 (howned i hmem).1)

/-- An indicator that an operation with effects strikes off in its own block is idle in the end. -/
theorem Transits.idle_of_struck (hd : f.op? c.op = some d)
    (heffects : d.allocated ≠ [] ∨ d.freed ≠ []) (howned : i ∈ c.held.owned)
    (hgone : i ∉ c.heldAfter.owned) :
    (Idle f final.routine i ∧ i ∉ out.acquired) ∨ Mistaken f settings v i := by
  rcases hk.placed hw hroot with ⟨_, hplaced⟩
  rcases hplaced.call hw hc with ⟨front, rest, hcall⟩
  rcases Transits.idle_of_owned hw hroot honly hk hplace hc howned with hidle | hmistaken
  · -- owns are all that the operation itself puts in, and they consume nothing
    obtain ⟨⟨next, hown⟩, -⟩ := hcall.effects hw hd heffects
    obtain ⟨hledger, -⟩ := ownAll_ledger (hcall.atOp.threaded.booked hw) (by simp [hd])
      (hcall.atOp.allocated_results hw hd) hown
    obtain ⟨hidle, -⟩ := hidle.ledger hledger (by simp)
    apply hk.idle_to_end hw hroot honly hplace (.inl rfl) (hplaced.within hw hc i howned).2
    exact Transits.quiet_from hw hroot honly hk hc (.inl ⟨hidle, hgone⟩)
  · exact .inr hmistaken

end

end

end Root

/-! ## Buffers that are freed -/

/-- A block in which something is allocated is one that threading goes into. -/
theorem Routine.AllocatedIn.entered (h : f.AllocatedIn b v) (hw : f.WellFormed) :
    ∃ m, f.Visited m ∧ f.Enters m b := by
  obtain ⟨p, d, hvisited, -, hparent, -⟩ := h
  rcases hvisited.cases_tail with he | ⟨m, hm, a, body, t, henters, hlist, hp⟩
  · rw [he, hw.root_unlinked] at hparent
    cases hparent
  · have ha := (hw.linked.op_listed p a).mp (by simp [hlist, hp])
    obtain rfl := Option.mem_unique ha hparent
    exact ⟨m, hm, henters⟩

/-- What frees something in a block that threading went into is called for there. -/
theorem Transits.exists_free_call (hw : f.WellFormed)
    (hroot : f.threadFromRoot settings = .ok (out, final)) (hk : Transits f settings fuel k)
    (ho : o ∈ final.routine.opsOf k.block) (hfrees : final.routine.Frees o v) :
    ∃ c, k.Calls (Pass.throughOpWithin settings fuel) c ∧ c.op = o ∧ v ∈ c.out.released ∧
      ∃ d, f.op? o = some d ∧ (d.allocated ≠ [] ∨ d.freed ≠ []) := by
  obtain ⟨ht, -⟩ := threadFromRoot_spec hw hroot
  have hl := ht.wellFormed.linked
  obtain ⟨δ, hδ⟩ := ht.embedded
  rcases hk.placed hw hroot with ⟨m, hplaced⟩
  obtain ⟨pass⟩ := hplaced.pass hw
  have hreached : final.routine.Reached o := by
    refine (hδ.reached hw (hplaced.visited.reached hw.linked)).step ?_
    rw [hl.up?_of_mem ho, hδ.change.holder?, hplaced.holder? hw]
    rfl
  obtain ⟨u, hu, rfl⟩ := hfrees.preimage hδ (ht.wellFormed.live o hreached)
  obtain ⟨d, hd, heffects⟩ := hu.effects
  -- it is neither new nor renamed, so it stands in the block from the start
  have hmem : o ∈ f.opsOf k.block := by
    rcases hδ.change.mem_opsOf ho with ⟨p, rfl, hp, -⟩ | hnew
    · have hsame : δ.op p = p := by
        by_contra hne
        rw [(hδ.change.renamed p hne).2.2.1] at hd
        cases hd
      rwa [hsame]
    · rw [(hδ.change.new o hnew).1] at hd
      cases hd
  rcases hplaced.exists_call hw pass.original (hplaced.mem_body hw pass.original hmem hu) with
    ⟨c, hc, rfl⟩
  rcases hplaced.call hw hc with ⟨front, rest, hcall⟩
  exact ⟨c, hc, rfl, hcall.mem_released hw hu hfrees, d, hd, heffects⟩

/-- If a buffer for which an indicator was made is freed in the block in which it was made, then the
indicator is not consumed, unless a release of the buffer or of the indicator strikes off another
one. The indicator is released where a construct takes it over with an alias of the buffer. -/
theorem threadOwnership_free_cancels {report : Report} (hw : f.WellFormed)
    (h : f.threadOwnership settings = .ok (report, g)) (hx : f.op? x = none)
    (hown : g.kind? x = some .own) (hxb : x ∈ g.opsOf b) (hv : g.operandsOf x = [v])
    (hi : i ∈ g.resultsOf x) (ho : o ∈ g.opsOf b) (hfrees : g.Frees o v) :
    (g.uses i = [] ∧ i ∉ report.returned) ∨
      ∃ y w j, j ≠ i ∧ Strikes f settings y w j ∧ (w = v ∨ w = i) := by
  obtain ⟨out, final, hroot, rfl, hreturned⟩ := threadOwnership_eq_ok h
  obtain ⟨ht, -⟩ := threadFromRoot_spec hw hroot
  have hl := ht.wellFormed.linked
  have hplace : IndicatorOf f final.routine b i := .own hxb hx hown hi
  -- the block is one that threading goes into, since the buffer is allocated there
  obtain ⟨δ, hδ⟩ := ht.embedded
  obtain ⟨b', v', hparent, -, halloc⟩ := (hδ.made x hx (hl.op?_of_listed hxb)).owns hown
  obtain rfl := Option.some.inj (hparent.symm.trans ((hl.op_listed x b).mp hxb))
  obtain ⟨m, hm, henters⟩ := halloc.entered hw
  rcases exists_transit hw hroot hm henters with ⟨fuel, k, hk, rfl⟩
  rcases hk.exists_free_call hw hroot ho hfrees with ⟨c, hc, rfl, hreleased, d, hd, heffects⟩
  rcases hk.placed hw hroot with ⟨_, hplaced⟩
  rcases hplaced.strikes_or_passes hw hk hc hreleased with ⟨j, hstrikes, -, howned, hgone⟩ | hpassed
  · by_cases hji : j = i
    · subst hji
      have honly w (hrec : Recorded f final.routine w j) : w = v := hrec.operand hl hi hv
      rcases Transits.idle_of_struck hw hroot honly hk hplace hc hd heffects howned hgone with
        ⟨hidle, hnot⟩ | hmistaken
      · exact .inl ⟨List.length_eq_zero_iff.mp hidle.unused, hreturned ▸ hnot⟩
      · exact .inr hmistaken
    · exact .inr ⟨c.op, v, j, hji, hstrikes, .inl rfl⟩
  · rcases hk.strikes_outside hw hroot hplace (.inl rfl) hpassed with ⟨y, j, hne, hstrikes⟩
    exact .inr ⟨y, v, j, hne, hstrikes, .inl rfl⟩

/-- One of two buffers is freed. -/
def freed : Edit Unit := do
  let entry : InsertPoint := .atEnd ⟨0⟩
  let first ← Emit.alloc entry (.buffer .f32 1)
  let _ ← Emit.alloc entry (.buffer .f32 1)
  let _ ← Emit.dealloc entry first
  let _ ← Emit.ret entry []

def freedRoutine : Routine := freed.build "freed" []

/-- The two buffers are in classes of their own, so the release strikes off the right indicator. -/
theorem freedRoutine_free_cancels :
    ∃ report g, freedRoutine.threadOwnership {} = .ok (report, g) ∧ g.kind? ⟨5⟩ = some .own ∧
      g.operandsOf ⟨5⟩ = [⟨0⟩] ∧ ⟨2⟩ ∈ g.resultsOf ⟨5⟩ ∧ g.FreesAt ⟨3⟩ 0 ⟨0⟩ ∧
      g.uses ⟨2⟩ = [] ∧ ⟨2⟩ ∉ report.returned := by
  have hw : freedRoutine.WellFormed := Routine.wellFormed_of_check (by decide +kernel)
  obtain ⟨⟨report, g⟩, h, hown, hplace, hv, hi, ho, hfrees⟩ := exists_of_check
    (x := freedRoutine.threadOwnership {})
    (P := fun answer => answer.2.kind? ⟨5⟩ = some .own ∧ ⟨5⟩ ∈ answer.2.opsOf ⟨0⟩ ∧
      answer.2.operandsOf ⟨5⟩ = [⟨0⟩] ∧ ⟨2⟩ ∈ answer.2.resultsOf ⟨5⟩ ∧
      ⟨3⟩ ∈ answer.2.opsOf ⟨0⟩ ∧ answer.2.FreesAt ⟨3⟩ 0 ⟨0⟩) (by decide +kernel)
  refine ⟨report, g, h, hown, hv, hi, hfrees, ?_⟩
  apply (threadOwnership_free_cancels hw h (by decide +kernel) hown hplace hv hi ho
    hfrees.frees).resolve_right
  rintro ⟨y, w, j, hne, hstrikes, hw'⟩
  obtain ⟨⟨out, final⟩, hroot, hresult, hsame, hclass⟩ := exists_of_check
    (x := freedRoutine.threadFromRoot {})
    (P := fun answer => ⟨0⟩ ∈ answer.2.routine.resultsOf ⟨1⟩ ∧
      answer.2.aliases.same ⟨0⟩ ⟨2⟩ = true ∧ ∀ n < answer.2.routine.values.size,
        answer.2.aliases.same ⟨2⟩ ⟨n⟩ = true → n = 0 ∨ n = 2)
    (by decide +kernel)
  obtain ⟨ht, -⟩ := threadFromRoot_spec hw hroot
  obtain ⟨hj, hsame'⟩ := hstrikes.introduced hw hroot
  have hwi : final.aliases.same w ⟨2⟩ = true := by
    rcases hw' with rfl | rfl
    · exact hsame
    · simp
  have hij := AliasClasses.same_trans (AliasClasses.same_symm hwi) hsame'
  -- the only other member of the class is the buffer
  rcases hclass j.index (hj.known ht.wellFormed.linked) hij with hzero | htwo
  · obtain rfl : j = ⟨0⟩ := congrArg ValueId.mk hzero
    exact hj.not_result ht.wellFormed.linked (by decide +kernel) hresult
  · exact hne (congrArg ValueId.mk htwo)

/-- Two buffers are mixed, and the second is freed. -/
def mixed : Edit Unit := do
  let entry : InsertPoint := .atEnd ⟨0⟩
  let first ← Emit.alloc entry (.buffer .f32 1)
  let second ← Emit.alloc entry (.buffer .f32 1)
  let _ ← Emit.generic entry "select" [first, second] [.buffer .f32 1] []
  let _ ← Emit.dealloc entry second
  let _ ← Emit.ret entry []

def mixedRoutine : Routine := mixed.build "mixed" []

/-- The free strikes off the first buffer's indicator; the freed one's is released at the end. -/
theorem mixedRoutine_free_not_cancelled :
    mixedRoutine.WellFormed ∧ mixedRoutine.op? ⟨7⟩ = none ∧
      ∃ report g, mixedRoutine.threadOwnership {} = .ok (report, g) ∧ g.kind? ⟨7⟩ = some .own ∧
        g.operandsOf ⟨7⟩ = [⟨1⟩] ∧ ⟨4⟩ ∈ g.resultsOf ⟨7⟩ ∧ ⟨7⟩ ∈ g.opsOf ⟨0⟩ ∧
        ⟨4⟩ ∈ g.opsOf ⟨0⟩ ∧ g.FreesAt ⟨4⟩ 0 ⟨1⟩ ∧ g.uses ⟨4⟩ = [(⟨8⟩, 0)] := by
  refine ⟨Routine.wellFormed_of_check (by decide +kernel), by decide +kernel, ?_⟩
  obtain ⟨⟨report, g⟩, h, hall⟩ := exists_of_check (x := mixedRoutine.threadOwnership {})
    (P := fun answer => answer.2.kind? ⟨7⟩ = some .own ∧ answer.2.operandsOf ⟨7⟩ = [⟨1⟩] ∧
      ⟨4⟩ ∈ answer.2.resultsOf ⟨7⟩ ∧ ⟨7⟩ ∈ answer.2.opsOf ⟨0⟩ ∧ ⟨4⟩ ∈ answer.2.opsOf ⟨0⟩ ∧
      answer.2.FreesAt ⟨4⟩ 0 ⟨1⟩ ∧ answer.2.uses ⟨4⟩ = [(⟨8⟩, 0)]) (by decide +kernel)
  exact ⟨report, g, h, hall⟩

end BufferOwnership
