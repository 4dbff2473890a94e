import BufferOwnership.Proofs.Certify
import BufferOwnership.Proofs.ShapeSpec
import BufferOwnership.Proofs.Stops

/-!
# What a rejection points at

While the work goes on, constructs give way to new ones. `Routine.standstill` is the routine as it
is when the work stops: it goes again through all that has come to its end, and from there down to
the operation that is rejected. That operation is `Standing`, as one of the original routine, with
its kind and its regions.
-/

namespace BufferOwnership

open Routine

/-! ## Where the work stands -/

namespace Pass

/-- Where operations in order stand if one of them is rejected, given where that one stands. -/
def opsStand (treat : OpPass) (stand : OpId → ValueSet → Session → Session) :
    List OpId → Holdings → Session → Session
  | [], _, s => s
  | o :: rest, held, s =>
    match treat o held.owned s with
    | .ok (out, s') => opsStand treat stand rest (held.absorb s'.aliases out) s'
    | .error _ => stand o held.owned s

/-- Where a rejected block stands: at its beginning if it does not end, else with its operations. -/
def blockStand (treat : OpPass) (stand : OpId → ValueSet → Session → Session) (b : BlockId)
    (ownsInputs : Bool) (s : Session) : Session :=
  match s.routine.terminator? b, openBlock b ownsInputs s with
  | .ok (some _), .ok (owned, opened) =>
    match opened.routine.bodyOps b with
    | .ok body => opsStand treat stand body { owned, released := ∅ } opened
    | .error _ => opened
  | _, _ => s

/-- Where blocks in order stand if one of them is rejected, or has an outcome that is refused. If
neither is the case, all of them have been gone through. -/
def blocksStand (settings : Settings) (treat : OpPass)
    (stand : OpId → ValueSet → Session → Session) (ownsInputs : Bool) (admits : Outcome → Bool) :
    List BlockId → Session → Session
  | [], s => s
  | b :: rest, s =>
    match throughBlock settings treat b ownsInputs s with
    | .ok (out, s') =>
      if admits out then blocksStand settings treat stand ownsInputs admits rest s' else s'
    | .error _ => blockStand treat stand b ownsInputs s

/-- Where an operation stands if it is rejected: before its blocks, if it is rejected at once, and
otherwise where its blocks stand. Bringing branches to agree does not change the routine. -/
def opStand (settings : Settings) (treat : OpPass)
    (stand : OpId → ValueSet → Session → Session) (o : OpId) (s : Session) : Session :=
  match s.routine.op o with
  | .error _ => s
  | .ok data =>
    match s.routine.bars data, s.routine.innerBlocks o with
    | .ok false, .ok blocks =>
      blocksStand settings treat stand data.kind.construct?.isSome data.classify.admits blocks s
    | _, _ => s

/-- Where an operation stands whose nesting is less deep than the fuel. -/
def standWithin (settings : Settings) : Nat → OpId → ValueSet → Session → Session
  | 0, _, _, s => s
  | fuel + 1, o, _, s =>
    opStand settings (throughOpWithin settings fuel) (standWithin settings fuel) o s

end Pass

/-- The routine as it is when the work on it stops, be it at the end or at a rejection. -/
def Routine.standstill (f : Routine) (settings : Settings) : Routine :=
  match Pass.bodyBlock? f.root (.start f) with
  | .ok (some b, s) =>
    match Pass.throughBlock settings (Pass.throughOpWithin settings f.ops.size) b false s with
    | .ok (_, s') => s'.routine
    | .error _ =>
      (Pass.blockStand (Pass.throughOpWithin settings f.ops.size)
        (Pass.standWithin settings f.ops.size) b false s).routine
  | _ => f

variable {f : Routine} {s mid : Session} {b : BlockId} {p q : OpId} {front rest post : List OpId}
variable {d : Op} {settings : Settings} {bs bs' : List BlockId} {outs : List Outcome}
variable {held held' : Holdings} {owned : ValueSet} {treat : OpPass} {owns : Bool}
variable {site : ConstructSite} {regions : List RegionOutcome} {reason : Rejection}
variable {stand : OpId → ValueSet → Session → Session} {n : Nat} {acquired : List ValueId}
variable {g : RegionId}

/-- A run that comes to its end stands at its end. -/
theorem standstill_of_ok (hw : f.WellFormed) {out : Outcome}
    (h : f.threadFromRoot settings = .ok (out, s)) : f.standstill settings = s.routine := by
  rw [show f.threadFromRoot settings = _ from throughOp_routine hw] at h
  obtain ⟨name, -, h⟩ := Pass.ask_bind_eq_ok.mp h
  obtain ⟨b?, mid, hbody, h⟩ := Pass.bind_eq_ok.mp h
  cases b? with
  | none => cases h
  | some b =>
    obtain ⟨outcome, last, hgoes, h⟩ := Pass.bind_eq_ok.mp h
    obtain ⟨-, -, rfl⟩ := finishRoutine_eq_ok h
    simp only [standstill, hbody, hgoes]

theorem opsStand_append {failure : Failure Rejection}
    (hpre : Pass.throughOps treat pre held s = .ok (held', mid))
    (hq : treat q held'.owned mid = .error failure) :
    Pass.opsStand treat stand (pre ++ q :: post) held s = stand q held'.owned mid := by
  induction pre generalizing held s with
  | nil =>
    cases hpre
    simp only [List.nil_append, Pass.opsStand, hq]
  | cons o pre ih =>
    obtain ⟨out, s₁, ho, hpre⟩ := throughOps_cons hpre
    simp only [List.cons_append, Pass.opsStand, ho]
    exact ih hpre

theorem blocksStand_append {admits : Outcome → Bool}
    (hpassed : BlocksPassed settings treat owns bs s outs mid)
    (hfine : ∀ out ∈ outs, admits out = true) :
    Pass.blocksStand settings treat stand owns admits (bs ++ bs') s =
      Pass.blocksStand settings treat stand owns admits bs' mid := by
  induction hpassed with
  | nil => rfl
  | @cons b _ _ _ _ out _ hgoes _ ih =>
    obtain ⟨hout, hrest⟩ := List.forall_mem_cons.mp hfine
    have hgoes : Pass.throughBlock settings treat b owns _ = .ok (out, _) := hgoes
    simp only [List.cons_append, Pass.blocksStand, hgoes, hout, if_true]
    exact ih hrest

/-- Other names for the operands change nothing about the blocks of an operation. -/
theorem bars_map (r : Routine) (d : Op) (τ : ValueId → ValueId) :
    r.bars { d with operands := d.operands.map τ } = r.bars d := by
  rw [bars, bars, Op.classify_map]
  cases d.classify <;> rfl

theorem admits_map (d : Op) (τ : ValueId → ValueId) :
    ({ d with operands := d.operands.map τ } : Op).classify.admits = d.classify.admits := by
  rw [Op.classify_map]
  cases d.classify <;> rfl

/-! ## Which operation fits a reason -/

/-- An operation with regions of unknown control flow, neither a construct nor a routine. -/
def Routine.HasUnknownRegions (f : Routine) (o : OpId) : Prop :=
  ∃ d, f.op? o = some d ∧ d.regions ≠ [] ∧ d.allocated = [] ∧ d.freed = [] ∧
    d.kind ≠ .conditional ∧ d.kind ≠ .forLoop ∧ d.kind ≠ .whileLoop ∧ ∀ name, d.kind ≠ .routine name

/-- The operation that a reason names is of a kind to which it can apply. -/
def Rejection.Fits (f : Routine) : Rejection → Prop
  | .crossLoopRelease o _ => f.kind? o = some .forLoop ∨ f.kind? o = some .whileLoop
  | .captureWithoutElse o _ => f.kind? o = some .conditional
  | .releasedValueNotYielded o _ _ => f.kind? o = some .conditional
  | .missingIndicator o _ _ => f.kind? o = some .conditional
  | .unknownRegionOwnership o _ => f.HasUnknownRegions o
  | .unknownRegionReturnsBuffer o _ => f.HasUnknownRegions o
  | .invalidRealloc o _ => o = f.root
  | .multiBlockRegion o _ => f.isConstruct o = true ∨ o = f.root
  | .missingTerminator o _ b => b.index < f.blocks.size ∧
      (f.opsOf b = [] ∨ ∃ body last, f.opsOf b = body ++ [last] ∧ f.isTerminator last = false) ∧
      f.holder? b = some o
  | .verification _ => False

theorem hasUnknownRegions_of_classify (hd : f.op? p = some d)
    (hclass : d.classify = .unknownRegions) : f.HasUnknownRegions p := by
  unfold Op.classify at hclass
  cases hcons : d.kind.construct? with
  | some kind => simp [hcons] at hclass
  | none =>
    simp only [hcons] at hclass
    split at hclass
    · cases hclass
    · rename_i heffects
      simp only [Bool.or_eq_true, Bool.not_eq_true', not_or, Bool.not_eq_false,
        List.isEmpty_iff] at heffects
      refine ⟨d, hd, ?_, heffects.1, heffects.2, ?_, ?_, ?_, ?_⟩
      · rintro hregions
        simp only [hregions, List.isEmpty_nil, if_true] at hclass
        split at hclass <;> cases hclass
      all_goals
        first
        | (intro hkind; simp [hkind, OpKind.construct?] at hcons)
        | (intro name hkind; simp [hkind] at hclass)

/-- What an operation itself is rejected for fits it. -/
theorem Objection.fits (h : Objection p d.classify reason) (hd : f.op? p = some d) :
    reason.op? = some p ∧ reason.Fits f := by
  have hspec := d.classify_spec
  cases hclass : d.classify with
  | construct kind =>
    rw [hclass] at h hspec
    cases h with
    | multiBlock => exact ⟨rfl, .inl (by simp [isConstruct_of hd, hspec])⟩
    | loop =>
      refine ⟨rfl, ?_⟩
      show f.kind? p = _ ∨ f.kind? p = _
      rw [kind?_of hd]
      cases hkind : d.kind <;> simp_all [OpKind.construct?]
  | unknownRegions =>
    rw [hclass] at h
    cases h with
    | returns => exact ⟨rfl, hasUnknownRegions_of_classify hd hclass⟩
    | unknown => exact ⟨rfl, hasUnknownRegions_of_classify hd hclass⟩
  | effects allocated freed =>
    rw [hclass] at h
    cases h
  | routine =>
    rw [hclass] at h
    cases h
  | plain =>
    rw [hclass] at h
    cases h

/-- What branches that cannot be brought to agree are rejected for. -/
inductive Dispute (p : OpId) : Rejection → Prop
  | noBranch {name : String} : Dispute p (.captureWithoutElse p name)
  | notYielded {name : String} {v : ValueId} : Dispute p (.releasedValueNotYielded p name v)
  | missing {name : String} {v : ValueId} : Dispute p (.missingIndicator p name v)

theorem capture_rejects {v : ValueId}
    (h : Pass.capture site g acquired v s = .error (.rejected reason)) :
    Dispute site.op reason := by
  obtain ⟨data, _, -, h⟩ := (Pass.Sure.ask _).passes h
  cases hblocks : data.blocks with
  | nil =>
    simp only [hblocks] at h
    cases h
    exact .noBranch
  | cons b bs =>
    simp only [hblocks] at h
    obtain ⟨yielded, _, -, h⟩ := (Pass.Sure.ask _).passes h
    obtain ⟨slot?, _, -, h⟩ := (Pass.Sure.ask _).passes h
    cases slot? with
    | none =>
      cases h
      exact .notYielded
    | some slot =>
      cases hslot : acquired[slot]? with
      | none =>
        simp only [hslot] at h
        cases h
        exact .notYielded
      | some displaced =>
        simp only [hslot] at h
        obtain ⟨classes, mid, -, h⟩ := Pass.Sure.aliases.passes h
        cases hindicator : classes.indicatorOf? v with
        | none =>
          simp only [hindicator] at h
          cases h
          exact .missing
        | some indicator =>
          simp only [hindicator] at h
          exact absurd h (((Pass.Sure.modifyAliases _).bind fun _ => .pure _) mid _)

theorem captureAll_rejects {values : List ValueId}
    (h : Pass.captureAll site g values acquired s = .error (.rejected reason)) :
    Dispute site.op reason := by
  induction values generalizing acquired s with
  | nil => cases h
  | cons v values ih =>
    rcases Pass.bind_eq_error h with h | ⟨answer, mid, -, h⟩
    · exact capture_rejects h
    · rcases Pass.bind_eq_error h with h | ⟨_, _, -, h⟩
      · exact ih h
      · cases h

/-- Only where something is released there is anything to agree on. -/
theorem reconcile_rejects (h : Pass.reconcile site regions s = .error (.rejected reason)) :
    Dispute site.op reason ∧ ∃ region ∈ regions, region.outcome.released ≠ ∅ := by
  unfold Pass.reconcile at h
  split at h
  · cases h
  · rename_i hsome
    have hreleased : ∃ region ∈ regions, region.outcome.released ≠ ∅ := by
      simpa [ValueSet.isEmpty_iff] using hsome
    refine ⟨?_, hreleased⟩
    split at h
    · simp only [Pass.reconcilePair] at h
      split at h
      · cases h
      · rcases Pass.bind_eq_error h with h | ⟨answer, mid, -, h⟩
        · exact captureAll_rejects h
        · rcases Pass.bind_eq_error h with h | ⟨_, _, -, h⟩
          · exact captureAll_rejects h
          · cases h
    · cases h
      exact .noBranch

/-- What is rejected where branches are to agree fits a conditional. -/
theorem Dispute.fits (h : Dispute p reason) (hkind : f.kind? p = some .conditional) :
    reason.op? = some p ∧ reason.Fits f := by
  cases h <;> exact ⟨rfl, hkind⟩

/-! ## Standing operations -/

/-- An operation that is treated is as it was, while what is inside it may have changed. -/
structure Standing (f : Routine) (s : Session) (p : OpId) : Prop where
  threaded : Threaded f s
  visited : f.Visited p
  intact : Intact f s.routine p

/-- A reason names an operation of the original routine that is still there, and fits it. -/
def Located (f r : Routine) (reason : Rejection) : Prop :=
  ∃ o, reason.op? = some o ∧ o.index < f.ops.size ∧ r.Reached o ∧ r.isErased o = false ∧
    reason.Fits f

theorem Routine.WellFormed.visited_known (hw : f.WellFormed) (h : f.Visited p) :
    ∃ d, f.op? p = some d := by
  obtain ⟨name, hkind⟩ := hw.root_routine
  obtain ⟨d, hd, -⟩ := exists_op?_of_kind? hkind
  exact exists_op? ((h.reached hw.linked).known (lt_of_op? hd))

namespace Standing

variable (hw : f.WellFormed) (h : Standing f s p)
include hw h

theorem located (hreason : reason.op? = some p ∧ reason.Fits f) : Located f s.routine reason := by
  obtain ⟨d, hd⟩ := hw.visited_known h.visited
  have hreached := h.threaded.reached hw (h.visited.reached hw.linked) h.intact.live
  exact ⟨p, hreason.1, lt_of_op? hd, hreached, h.intact.live, hreason.2⟩

theorem passed (htreat : OpSpec f treat) (hat : AtBlocks f s p bs)
    (howns : owns = true → f.isConstruct p = true)
    (hpassed : BlocksPassed settings treat owns bs s outs mid) : Standing f mid p := by
  obtain ⟨d, hd⟩ := hw.visited_known h.visited
  have hrun := hpassed.run htreat hw hat howns
  exact ⟨h.threaded.run hw hrun, h.visited,
    hrun.intact_holder h.threaded hw h.visited (by simp [hd]) (hat.holder? hw.linked) h.intact⟩

/-- A standing operation still holds its blocks. -/
theorem holder? (hholder : f.holder? b = some p) : s.routine.holder? b = some p := by
  obtain ⟨d, hd⟩ := hw.visited_known h.visited
  obtain ⟨τ, hentry, -⟩ := h.threaded.intact_entry hw hd h.intact
  obtain ⟨g, hg, hb⟩ := hw.linked.holder?_iff.mp hholder
  rw [regionsOf_of hd] at hg
  refine h.threaded.wellFormed.linked.holder?_iff.mpr ⟨g, ?_, ?_⟩
  · rw [regionsOf_of hentry]
    exact hg
  · rw [h.threaded.blocksOf g]
    exact hb

/-- A block that does not end is one of the original routine, and does not end there either. -/
theorem openEnded (hat : AtBlocks f s p (b :: bs)) (hnone : s.routine.terminator? b = .ok none)
    (hreject : Pass.rejectOpenEnded b s = .error (.rejected reason)) :
    reason.op? = some p ∧ reason.Fits f := by
  have hholder := hat.holder? hw.linked b (by simp)
  obtain ⟨g, hhome, -⟩ := exists_home?_of_holder? hholder
  obtain ⟨B, hB, -⟩ := Option.map_eq_some_iff.mp hhome
  -- the operation around the block is found by the links upwards
  obtain ⟨owner, _, hask, hreject⟩ := (Pass.Sure.ask _).passes hreject
  obtain ⟨howner, rfl⟩ := Pass.ask_eq_ok.mp hask
  obtain ⟨data, _, -, hreject⟩ := (Pass.Sure.ask _).passes hreject
  cases hreject
  obtain ⟨C, hC, howner⟩ := bind_eq_ok.mp howner
  obtain ⟨G, hG, howner⟩ := bind_eq_ok.mp howner
  have hfound : s.routine.holder? b = some owner := by
    rw [Routine.holder?, home?_of (block_eq_ok.mp hC), Option.bind_some,
      owner?_of (region_eq_ok.mp hG)]
    exact congrArg some (Except.ok.inj howner)
  obtain rfl := Option.mem_unique hfound (h.holder? hw hholder)
  refine ⟨rfl, lt_of_block? hB, ?_, hholder⟩
  -- the block ends in the same operation as at the start, and that has its kind
  have hlinked := h.threaded.wellFormed.linked
  obtain ⟨g', -, hb⟩ := hlinked.holder?_iff.mp hfound
  rw [hlinked.inRange.terminator? hb, lastTerminator?, (hat.untouched b (by simp)).list] at hnone
  rcases List.eq_nil_or_concat' (f.opsOf b) with hempty | ⟨body, last, hlist⟩
  · exact .inl hempty
  · refine .inr ⟨body, last, hlist, ?_⟩
    have hlast : f.op? last ≠ none := hw.linked.inRange.ops b last (by simp [hlist])
    rw [hlist, List.getLast?_concat] at hnone
    have hkind := h.threaded.kind? hlast
    simpa [isTerminator, hkind, Option.filter] using hnone

end Standing

theorem AtOp.standing (hat : AtOp f s p owned b front rest) : Standing f s p :=
  ⟨hat.threaded, hat.visited, hat.untouched.ops p .refl⟩

/-! ## Down to the rejection -/

section Down

variable (hw : f.WellFormed) (htreat : OpSpec f treat)
variable (hinner : ∀ {q : OpId} {owned : ValueSet} {b : BlockId} {front rest : List OpId}
  {walked : Session}, AtOp f walked q owned b front rest →
  treat q owned walked = .error (.rejected reason) →
  Located f (stand q owned walked).routine reason)
include hw htreat hinner

theorem throughBlock_located (hp : Standing f s p) (hat : AtBlocks f s p (b :: bs))
    (howns : owns = true → f.isConstruct p = true)
    (h : Pass.throughBlock settings treat b owns s = .error (.rejected reason)) :
    Located f (Pass.blockStand treat stand b owns s).routine reason := by
  cases throughBlock_rejects h with
  | openEnded hnone hreject =>
    -- the block itself is named, before anything in it is treated
    have hstand : Pass.blockStand treat stand b owns s = s := by
      simp only [Pass.blockStand, hnone]
    rw [hstand]
    exact hp.located hw (hp.openEnded hw hat hnone hreject)
  | @inOp t q owned opened mid pre post held hfound hopens hbody hpre hq =>
    have hstand : Pass.blockStand treat stand b owns s = stand q held.owned mid := by
      simp only [Pass.blockStand, hfound, hopens, hbody]
      exact opsStand_append hpre hq
    -- up to that operation the block has been walked through, so it is about to be treated
    obtain ⟨front, hatq, -⟩ := (hat.start hw howns hfound hopens hbody).atOps.walk htreat hw hpre
    rw [hstand]
    exact hinner hatq.first hq

theorem throughOp_located (hat : AtOp f s p owned b front rest)
    (h : Pass.throughOp settings treat p owned s = .error (.rejected reason)) :
    Located f (Pass.opStand settings treat stand p s).routine reason := by
  obtain ⟨d, hd, -⟩ := exists_op?_of_parent? hat.parent
  obtain ⟨τ, hentry⟩ := hat.entry hw hd
  have hp := hat.standing
  have hcons : f.isConstruct p = d.kind.construct?.isSome := by simp [isConstruct_of hd]
  -- what the blocks of the operation are does not change
  have hblocks : s.routine.innerBlocks p = .ok (d.regions.flatMap f.blocksOf) := by
    rw [hat.threaded.wellFormed.linked.inRange.innerBlocks hentry, funext hat.threaded.blocksOf]
  have hstand : s.routine.bars d = .ok false → Pass.opStand settings treat stand p s =
      Pass.blocksStand settings treat stand (f.isConstruct p) d.classify.admits
        (d.regions.flatMap f.blocksOf) s := by
    intro hfalse
    simp only [Pass.opStand, op_eq_ok.mpr hentry, bars_map, hfalse, hblocks, admits_map, hcons]
  cases throughOp_rejects htreat hw hd hat h with
  | atOnce htrue hobjection =>
    -- none of its blocks has been gone through
    have hstand : Pass.opStand settings treat stand p s = s := by
      simp only [Pass.opStand, op_eq_ok.mpr hentry, bars_map, htrue]
    rw [hstand]
    exact hp.located hw (hobjection.fits hd)
  | inside hfalse hatb hhalt =>
    -- the blocks before that one have come to their end and leave the operation standing
    rw [hstand hfalse]
    cases hhalt with
    | inBlock hbs hpassed hfine hblock =>
      rw [hbs] at hatb ⊢
      have hrun := hpassed.run htreat hw hatb.first id
      rw [blocksStand_append hpassed hfine, Pass.blocksStand]
      simp only [hblock]
      exact throughBlock_located hw htreat hinner (hp.passed hw htreat hatb.first id hpassed)
        (hatb.next hw hrun) id hblock
    | afterBlock hbs hpassed hfine hgoes hbad hobjection =>
      rw [hbs] at hatb ⊢
      have hrun := hpassed.run htreat hw hatb.first id
      have hone : AtBlocks f _ p [_] := (hatb.next hw hrun).first
      have hlast := (hp.passed hw htreat hatb.first id hpassed).passed hw htreat hone id
        (.cons hgoes .nil)
      rw [blocksStand_append hpassed hfine, Pass.blocksStand]
      simp only [hgoes, hbad, Bool.false_eq_true, if_false]
      exact hlast.located hw (hobjection.fits hd)
  | reconciles kind site regions mid hfalse hatb hkind hsite hregions hloop hreconcile =>
    obtain ⟨hdispute, region, hregion, hreleased⟩ := reconcile_rejects hreconcile
    -- a loop whose regions release nothing has nothing to agree on
    have hconditional : d.kind = .conditional := by
      cases kind with
      | loop => exact absurd (hloop rfl region hregion) hreleased
      | conditional => cases hk : d.kind <;> simp_all [OpKind.construct?]
    obtain ⟨outs, hpassed, -⟩ := hregions.blocks
    have htrue : f.isConstruct p = true := by simp [hcons, hkind]
    have hfine : ∀ out ∈ outs, d.classify.admits out = true := by
      intro out _
      rw [Op.classify, hkind]
      cases kind with
      | loop => exact absurd (hloop rfl region hregion) hreleased
      | conditional => rfl
    have hmid := hp.passed hw htreat hatb (fun _ => htrue) hpassed
    have hend : Pass.blocksStand settings treat stand true d.classify.admits
        (d.regions.flatMap f.blocksOf ++ []) s = mid := blocksStand_append hpassed hfine
    rw [List.append_nil] at hend
    rw [hstand hfalse, htrue, hend]
    exact hmid.located hw ((hsite ▸ hdispute).fits (by rw [kind?_of hd, hconditional]))

end Down

/-- By induction on the depth: whatever is inside an operation is rejected as it should be. -/
theorem throughOpWithin_located (hw : f.WellFormed) (hat : AtOp f s p owned b front rest)
    (h : Pass.throughOpWithin settings n p owned s = .error (.rejected reason)) :
    Located f (Pass.standWithin settings n p owned s).routine reason := by
  induction n generalizing s p owned b front rest with
  | zero => cases h
  | succ n ih =>
    exact throughOp_located hw (throughOpWithin_spec hw settings n) (fun hatq hq => ih hatq hq) hat
      h

/-- **A rejection points into the routine that was given.** Whatever the reason, apart from a defect
of shape that the check at the end finds, it names an operation of the original routine, which is
reached and not erased when the work stops. And its kind fits: a loop releases what is outside, the
branches of a conditional cannot agree, regions of unknown control flow belong to an operation that
is neither a construct nor a routine, what is freed without being owned is reported at the root, and
a block that does not end is one of the operation that is named. -/
theorem threadOwnership_rejection_located (hw : f.WellFormed) (settings : Settings)
    (h : f.threadOwnership settings = .error (.rejected reason))
    (hreason : ∀ defect, reason ≠ .verification defect) :
    ∃ o, reason.op? = some o ∧ o.index < f.ops.size ∧ (f.standstill settings).Reached o ∧
      (f.standstill settings).isErased o = false ∧ reason.Fits f := by
  have hroot : Standing f (.start f) f.root :=
    ⟨.start hw, .refl, hw.live f.root .refl, rfl⟩
  have htreat : OpSpec f (Pass.throughOpWithin settings f.ops.size) :=
    throughOpWithin_spec hw settings f.ops.size
  cases threadFromRoot_rejects hw (threadOwnership_rejects h hreason) with
  | noBody hbody _ hmulti =>
    have hstand : f.standstill settings = (Session.start f).routine := by
      simp only [standstill, hbody]
      rfl
    rw [hstand]
    exact hroot.located hw (hmulti ▸ ⟨rfl, .inr rfl⟩)
  | @inBody b hbody henters hblock =>
    simp only [standstill, hbody, hblock]
    exact throughBlock_located hw htreat (throughOpWithin_located hw) hroot (.body hw henters) nofun
      hblock
  | @afterBody b out last name hbody henters hgoes _ _ hinvalid =>
    simp only [standstill, hbody, hgoes]
    have hpassed : BlocksPassed settings _ false [b] (.start f) [out] last := .cons hgoes .nil
    have hlast := hroot.passed hw htreat (.body hw henters) (fun h => by cases h) hpassed
    exact hlast.located hw (hinvalid ▸ ⟨rfl, rfl⟩)

/-- A conditional that gives way to a new one, and after it a loop with another conditional, both
branches of which free the buffer from outside. -/
def stalled : Edit Unit := do
  let entry : InsertPoint := .atEnd ⟨0⟩
  let ty : Ty := .buffer .f32 1
  let old ← Emit.alloc entry ty
  let choice ← Emit.conditional entry ⟨0⟩ [ty] true
  let new ← Emit.alloc (.atEnd choice.thenBlock) ty
  let _ ← Emit.yield (.atEnd choice.thenBlock) [new]
  let _ ← Emit.yield (.atEnd (choice.elseBlock?.getD ⟨0⟩)) [old]
  let loop ← Emit.forLoop entry ⟨1⟩ ⟨1⟩ ⟨1⟩ []
  let inner ← Emit.conditional (.atEnd loop.body) ⟨0⟩ [] true
  let _ ← Emit.dealloc (.atEnd inner.thenBlock) old
  let _ ← Emit.yield (.atEnd inner.thenBlock) []
  let _ ← Emit.dealloc (.atEnd (inner.elseBlock?.getD ⟨0⟩)) old
  let _ ← Emit.yield (.atEnd (inner.elseBlock?.getD ⟨0⟩)) []
  let _ ← Emit.yield (.atEnd loop.body) []
  let _ ← Emit.ret entry []

def stalledRoutine : Routine := stalled.build "stalled" [.scalar .i1, .scalar .index]

/-- The loop is rejected when the conditional before it and the one inside have been replaced. -/
theorem threadOwnership_rejection_located_stalled :
    stalledRoutine.WellFormed ∧
      stalledRoutine.threadOwnership {} = .error (.rejected (.crossLoopRelease ⟨6⟩ "for")) ∧
      (stalledRoutine.standstill {}).isErased ⟨2⟩ = true ∧
      (stalledRoutine.standstill {}).isErased ⟨7⟩ = true ∧
      ∃ o, (Rejection.crossLoopRelease ⟨6⟩ "for").op? = some o ∧
        o.index < stalledRoutine.ops.size ∧ (stalledRoutine.standstill {}).Reached o ∧
        (stalledRoutine.standstill {}).isErased o = false ∧
        (Rejection.crossLoopRelease ⟨6⟩ "for").Fits stalledRoutine := by
  have hw : stalledRoutine.WellFormed := wellFormed_of_check (by decide +kernel)
  have h : stalledRoutine.threadOwnership {} =
    .error (.rejected (.crossLoopRelease ⟨6⟩ "for")) := eq_error_of_failsWith (by decide +kernel)
  exact ⟨hw, h, by decide +kernel, by decide +kernel,
    threadOwnership_rejection_located hw {} h nofun⟩

end BufferOwnership
