import BufferOwnership.Proofs.Calls
import BufferOwnership.Proofs.Rejections

/-!
# Where the work stops

Threading is given up at the first rejection. What is found there is said once for every reason: a
block is rejected because it does not end, or in the treatment of one of its operations; an
operation is rejected before any of its blocks, in one of them, for the outcome of one of them, or,
if it is a construct, where its regions are brought to agree. Whatever was gone through before that
has come to its end.
-/

namespace BufferOwnership

open Routine

variable {f : Routine} {s mid : Session} {b : BlockId} {p : OpId} {front rest l : List OpId}
variable {d : Op} {settings : Settings} {bs bs' : List BlockId} {outs : List Outcome}
variable {held : Holdings} {owned : ValueSet} {treat : OpPass} {owns : Bool} {site : ConstructSite}
variable {kind : ConstructKind} {regions : List RegionOutcome} {reason : Rejection}
variable {c : OpClass}

/-! ## Operations and blocks in order -/

/-- Operations in order are rejected where one of them is. -/
theorem throughOps_rejects (h : Pass.throughOps treat l held s = .error (.rejected reason)) :
    ∃ pre q post held' mid, l = pre ++ q :: post ∧
      Pass.throughOps treat pre held s = .ok (held', mid) ∧
      treat q held'.owned mid = .error (.rejected reason) := by
  induction l generalizing s held with
  | nil => cases h
  | cons p l ih =>
    rcases Pass.bind_eq_error h with h | ⟨out, mid, hout, h⟩
    · exact ⟨[], p, l, held, s, rfl, rfl, h⟩
    · obtain ⟨classes, _, haliases, h⟩ := Pass.Sure.aliases.passes h
      obtain ⟨rfl, rfl⟩ := Pass.aliases_eq_ok haliases
      obtain ⟨pre, q, post, held', mid', rfl, hpre, hq⟩ := ih h
      exact ⟨p :: pre, q, post, held', mid', rfl, (Pass.bind_of_ok hout).trans hpre, hq⟩

/-- What a block is rejected for. -/
inductive BlockHalt (treat : OpPass) (b : BlockId) (owns : Bool) (s : Session)
    (reason : Rejection) : Prop
  /-- It does not end. -/
  | openEnded : s.routine.terminator? b = .ok none →
      Pass.rejectOpenEnded b s = .error (.rejected reason) → BlockHalt treat b owns s reason
  /-- One of its operations but the last is rejected, after those before it have been treated. -/
  | inOp {t q : OpId} {owned : ValueSet} {opened mid : Session} {pre post : List OpId}
      {held : Holdings} : s.routine.terminator? b = .ok (some t) →
      Pass.openBlock b owns s = .ok (owned, opened) →
      opened.routine.bodyOps b = .ok (pre ++ q :: post) →
      Pass.throughOps treat pre ⟨owned, ∅⟩ opened = .ok (held, mid) →
      treat q held.owned mid = .error (.rejected reason) → BlockHalt treat b owns s reason

theorem throughBlock_rejects
    (h : Pass.throughBlock settings treat b owns s = .error (.rejected reason)) :
    BlockHalt treat b owns s reason := by
  obtain ⟨t?, _, hask, h⟩ := (Pass.Sure.ask _).passes h
  obtain ⟨hfound, rfl⟩ := Pass.ask_eq_ok.mp hask
  cases t? with
  | none => exact .openEnded hfound h
  | some t =>
    obtain ⟨owned, opened, hopens, h⟩ := (Pass.Sure.openBlock _ _).passes h
    obtain ⟨body, _, hask, h⟩ := (Pass.Sure.ask _).passes h
    obtain ⟨hbody, rfl⟩ := Pass.ask_eq_ok.mp hask
    -- neither the beginning nor the end of a block rejects anything
    rcases Pass.bind_eq_error h with h | ⟨held, mid, -, h⟩
    · obtain ⟨pre, q, post, held, mid, rfl, hpre, hq⟩ := throughOps_rejects h
      exact .inOp hfound hopens hbody hpre hq
    · exact absurd h (((Pass.Sure.closeBlock _ _ _).bind fun _ => .pure _) mid _)

/-- With which outcome of one of its blocks an operation can go on. -/
def OpClass.admits : OpClass → Outcome → Bool
  | .construct .loop, out => out.released.isEmpty
  | .unknownRegions, out => out.acquired.isEmpty && out.released.isEmpty
  | _, _ => true

/-- What an operation itself is rejected for, apart from branches that do not agree. -/
inductive Objection (p : OpId) : OpClass → Rejection → Prop
  | multiBlock {kind : ConstructKind} {name : String} :
      Objection p (.construct kind) (.multiBlockRegion p name)
  | loop {name : String} : Objection p (.construct .loop) (.crossLoopRelease p name)
  | returns {name : String} : Objection p .unknownRegions (.unknownRegionReturnsBuffer p name)
  | unknown {name : String} : Objection p .unknownRegions (.unknownRegionOwnership p name)

/-- Blocks are gone through in order up to one that is rejected, or has a refused outcome. -/
inductive BlocksHalt (settings : Settings) (treat : OpPass) (owns : Bool) (p : OpId)
    (c : OpClass) (bs : List BlockId) (s : Session) (reason : Rejection) : Prop
  | inBlock {before after : List BlockId} {b : BlockId} {outs : List Outcome} {mid : Session} :
      bs = before ++ b :: after → BlocksPassed settings treat owns before s outs mid →
      (∀ out ∈ outs, c.admits out = true) →
      Pass.throughBlock settings treat b owns mid = .error (.rejected reason) →
      BlocksHalt settings treat owns p c bs s reason
  | afterBlock {before after : List BlockId} {b : BlockId} {outs : List Outcome}
      {mid last : Session} {out : Outcome} :
      bs = before ++ b :: after → BlocksPassed settings treat owns before s outs mid →
      (∀ out ∈ outs, c.admits out = true) →
      Pass.throughBlock settings treat b owns mid = .ok (out, last) → c.admits out = false →
      Objection p c reason → BlocksHalt settings treat owns p c bs s reason

theorem BlocksHalt.here
    (h : Pass.throughBlock settings treat b owns s = .error (.rejected reason)) :
    BlocksHalt settings treat owns p c (b :: bs) s reason :=
  .inBlock (show b :: bs = [] ++ b :: bs from rfl) .nil (by simp) h

theorem BlocksHalt.refused {out : Outcome}
    (hgoes : Pass.throughBlock settings treat b owns s = .ok (out, mid))
    (hbad : c.admits out = false) (h : Objection p c reason) :
    BlocksHalt settings treat owns p c (b :: bs) s reason :=
  .afterBlock (show b :: bs = [] ++ b :: bs from rfl) .nil (by simp) hgoes hbad h

theorem BlocksHalt.later (hpassed : BlocksPassed settings treat owns bs s outs mid)
    (hfine : ∀ out ∈ outs, c.admits out = true)
    (h : BlocksHalt settings treat owns p c bs' mid reason) :
    BlocksHalt settings treat owns p c (bs ++ bs') s reason := by
  induction hpassed with
  | nil => exact h
  | @cons b _ _ _ _ out _ hgoes _ ih =>
    obtain ⟨hout, hrest⟩ := List.forall_mem_cons.mp hfine
    have hcons : ∀ outs : List Outcome, (∀ out ∈ outs, c.admits out = true) →
        ∀ out' ∈ out :: outs, c.admits out' = true :=
      fun outs houts => List.forall_mem_cons.mpr ⟨hout, houts⟩
    cases ih hrest h with
    | inBlock hbs hbefore houts hc =>
      exact .inBlock (by rw [List.cons_append, hbs]; rfl) (.cons hgoes hbefore) (hcons _ houts) hc
    | afterBlock hbs hbefore houts hc hbad hreason =>
      exact .afterBlock (by rw [List.cons_append, hbs]; rfl) (.cons hgoes hbefore) (hcons _ houts)
        hc hbad hreason

/-! ## The treatment of an operation -/

/-- Is an operation rejected before any of its blocks? -/
def Routine.bars (r : Routine) (data : Op) : Except Fault Bool :=
  match data.classify with
  | .construct _ => r.hasMultiBlockRegion data.regions
  | .unknownRegions => data.results.anyM r.isBuffer
  | _ => return false

theorem throughUnknownBlocks_rejects
    (h : Pass.throughUnknownBlocks settings treat p bs s = .error (.rejected reason)) :
    BlocksHalt settings treat false p .unknownRegions bs s reason := by
  induction bs generalizing s with
  | nil => cases h
  | cons b bs ih =>
    rcases Pass.bind_eq_error h with h | ⟨out, mid, hgoes, h⟩
    · exact .here h
    · split at h
      · rename_i hfine
        exact .later (.cons hgoes .nil) (by simpa [OpClass.admits] using hfine) (ih h)
      · rename_i hbad
        obtain ⟨data, _, -, h⟩ := (Pass.Sure.ask _).passes h
        cases h
        exact .refused hgoes (by simpa [OpClass.admits] using hbad) .unknown

section Construct

variable (htreat : OpSpec f treat) (hw : f.WellFormed) (hd : f.op? p = some d)
variable (hkind : d.kind.construct? = some kind)
include htreat hw hd hkind

theorem throughRegions_rejects (hsite : site.op = p) {gs : List RegionId}
    (hat : AtBlocks f s p (gs.flatMap f.blocksOf)) (hsingle : ∀ g ∈ gs, (f.blocksOf g).length ≤ 1)
    (h : Pass.throughRegions settings treat site kind gs s = .error (.rejected reason)) :
    BlocksHalt settings treat true p (.construct kind) (gs.flatMap f.blocksOf) s reason := by
  induction gs generalizing s with
  | nil => cases h
  | cons g gs ih =>
    rw [List.flatMap_cons] at hat ⊢
    rcases Pass.bind_eq_error h with h | ⟨first, mid, hfirst, h⟩
    · -- the first region stops in its block, or the block of a loop releases something
      obtain ⟨args, _, hask, h⟩ := (Pass.Sure.ask _).passes h
      obtain ⟨-, rfl⟩ := Pass.ask_eq_ok.mp hask
      obtain ⟨b?, _, hask, h⟩ := (Pass.Sure.ask _).passes h
      obtain ⟨hb, rfl⟩ := Pass.ask_eq_ok.mp hask
      cases b? with
      | none => cases h
      | some b =>
        have hblock : f.blocksOf g = [b] :=
          (hat.threaded.blocksOf g).symm.trans (singleBlock?_eq_some hb)
        rw [hblock]
        rcases Pass.bind_eq_error h with h | ⟨out, mid, hgoes, h⟩
        · exact .here h
        · split at h
          · rename_i hbad
            cases h
            obtain ⟨rfl, hreleased⟩ := hbad
            exact .refused hgoes (by simpa [OpClass.admits] using hreleased) (hsite ▸ .loop)
          · cases h
    · -- the first region on its own has been gone through
      have hfirst : Pass.throughRegions settings treat site kind [g] s = .ok ([first], mid) :=
        Pass.bind_of_ok hfirst
      have hone : AtBlocks f s p ([g].flatMap f.blocksOf) := by simpa using hat.first
      obtain ⟨hpassed, hloop⟩ := throughRegions_passed htreat hw hd (by simp [hkind]) hone
        (fun g' hg' => hsingle g' (by simp_all)) hfirst
      obtain ⟨outs, hblocks, houts, -⟩ := hpassed.blocks
      have hcons : f.isConstruct p = true := by simp [isConstruct_of hd, hkind]
      have hrun := hblocks.run htreat hw hone fun _ => hcons
      have hfine : ∀ out ∈ outs, (OpClass.construct kind).admits out = true := by
        intro out hout
        obtain ⟨region, hregion, rfl⟩ := houts out hout
        cases kind with
        | conditional => rfl
        | loop => exact ValueSet.isEmpty_iff.mpr (hloop rfl region hregion)
      simp only [List.flatMap_cons, List.flatMap_nil, List.append_nil] at hblocks hrun
      rcases Pass.bind_eq_error h with h | ⟨_, _, -, h⟩
      · exact .later hblocks hfine
          (ih (hat.next hw hrun) (fun g' hg' => hsingle g' (by simp [hg'])) h)
      · cases h

omit htreat hw hd hkind in
/-- Once the regions agree, nothing is rejected any more. -/
theorem finishConstruct_rejects
    (h : Pass.finishConstruct settings p owned site regions s = .error (.rejected reason)) :
    Pass.reconcile site regions s = .error (.rejected reason) := by
  rcases Pass.bind_eq_error h with h | ⟨agreed, mid, -, h⟩
  · exact h
  · refine absurd h (Pass.Sure.bind (.forM .sendAcquired _) (fun _ => ?_) mid reason)
    exact (Pass.Sure.forM .dropIfDead _).bind fun _ => (Pass.Sure.ask _).bind fun _ =>
      (Pass.Sure.transferOperands settings p owned _ _).bind fun _ =>
      (Pass.Sure.ask _).bind fun _ => (Pass.Sure.edit _).bind fun _ =>
      (Pass.Sure.ask _).bind fun _ => (Pass.Sure.modifyAliases _).bind fun _ =>
      (Pass.Sure.ask _).bind fun _ => .pure _

end Construct

/-- What is found where the treatment of an operation is rejected. -/
inductive OpHalt (f : Routine) (settings : Settings) (treat : OpPass) (p : OpId) (d : Op)
    (s : Session) (reason : Rejection) : Prop
  /-- The operation is rejected before any of its blocks. -/
  | atOnce : s.routine.bars d = .ok true → Objection p d.classify reason →
      OpHalt f settings treat p d s reason
  /-- It is rejected in one of its blocks or for the outcome of one. -/
  | inside : s.routine.bars d = .ok false → AtBlocks f s p (d.regions.flatMap f.blocksOf) →
      BlocksHalt settings treat (f.isConstruct p) p d.classify (d.regions.flatMap f.blocksOf) s
        reason → OpHalt f settings treat p d s reason
  /-- Its regions cannot be brought to agree. -/
  | reconciles (kind : ConstructKind) (site : ConstructSite) (regions : List RegionOutcome)
      (mid : Session) : s.routine.bars d = .ok false →
      AtBlocks f s p (d.regions.flatMap f.blocksOf) →
      d.kind.construct? = some kind → site.op = p →
      RegionsPassed f settings treat d.regions s regions mid →
      (kind = .loop → ∀ region ∈ regions, region.outcome.released = ∅) →
      Pass.reconcile site regions mid = .error (.rejected reason) →
      OpHalt f settings treat p d s reason

section Op

variable (htreat : OpSpec f treat) (hw : f.WellFormed) (hd : f.op? p = some d)
variable (hat : AtOp f s p owned b front rest)
include hw hd hat

include htreat in
theorem throughConstruct_rejects (hclass : d.classify = .construct kind)
    (hkind : d.kind.construct? = some kind)
    (h : Pass.throughConstruct settings treat kind p owned s = .error (.rejected reason)) :
    OpHalt f settings treat p d s reason := by
  obtain ⟨τ, hentry⟩ := hat.entry hw hd
  have hop := op_eq_ok.mpr hentry
  have h' := h
  unfold Pass.throughConstruct at h'
  rw [Pass.bind_of_ok (Pass.ask_eq_ok.mpr ⟨hop, rfl⟩)] at h'
  obtain ⟨multi, _, hask, h'⟩ := (Pass.Sure.ask _).passes h'
  obtain ⟨hmulti, rfl⟩ := Pass.ask_eq_ok.mp hask
  have hbars : s.routine.bars d = .ok multi := by
    rw [Routine.bars, hclass]
    exact hmulti
  cases multi with
  | true =>
    cases h'
    exact .atOnce hbars (hclass ▸ .multiBlock)
  | false =>
    have hsingle : ∀ g ∈ d.regions, (f.blocksOf g).length ≤ 1 := fun g hg =>
      hat.threaded.blocksOf g ▸ hasMultiBlockRegion_eq_false hmulti g hg
    have hblocks := hat.atBlocks hw hd (enters_of_singleBlocks hd (by simp [hkind]) hsingle)
    rw [throughConstruct_eq hop hmulti] at h
    -- either a region stops the pass, or all are gone through and cannot be brought to agree
    rcases Pass.bind_eq_error h with h | ⟨regions, mid, hregions, h⟩
    · refine .inside hbars hblocks ?_
      have hcons : f.isConstruct p = true := by simp [isConstruct_of hd, hkind]
      rw [hcons, hclass]
      exact throughRegions_rejects htreat hw hd hkind rfl hblocks hsingle h
    · obtain ⟨hpassed, hloop⟩ := throughRegions_passed htreat hw hd (by simp [hkind]) hblocks
        hsingle hregions
      exact .reconciles kind _ regions mid hbars hblocks hkind rfl hpassed hloop
        (finishConstruct_rejects h)

theorem throughUnknownRegions_rejects (hclass : d.classify = .unknownRegions)
    (h : Pass.throughUnknownRegions settings treat p s = .error (.rejected reason)) :
    OpHalt f settings treat p d s reason := by
  obtain ⟨τ, hentry⟩ := hat.entry hw hd
  unfold Pass.throughUnknownRegions at h
  rw [Pass.bind_of_ok (Pass.ask_eq_ok.mpr ⟨op_eq_ok.mpr hentry, rfl⟩)] at h
  obtain ⟨answer, _, hask, h⟩ := (Pass.Sure.ask _).passes h
  obtain ⟨hanswer, rfl⟩ := Pass.ask_eq_ok.mp hask
  have hbars : s.routine.bars d = .ok answer := by
    rw [Routine.bars, hclass]
    exact hanswer
  cases answer with
  | true =>
    cases h
    exact .atOnce hbars (hclass ▸ .returns)
  | false =>
    refine .inside hbars (hat.atBlocks hw hd fun c => (enters_iff_of_unknown hd hclass).mp) ?_
    obtain ⟨blocks, _, hask, h⟩ := (Pass.Sure.ask _).passes h
    obtain ⟨hblocks, rfl⟩ := Pass.ask_eq_ok.mp hask
    rw [innerBlocks_eq_ok hblocks, regionsOf_of hentry, funext hat.threaded.blocksOf] at h
    rw [isConstruct_of_unknown hd hclass, hclass]
    exact throughUnknownBlocks_rejects h

include htreat in
theorem throughOp_rejects
    (h : Pass.throughOp settings treat p owned s = .error (.rejected reason)) :
    OpHalt f settings treat p d s reason := by
  obtain ⟨τ, hentry⟩ := hat.entry hw hd
  rw [Pass.throughOp_of hentry, Op.classify_map] at h
  have hspec := d.classify_spec
  cases hclass : d.classify with
  | construct kind =>
    simp only [hclass, Pass.byClass] at h hspec
    exact throughConstruct_rejects htreat hw hd hat hclass hspec h
  | effects allocated freed =>
    -- effects and plain operations reject nothing
    simp only [hclass, Pass.byClass] at h
    exact absurd h (((Pass.Sure.ask _).bind fun _ => (Pass.Sure.ownAll _ _).bind fun _ =>
      .pure _) s _)
  | routine => exact absurd hclass (hat.not_routine hw hd)
  | unknownRegions =>
    simp only [hclass, Pass.byClass] at h
    exact throughUnknownRegions_rejects hw hd hat hclass h
  | plain =>
    simp only [hclass, Pass.byClass] at h
    exact absurd h (((Pass.Sure.ask _).bind fun _ => (Pass.Sure.modifyAliases _).bind fun _ =>
      .pure _) s _)

end Op

/-! ## The whole run -/

theorem bodyBlock?_session {b? : Option BlockId} {o : OpId}
    (h : Pass.bodyBlock? o s = .ok (b?, mid)) : mid = s := by
  obtain ⟨data, -, h⟩ := Pass.ask_bind_eq_ok.mp h
  cases hregions : data.regions with
  | nil =>
    rw [hregions] at h
    exact (Pass.pure_eq_ok.mp h).2.symm
  | cons g _ =>
    rw [hregions] at h
    exact (Pass.ask_eq_ok.mp h).2.symm

/-- What a routine is rejected for. -/
inductive RootHalt (f : Routine) (settings : Settings) (treat : OpPass) (reason : Rejection) : Prop
  /-- Its body is not a single block. -/
  | noBody {name : String} : Pass.bodyBlock? f.root (.start f) = .ok (none, .start f) →
      f.name = .ok name → reason = .multiBlockRegion f.root name → RootHalt f settings treat reason
  /-- Its body is rejected. -/
  | inBody {b : BlockId} : Pass.bodyBlock? f.root (.start f) = .ok (some b, .start f) →
      f.Enters f.root b →
      Pass.throughBlock settings treat b false (.start f) = .error (.rejected reason) →
      RootHalt f settings treat reason
  /-- Its body releases something. -/
  | afterBody {b : BlockId} {out : Outcome} {last : Session} {name : String} :
      Pass.bodyBlock? f.root (.start f) = .ok (some b, .start f) → f.Enters f.root b →
      Pass.throughBlock settings treat b false (.start f) = .ok (out, last) →
      out.released ≠ ∅ → f.name = .ok name → reason = .invalidRealloc f.root name →
      RootHalt f settings treat reason

/-- The body of the root is about to be gone through at the start. -/
theorem AtBlocks.body (hw : f.WellFormed) (henters : f.Enters f.root b) :
    AtBlocks f (.start f) f.root [b] where
  threaded := .start hw
  visited := .refl
  enters := by simpa using henters
  nodup := List.nodup_singleton b
  untouched c hc := by
    rw [List.mem_singleton.mp hc]
    exact .start hw henters

theorem threadFromRoot_rejects (hw : f.WellFormed)
    (h : f.threadFromRoot settings = .error (.rejected reason)) :
    RootHalt f settings (Pass.throughOpWithin settings f.ops.size) reason := by
  rw [show f.threadFromRoot settings = _ from throughOp_routine hw] at h
  obtain ⟨name, _, hask, h⟩ := (Pass.Sure.ask _).passes h
  obtain ⟨hname, rfl⟩ := Pass.ask_eq_ok.mp hask
  obtain ⟨b?, s, hbody, h⟩ := (Pass.Sure.bodyBlock? _).passes h
  cases b? with
  | none =>
    cases h
    exact .noBody (bodyBlock?_session hbody ▸ hbody) hname rfl
  | some b =>
    obtain ⟨rfl, henters⟩ := bodyBlock?_eq_some hw hbody
    rcases Pass.bind_eq_error h with h | ⟨out, mid, hgoes, h⟩
    · exact .inBody hbody henters h
    · split at h
      · cases h
      · rename_i hreleased
        cases h
        exact .afterBody hbody henters hgoes (fun hempty => hreleased (by rw [hempty]; rfl)) hname
          rfl

/-- The check at the end rejects for a defect of shape, and for nothing else. -/
theorem threadOwnership_rejects (h : f.threadOwnership settings = .error (.rejected reason))
    (hreason : ∀ defect, reason ≠ .verification defect) :
    f.threadFromRoot settings = .error (.rejected reason) := by
  cases hroot : f.threadFromRoot settings with
  | error failure =>
    rw [threadOwnership, hroot] at h
    cases h
    rfl
  | ok answer =>
    rw [threadOwnership, hroot] at h
    cases hresult : answer.2.routine.checkResult settings with
    | ok _ =>
      simp only [bind, Except.bind, hresult] at h
      cases h
    | error failure =>
      simp only [bind, Except.bind, hresult] at h
      obtain rfl := Except.error.inj h
      unfold checkResult at hresult
      split at hresult
      · split at hresult <;> cases hresult
        exact absurd rfl (hreason _)
      · cases hresult

/-- Without the check at the end, a run fails where threading does. -/
theorem threadFromRoot_of_unchecked {failure : Failure Rejection}
    (hverify : settings.verify = false) (h : f.threadOwnership settings = .error failure) :
    f.threadFromRoot settings = .error failure := by
  unfold threadOwnership at h
  cases hroot : f.threadFromRoot settings with
  | error failure' =>
    rw [hroot] at h
    cases h
    rfl
  | ok answer =>
    simp only [hroot, bind, Except.bind, checkResult, hverify, Bool.false_eq_true, if_false] at h
    cases h

/-! ## Failures that can be checked -/

/-- Does a computation end in a given failure? -/
def failsWith {ε α : Type} [DecidableEq ε] (failure : ε) : Except ε α → Bool
  | .ok _ => false
  | .error failure' => failure' = failure

theorem eq_error_of_failsWith {ε α : Type} [DecidableEq ε] {x : Except ε α} {failure : ε}
    (h : failsWith failure x = true) : x = .error failure := by
  cases x with
  | ok _ => cases h
  | error _ => rw [of_decide_eq_true h]

end BufferOwnership
