import BufferOwnership.Proofs.Erasure
import BufferOwnership.Proofs.LockstepConstructs

/-!
# Runs in lockstep

Two runs from one coherent routine, with settings that differ at most in where releases go, come
to the same end: both reject it for the same reason, or both give the same report, and the two
results have the same tables up to the places of the releases. No run ends in a fault, since each
run is in step with itself. The check of the result passes over the releases.
-/

namespace BufferOwnership

open Routine Pass

variable {f r : Routine} {s₁ s₂ s₁' s₂' : Session} {b : BlockId} {h o x : OpId} {g : RegionId}
variable {treat₁ treat₂ : OpPass} {settings₁ settings₂ : Settings} {front rest : List OpId}
variable {owned : ValueSet} {fuel k : Nat} {d : Op}

/-! ## Operations by class -/

/-- All that happened is inside the operation, and so are the indicators that it leaves. -/
theorem BothAt.opDone (hat : BothAt f b h o front rest s₁ s₂) (hf : f.Coherent) {out : Outcome}
    (hab : Abreast f (f.InsideBlock o) s₁ s₂ s₁' s₂')
    (hheld : ∀ i ∈ out.acquired, Held f s₁'.routine (f.InsideBlock o) i) :
    OpDone f b o rest s₁ s₂ out s₁' s₂' := by
  have hat' := hat.inside hf hab
  refine ⟨hab.mono fun c hc => .inr hc, ⟨front ++ [o], ?_, ?_⟩, fun i hi => ?_⟩
  · simpa using hat'.left
  · simpa using hat'.right
  · exact (hheld i hi).mono fun c hc => .of_inside hat.parent (.inr hc)

theorem throughEffects_agree (hat : BothAt f b h o front rest s₁ s₂)
    {allocated freed : List ValueId} (hknown : ∀ v ∈ allocated, v.index < s₁.routine.values.size) :
    Agree (throughEffects o allocated freed) (throughEffects o allocated freed) s₁ s₂
      (OpDone f b o rest s₁ s₂) := by
  obtain ⟨next, rest, rfl⟩ := List.exists_cons_of_ne_nil hat.more
  refine Agree.ask (hat.level.left.pointAfter hat.left) (hat.level.right.pointAfter hat.right) ?_
  have hl₁ : s₁.routine.opsOf b = (front ++ [o]) ++ next :: rest := by simpa using hat.left
  have hl₂ : s₂.routine.opsOf b = (front ++ [o]) ++ next :: rest := by simpa using hat.right
  refine Agree.bind (hat.level.ownAll hl₁ hl₂ (hat.old next (by simp)) hknown)
    fun acquired t₁ t₂ hq => Agree.pure ?_
  obtain ⟨hab, hheld, added, hl₁', hl₂'⟩ := hq
  refine ⟨hab.mono fun c hc => .inl hc, ⟨front ++ [o] ++ added, hl₁', hl₂'⟩, fun i hi => ?_⟩
  exact (hheld i hi).mono fun _ hfalse => hfalse.elim

theorem Level.name (hlevel : Level f s₁ s₂) :
    Concur s₁.routine.name s₂.routine.name := by
  obtain ⟨name, hkind⟩ := hlevel.left.root_routine
  obtain ⟨d, hd, hname⟩ := exists_op?_of_kind? hkind
  have hname₁ : s₁.routine.name = .ok name := by
    rw [Routine.name, bind_of_ok (op_of hd), hname]
    rfl
  have hname₂ : s₂.routine.name = .ok name := by
    rw [Routine.name, ← hlevel.alike.root, bind_of_ok (hlevel.op_right hd), hname]
    rfl
  exact ⟨name, hname₁, hname₂⟩

theorem throughRoutine_agree (hf : f.Coherent) (htreat : OpsAgree f o treat₁ treat₂)
    (hat : AtRegions f o ((f.regionsOf o).flatMap f.blocksOf) s₁ s₂) :
    Agree (throughRoutine settings₁ treat₁ o) (throughRoutine settings₂ treat₂ o) s₁ s₂
      fun out s₁' s₂' => Abreast f (f.InsideBlock o) s₁ s₂ s₁' s₂' ∧
        ∀ i ∈ out.acquired, Held f s₁'.routine (f.InsideBlock o) i := by
  obtain ⟨name, hname₁, hname₂⟩ := hat.level.name
  refine Agree.ask hname₁ hname₂ ?_
  have hregions := hat.standing.regionsOf hat.level.since_left hf hat.reached .refl
  obtain ⟨d, hd⟩ := hf.exists_op?_of_reached hat.reached
  obtain ⟨e, he⟩ := Option.ne_none_iff_exists'.mp
    (hat.level.since_left.op?_ne_none (p := o) (by simp [hd]))
  rw [regionsOf_of he] at hregions
  -- the body is found in the first region, if anywhere
  have hbody : Agree (bodyBlock? o) (bodyBlock? o) s₁ s₂ fun b? t₁ t₂ =>
      t₁ = s₁ ∧ t₂ = s₂ ∧ ∀ b ∈ b?, b ∈ (f.regionsOf o).flatMap f.blocksOf := by
    refine Agree.ask (op_of he) (hat.level.op_right he) ?_
    cases hgs : e.regions with
    | nil => exact Agree.pure ⟨rfl, rfl, by simp⟩
    | cons g gs =>
      have hg : g ∈ s₁.routine.regionsOf o := by simp [regionsOf_of he, hgs]
      obtain ⟨b?, hb⟩ := hat.level.left.inRange.singleBlock? hg
      have hb₂ := hat.level.alike.singleBlock?_eq g ▸ hb
      refine .inr ⟨b?, s₁, s₂, ask_eq_ok.mpr ⟨hb, rfl⟩, ask_eq_ok.mpr ⟨hb₂, rfl⟩, rfl, rfl, ?_⟩
      rintro b rfl
      refine List.mem_flatMap.mpr ⟨g, by rw [← hregions, hgs]; simp, ?_⟩
      rw [← hat.level.since_left.blocks, singleBlock?_eq_some hb]
      simp
  refine Agree.bind hbody fun b? t₁ t₂ hq => ?_
  obtain ⟨rfl, rfl, hmem⟩ := hq
  cases b? with
  | none => exact Agree.reject _
  | some b =>
    have hb := hmem b rfl
    refine Agree.bind (throughBlock_agree hf htreat (hat.atBlock hb) (hat.fresh b hb))
      fun out t₁ t₂ hq => ?_
    obtain ⟨hab, hheld⟩ := hq
    have hin : ∀ c, f.Under b c → f.InsideBlock o c := fun c hu =>
      hu.insideBlock (hat.held b hb)
    split
    · exact Agree.pure ⟨hab.mono hin, fun i hi => (hheld i hi).mono hin⟩
    · exact Agree.reject _

theorem throughUnknownRegions_agree (hf : f.Coherent) (htreat : OpsAgree f o treat₁ treat₂)
    (hat : AtNext f b h o front rest s₁ s₂) :
    Agree (throughUnknownRegions settings₁ treat₁ o) (throughUnknownRegions settings₂ treat₂ o)
      s₁ s₂ (OpDone f b o rest s₁ s₂) := by
  obtain ⟨d, hd⟩ := hat.op?
  refine Agree.ask (op_of hd) (hat.level.op_right hd) ?_
  have hd₂ := (hat.level.alike.op?_eq o).symm.trans hd
  have hregions : d.regions = f.regionsOf o := (regionsOf_of hd).symm.trans (hat.regionsOf hf)
  obtain ⟨answer, hanswer, hiff⟩ : ∃ answer, d.results.anyM s₁.routine.isBuffer = .ok answer ∧
      (answer = true ↔ ∃ v ∈ d.results, s₁.routine.holdsBuffer v = true) :=
    anyM_eq_ok fun v hv => ⟨_, isBuffer_ok (hat.level.left.results_known o v
      (by rwa [resultsOf_of hd])), Iff.rfl⟩
  obtain ⟨answer₂, hanswer₂, hiff₂⟩ : ∃ answer, d.results.anyM s₂.routine.isBuffer = .ok answer ∧
      (answer = true ↔ ∃ v ∈ d.results, s₂.routine.holdsBuffer v = true) :=
    anyM_eq_ok fun v hv => ⟨_, isBuffer_ok (hat.level.right.results_known o v
      (by rwa [resultsOf_of hd₂])), Iff.rfl⟩
  -- types agree, so both sides give one answer
  obtain rfl : answer = answer₂ := eq_of_true_iff hiff hiff₂ <| by
    rw [funext hat.level.alike.holdsBuffer_eq]
  refine Agree.ask hanswer hanswer₂ ?_
  split
  · exact Agree.reject _
  have hblocks₁ := hat.level.left.inRange.innerBlocks hd
  have hblocks₂ := hat.level.right.inRange.innerBlocks hd₂
  rw [hregions, funext hat.level.since_left.blocks] at hblocks₁
  rw [hregions, funext hat.level.since_right.blocks] at hblocks₂
  refine Agree.ask hblocks₁ hblocks₂ ?_
  refine (throughUnknownBlocks_agree hf htreat (hat.atRegions hf)
    (nodup_innerBlocks hf.toNested o)).mono fun out t₁ t₂ hq => ?_
  exact hat.opDone hf hq.1 (by simp [hq.2, Outcome.none])

theorem throughPlain_agree (hat : BothAt f b h o front rest s₁ s₂) (hf : f.Coherent) :
    Agree (throughPlain o) (throughPlain o) s₁ s₂ (OpDone f b o rest s₁ s₂) := by
  obtain ⟨d, hd⟩ := hat.op?
  have hpairs : Concur (s₁.routine.plainAliases o) (s₂.routine.plainAliases o) := by
    have helem : s₁.routine.elemOf? = s₂.routine.elemOf? := funext fun v => by
      rw [elemOf?, elemOf?, hat.level.alike.values]
    rw [plainAliases, plainAliases, bind_of_ok (op_of hd), bind_of_ok (hat.level.op_right hd),
      helem]
    refine (hat.level.buffers fun v hv => ?_).bind fun operands _ => ?_
    · exact hat.level.left.operands_known o v (by rwa [operandsOf_of hd])
    refine (hat.level.buffers fun v hv => ?_).bind fun results _ => ?_
    · exact hat.level.left.results_known o v (by rwa [resultsOf_of hd])
    exact ⟨_, rfl, rfl⟩
  obtain ⟨pairs, hpairs₁, hpairs₂⟩ := hpairs
  refine Agree.ask hpairs₁ hpairs₂ (Agree.modifyAliases (Agree.pure ?_))
  refine hat.opDone hf ?_ (by simp [Outcome.none])
  exact ⟨hat.level.unionAll pairs, .refl _, fun _ _ => rfl, fun _ _ => rfl⟩

/-! ## The descent -/

section

variable (hf : f.Coherent) (htransfer : settings₁.transfer = settings₂.transfer)
include hf htransfer

/-- An operation is treated alike if those inside it are. -/
theorem throughOp_agree (htreat : OpsAgree f o treat₁ treat₂)
    (hat : AtNext f b h o front rest s₁ s₂)
    (howned : ∀ i ∈ owned, Held f s₁.routine (f.Under b) i) :
    Agree (throughOp settings₁ treat₁ o owned) (throughOp settings₂ treat₂ o owned) s₁ s₂
      (OpDone f b o rest s₁ s₂) := by
  obtain ⟨d, hd⟩ := hat.op?
  refine Agree.ask (op_of hd) (hat.level.op_right hd) ?_
  have hspec := d.classify_spec
  cases hclass : d.classify with
  | construct kind =>
    rw [hclass] at hspec
    exact throughConstruct_agree hf htransfer htreat hat hd hspec fun i hi => (howned i hi).known
  | effects allocated freed =>
    rw [hclass] at hspec
    obtain ⟨-, rfl, rfl⟩ := hspec
    refine throughEffects_agree hat.toBothAt fun v hv => ?_
    refine hat.level.left.results_known o v ?_
    rw [resultsOf_of hd]
    exact Op.mem_results_of_mem_allocated hv
  | routine =>
    exact (throughRoutine_agree hf htreat (hat.atRegions hf)).mono fun out t₁ t₂ hq =>
      hat.opDone hf hq.1 hq.2
  | unknownRegions => exact throughUnknownRegions_agree hf htreat hat
  | plain => exact throughPlain_agree hat.toBothAt hf

/-- With fuel for what is left of the depth, operations inside an operation are treated alike. -/
theorem throughOpWithin_agree (hdepth : f.Depth k h) (hfuel : f.ops.size ≤ fuel + k) :
    OpsAgree f h (throughOpWithin settings₁ fuel) (throughOpWithin settings₂ fuel) := by
  induction fuel generalizing h k with
  | zero =>
    intro b o front rest owned s₁ s₂ hat
    have hlt := (hdepth.inner hat.up?).lt hf
    omega
  | succ fuel ih =>
    intro b o front rest owned s₁ s₂ hat howned
    exact throughOp_agree hf htransfer (ih (hdepth.inner hat.up?) (by omega)) hat howned

/-- The whole run, from the root on. -/
theorem threadFromRoot_agree :
    Agree (throughOpWithin settings₁ f.depthBound f.root ∅)
      (throughOpWithin settings₂ f.depthBound f.root ∅) (.start f) (.start f)
      fun _ s₁' s₂' => Level f s₁' s₂' := by
  obtain ⟨name, hname⟩ := hf.root_routine
  obtain ⟨d, hd, hkind⟩ := exists_op?_of_kind? hname
  have htreat : OpsAgree f f.root (throughOpWithin settings₁ f.ops.size)
      (throughOpWithin settings₂ f.ops.size) :=
    throughOpWithin_agree hf htransfer .root (Nat.le_refl _)
  refine Agree.ask (op_of hd) (op_of hd) ?_
  rw [Op.classify_of_routine hkind]
  have hat : AtRegions f f.root ((f.regionsOf f.root).flatMap f.blocksOf) (.start f) (.start f) :=
    { reached := .refl, level := .start hf, standing := .start f _
      held := fun c hc => by
        obtain ⟨g, hg, hgc⟩ := List.mem_flatMap.mp hc
        exact hf.holder?_iff.mpr ⟨g, hg, hgc⟩
      fresh := fun _ _ _ _ => ⟨rfl, rfl⟩ }
  exact (throughRoutine_agree hf htreat hat).mono fun _ _ _ hq => hq.1.level

end

/-! ## The check of the result -/

/-- Two checks come to the same, and that is no fault. -/
def Matched {ε α : Type} (x₁ x₂ : Except (Failure ε) α) : Prop :=
  x₁ = x₂ ∧ ∀ fault, x₁ ≠ .error (.fault fault)

namespace Matched

variable {ε α β : Type} {x₁ x₂ : Except (Failure ε) α}

theorem ok (a : α) : Matched (.ok a : Except (Failure ε) α) (.ok a) := ⟨rfl, nofun⟩

theorem rejected (reason : ε) :
    Matched (.error (.rejected reason) : Except (Failure ε) α) (.error (.rejected reason)) :=
  ⟨rfl, nofun⟩

theorem bind {f₁ f₂ : α → Except (Failure ε) β} (hx : Matched x₁ x₂)
    (hf : ∀ a, x₁ = .ok a → Matched (f₁ a) (f₂ a)) : Matched (x₁ >>= f₁) (x₂ >>= f₂) := by
  obtain ⟨rfl, hfault⟩ := hx
  cases x₁ with
  | error e =>
    refine ⟨rfl, fun fault heq => hfault fault ?_⟩
    cases heq
    rfl
  | ok a => exact hf a rfl

theorem ask {y₁ y₂ : Except Fault α} (hy : Concur y₁ y₂) :
    Matched (orFault y₁ : Except (Failure ε) α) (orFault y₂) := by
  obtain ⟨a, rfl, rfl⟩ := hy
  exact ok a

theorem forM {l : List α} {f₁ f₂ : α → Except (Failure ε) Unit}
    (hf : ∀ a ∈ l, Matched (f₁ a) (f₂ a)) : Matched (l.forM f₁) (l.forM f₂) := by
  induction l with
  | nil => exact ok ()
  | cons a l ih => exact (hf a (by simp)).bind fun _ _ => ih fun c hc => hf c (by simp [hc])

end Matched

/-- What always passes can be left out of a list of checks. -/
theorem forM_filter {ε α : Type} {l : List α} {f : α → Except ε Unit} (keep : α → Bool)
    (hpass : ∀ a ∈ l, keep a = false → f a = .ok ()) : l.forM f = (l.filter keep).forM f := by
  induction l with
  | nil => rfl
  | cons a l ih =>
    have hrest := ih fun c hc => hpass c (by simp [hc])
    cases hkeep : keep a with
    | true =>
      rw [List.filter_cons_of_pos hkeep]
      show (f a >>= fun _ => l.forM f) = (f a >>= fun _ => (l.filter keep).forM f)
      rw [hrest]
    | false =>
      rw [List.filter_cons_of_neg (by simp [hkeep])]
      show (f a >>= fun _ => l.forM f) = _
      rw [bind_of_ok (hpass a (by simp) hkeep), hrest]

namespace Routine

/-- A release of a run is no terminator. -/
theorem isTerminator_of_isNewRelease (hx : f.isNewRelease r x = true) :
    r.isTerminator x = false := by
  simp only [isNewRelease, Bool.and_eq_true, decide_eq_true_eq] at hx
  simp [isTerminator, hx.2, OpKind.isTerminator]

theorem findTerminator?_eq {l : List OpId} (hl : ∀ q ∈ l, r.op? q ≠ none) :
    r.findTerminator? l = .ok ((l.find? r.isTerminator).bind fun q => (r.kind? q).map (q, ·)) := by
  induction l with
  | nil => rfl
  | cons q l ih =>
    obtain ⟨d, hd⟩ := Option.ne_none_iff_exists'.mp (hl q (by simp))
    have hq : r.isTerminator q = d.kind.isTerminator := by simp [isTerminator_of hd]
    rw [findTerminator?, bind_of_ok (op_of hd), List.find?_cons, hq]
    cases hterm : d.kind.isTerminator with
    | true => simp [hterm, kind?_of hd, pure, Except.pure]
    | false =>
      rw [if_neg (by simp [hterm])]
      exact ih fun p hp => hl p (by simp [hp])

/-- A retain without results and without regions passes the check. -/
theorem InRange.checkWithin_retain (hr : r.InRange) (hd : r.op? x = some d)
    (hkind : d.kind = .retain 0) (hresults : d.results = []) (hregions : d.regions = [])
    (fuel : Nat) : r.checkWithin (fuel + 1) x = .ok () := by
  have hno : d.kind.construct? = none := by rw [hkind]; rfl
  refine (hr.checkWithin_succ_iff hd).mpr ⟨?_, by simp [hregions]⟩
  exact {
    retain := fun n hn => by
      cases hkind.symm.trans hn
      simp [hresults]
    alternative := fun hcond => by cases hkind.symm.trans hcond
    single := fun hc => absurd hno hc
    edges := fun source e he => by simp [edgesFrom_of_not_construct hno] at he
    blocks := by simp [hregions] }

/-- What a run puts in as a release passes the check. -/
theorem Advance.checkWithin_release (hadv : Advance f r) (hr : r.InRange)
    (hx : f.isNewRelease r x = true) (fuel : Nat) : r.checkWithin (fuel + 1) x = .ok () := by
  simp only [isNewRelease, Bool.and_eq_true, decide_eq_true_eq] at hx
  obtain ⟨hnew, hkind⟩ := hx
  obtain ⟨d, hd, hdkind⟩ := exists_op?_of_kind? hkind
  obtain ⟨hregions, hresults, -⟩ := hadv.retains x 0 (op?_eq_none_iff.mpr hnew) hkind
  rw [regionsOf_of hd] at hregions
  rw [resultsOf_of hd, List.length_eq_zero_iff] at hresults
  exact hr.checkWithin_retain hd hdkind hresults hregions fuel

end Routine

section Check

variable (hlevel : Level f s₁ s₂)
include hlevel

/-- Without the releases that were put in, a block has the same operations before its last one. -/
theorem Level.kept_dropLast (hf : f.Coherent) (b : BlockId) :
    ((s₁.routine.opsOf b).dropLast.filter fun x => !f.isNewRelease s₁.routine x) =
      (s₂.routine.opsOf b).dropLast.filter fun x => !f.isNewRelease s₁.routine x := by
  have hkept := hlevel.alike.kept b
  have hlast₁ := hlevel.since_left.last b
  have hlast₂ := hlevel.since_right.last b
  cases ht : (f.opsOf b).getLast? with
  | none =>
    rw [ht, List.getLast?_eq_none_iff] at hlast₁ hlast₂
    rw [hlast₁, hlast₂]
  | some t =>
    have hold : f.isNewRelease s₁.routine t = false :=
      isNewRelease_old (hf.lt_of_mem (List.mem_of_getLast? ht))
    rw [ht] at hlast₁ hlast₂
    rw [← List.dropLast_append_getLast? t hlast₁, ← List.dropLast_append_getLast? t hlast₂] at hkept
    simpa [List.filter_append, hold] using hkept

theorem Level.findTerminator? (hf : f.Coherent) (b : BlockId) :
    Concur (s₁.routine.findTerminator? (s₁.routine.opsOf b).dropLast)
      (s₂.routine.findTerminator? (s₂.routine.opsOf b).dropLast) := by
  have hterm : s₁.routine.isTerminator = s₂.routine.isTerminator := funext fun p => by
    rw [isTerminator, isTerminator, hlevel.alike.kind?_eq]
  -- a release is no terminator, so it makes no difference to the search
  have hskip : ∀ l : List OpId, l.find? s₁.routine.isTerminator =
      (l.filter fun x => !f.isNewRelease s₁.routine x).find? s₁.routine.isTerminator := by
    intro l
    rw [List.find?_filter]
    congr 1
    funext x
    cases hx : f.isNewRelease s₁.routine x with
    | true => simp [isTerminator_of_isNewRelease hx]
    | false => simp
  have hfound := findTerminator?_eq (r := s₁.routine) fun q hq =>
    hlevel.left.inRange.ops b q (List.dropLast_subset _ hq)
  have hfound₂ := findTerminator?_eq (r := s₂.routine) fun q hq =>
    hlevel.right.inRange.ops b q (List.dropLast_subset _ hq)
  refine ⟨_, hfound, hfound₂.trans ?_⟩
  rw [← hterm, hskip, ← hlevel.kept_dropLast hf, ← hskip, funext hlevel.alike.kind?_eq]

theorem Level.checkBlock (hf : f.Coherent) (hb : b ∈ s₁.routine.blocksOf g) :
    Matched (s₁.routine.checkBlock b) (s₂.routine.checkBlock b) := by
  have hb₂ : b ∈ s₂.routine.blocksOf g := hlevel.alike.blocksOf_eq g ▸ hb
  obtain ⟨B₁, hB₁, hops₁, -⟩ := hlevel.left.inRange.block hb
  obtain ⟨B₂, hB₂, hops₂, -⟩ := hlevel.right.inRange.block hb₂
  rw [Routine.checkBlock, Routine.checkBlock, bind_of_ok (orFault_eq_ok.mpr hB₁),
    bind_of_ok (orFault_eq_ok.mpr hB₂), hops₁, hops₂,
    bind_of_ok (orFault_eq_ok.mpr (hlevel.left.inRange.terminator? hb)),
    bind_of_ok (orFault_eq_ok.mpr (hlevel.right.inRange.terminator? hb₂)), ← hlevel.lastTerminator?]
  cases s₁.routine.lastTerminator? b with
  | none => exact .rejected _
  | some t =>
    refine (Matched.ask (hlevel.findTerminator? hf b)).bind fun found _ => ?_
    cases found with
    | none => exact .ok ()
    | some q => exact .rejected _

theorem Level.checkRegions (hf : f.Coherent) {gs : List RegionId}
    (hgs : gs ⊆ s₁.routine.regionsOf o) :
    Matched (s₁.routine.checkRegions gs) (s₂.routine.checkRegions gs) := by
  induction gs with
  | nil => exact .ok ()
  | cons g gs ih =>
    obtain ⟨G, hG, hblocks⟩ := hlevel.left.inRange.region (hgs (List.mem_cons_self (a := g)))
    have hrest := ih fun k hk => hgs (by simp [hk])
    rw [Routine.checkRegions, Routine.checkRegions, ← hlevel.alike.region_eq,
      bind_of_ok (orFault_eq_ok.mpr hG), bind_of_ok (orFault_eq_ok.mpr hG), hblocks]
    exact (Matched.forM fun b hb => hlevel.checkBlock hf hb).bind fun _ _ => hrest

theorem Level.checkOp (hd : s₁.routine.op? o = some d) :
    Matched (s₁.routine.checkOp o d) (s₂.routine.checkOp o d) := by
  have hd₂ := (hlevel.alike.op?_eq o).symm.trans hd
  have hempty : Concur (s₁.routine.isRegionAtEmpty d.regions 1)
      (s₂.routine.isRegionAtEmpty d.regions 1) := by
    refine ⟨_, regionsOf_of hd ▸ hlevel.left.inRange.isRegionAtEmpty 1, ?_⟩
    rw [← regionsOf_of hd₂, hlevel.right.inRange.isRegionAtEmpty 1, regionsOf_of hd₂,
      blockAt?, blockAt?, funext hlevel.alike.blocksOf_eq]
  have hcounts : Matched (s₁.routine.checkCounts o d) (s₂.routine.checkCounts o d) := by
    unfold Routine.checkCounts
    split
    · split
      · exact .rejected _
      · exact .ok ()
    · refine (Matched.ask hempty).bind fun elseEmpty _ => ?_
      split
      · exact .rejected _
      · exact .ok ()
    · exact .ok ()
  refine hcounts.bind fun _ _ => ?_
  unfold Routine.checkConstruct
  split
  · exact .ok ()
  refine (Matched.ask (hlevel.hasMultiBlockRegion hd)).bind fun multi _ => ?_
  split
  · exact .rejected _
  refine Matched.forM fun source _ => ?_
  rw [Routine.checkEdgesFrom, Routine.checkEdgesFrom,
    bind_of_ok (orFault_eq_ok.mpr (hlevel.left.inRange.flowEdges hd source)),
    bind_of_ok (orFault_eq_ok.mpr (hlevel.right.inRange.flowEdges hd₂ source)), hlevel.edgesFrom]
  refine Matched.forM fun edge _ => ?_
  unfold checkEdge
  split
  · exact .ok ()
  · exact .rejected _

/-- The operations in some blocks are checked on both sides, past the releases. -/
theorem Level.forM_inner {cs : List BlockId} {check₁ check₂ : OpId → ShapeCheck Unit}
    (hpass : ∀ q ∈ cs.flatMap s₁.routine.opsOf, f.isNewRelease s₁.routine q = true →
      check₁ q = .ok () ∧ check₂ q = .ok ())
    (hcheck : ∀ q ∈ cs.flatMap s₁.routine.opsOf, Matched (check₁ q) (check₂ q)) :
    Matched ((cs.flatMap s₁.routine.opsOf).reverse.forM check₁)
      ((cs.flatMap s₂.routine.opsOf).reverse.forM check₂) := by
  have hmem : ∀ q, q ∈ cs.flatMap s₂.routine.opsOf → q ∈ cs.flatMap s₁.routine.opsOf := by
    intro q hq
    obtain ⟨c, hc, hqc⟩ := List.mem_flatMap.mp hq
    exact List.mem_flatMap.mpr ⟨c, hc, (hlevel.alike.perm c).mem_iff.mpr hqc⟩
  rw [forM_filter (fun x => !f.isNewRelease s₁.routine x) fun q hq hnew =>
      (hpass q (List.mem_reverse.mp hq) (by simpa using hnew)).1,
    forM_filter (fun x => !f.isNewRelease s₁.routine x) fun q hq hnew =>
      (hpass q (hmem q (List.mem_reverse.mp hq)) (by simpa using hnew)).2,
    List.filter_reverse, List.filter_reverse, List.filter_flatMap, List.filter_flatMap]
  simp only [← hlevel.alike.kept, ← List.filter_flatMap]
  refine Matched.forM fun q hq => hcheck q ?_
  exact (List.mem_filter.mp (List.mem_reverse.mp hq)).1

/-- The check goes down both routines in step. -/
theorem Level.checkWithin (hf : f.Coherent) (hdepth : s₁.routine.Depth k o)
    (hfuel : s₁.routine.ops.size < fuel + k) :
    Matched (s₁.routine.checkWithin fuel o) (s₂.routine.checkWithin fuel o) := by
  induction fuel generalizing o k with
  | zero =>
    have hlt := hdepth.lt hlevel.left
    omega
  | succ fuel ih =>
    obtain ⟨d, hd⟩ := hlevel.left.exists_op?_of_reached hdepth.reached
    have hd₂ := (hlevel.alike.op?_eq o).symm.trans hd
    have hsub : d.regions ⊆ s₁.routine.regionsOf o := by rw [regionsOf_of hd]; simp
    have hblocks := funext hlevel.alike.blocksOf_eq
    rw [Routine.checkWithin, Routine.checkWithin, bind_of_ok (orFault_eq_ok.mpr (op_of hd)),
      bind_of_ok (orFault_eq_ok.mpr (op_of hd₂))]
    refine (hlevel.checkOp hd).bind fun _ _ => (hlevel.checkRegions hf hsub).bind fun _ _ => ?_
    rw [bind_of_ok (orFault_eq_ok.mpr (hlevel.left.inRange.innerOps hd)),
      bind_of_ok (orFault_eq_ok.mpr (hlevel.right.inRange.innerOps hd₂)), ← hblocks]
    -- what is directly inside is one level deeper
    have hinner : ∀ q ∈ (d.regions.flatMap s₁.routine.blocksOf).flatMap s₁.routine.opsOf,
        s₁.routine.Depth (k + 1) q := by
      intro q hq
      obtain ⟨c, hc, hqc⟩ := List.mem_flatMap.mp hq
      obtain ⟨g, hg, hgc⟩ := List.mem_flatMap.mp hc
      refine hdepth.inner ((hlevel.left.up?_of_mem hqc).trans ?_)
      exact hlevel.left.holder?_iff.mpr ⟨g, hsub hg, hgc⟩
    refine hlevel.forM_inner (fun q hq hnew => ?_) fun q hq => ih (hinner q hq) (by omega)
    -- so there is fuel to look at a release
    have hlt := (hinner q hq).lt hlevel.left
    obtain ⟨more, rfl⟩ : ∃ more, fuel = more + 1 := ⟨fuel - 1, by omega⟩
    exact ⟨hlevel.since_left.checkWithin_release hlevel.left.inRange hnew more,
      hlevel.since_right.checkWithin_release hlevel.right.inRange
        (hlevel.alike.isNewRelease_eq q ▸ hnew) more⟩

theorem Level.checkResult (hf : f.Coherent) (hverify : settings₁.verify = settings₂.verify) :
    Matched (s₁.routine.checkResult settings₁) (s₂.routine.checkResult settings₂) := by
  have hsize : s₁.routine.depthBound = s₂.routine.depthBound := by
    rw [depthBound, depthBound, hlevel.alike.ops]
  obtain ⟨hsame, hfault⟩ : Matched s₁.routine.checkShape s₂.routine.checkShape := by
    rw [checkShape, checkShape, ← hsize, ← hlevel.alike.root]
    exact hlevel.checkWithin hf .root (by simp [depthBound])
  unfold Routine.checkResult
  rw [hverify]
  split
  · rw [← hsame]
    cases hshape : s₁.routine.checkShape with
    | ok u => exact .ok ()
    | error e =>
      cases e with
      | fault fault => exact absurd hshape (hfault fault)
      | rejected defect => exact .rejected _
  · exact .ok ()

end Check

/-! ## Whole runs -/

/-- Two runs whose settings agree on transfers and on the check come to the same end. -/
theorem threadOwnership_agree (hf : f.Coherent)
    (htransfer : settings₁.transfer = settings₂.transfer)
    (hverify : settings₁.verify = settings₂.verify) :
    (∃ reason, f.threadOwnership settings₁ = .error (.rejected reason) ∧
        f.threadOwnership settings₂ = .error (.rejected reason)) ∨
      ∃ report r₁ r₂, f.threadOwnership settings₁ = .ok (report, r₁) ∧
        f.threadOwnership settings₂ = .ok (report, r₂) ∧ Alike f r₁ r₂ := by
  unfold threadOwnership threadFromRoot
  rcases threadFromRoot_agree hf htransfer with
    ⟨reason, h₁, h₂⟩ | ⟨out, s₁, s₂, h₁, h₂, hlevel⟩
  · refine .inl ⟨reason, ?_, ?_⟩
    · rw [h₁]
      rfl
    · rw [h₂]
      rfl
  rw [bind_of_ok h₁, bind_of_ok h₂]
  dsimp only
  obtain ⟨hsame, hfault⟩ := hlevel.checkResult hf hverify
  rw [← hsame, ← hlevel.tally]
  cases hcheck : s₁.routine.checkResult settings₁ with
  | error e =>
    cases e with
    | fault fault => exact absurd hcheck (hfault fault)
    | rejected reason => exact .inl ⟨reason, rfl, rfl⟩
  | ok u => exact .inr ⟨_, s₁.routine, s₂.routine, rfl, rfl, hlevel.alike⟩

/-- Moving releases up makes no difference to the answer, and to the result only in their places. -/
theorem hoisting_moves_releases_only (hf : f.Coherent) (settings : Settings)
    (hoist₁ hoist₂ : Bool) :
    (∃ reason,
        f.threadOwnership { settings with hoist := hoist₁ } = .error (.rejected reason) ∧
        f.threadOwnership { settings with hoist := hoist₂ } = .error (.rejected reason)) ∨
      ∃ report r₁ r₂,
        f.threadOwnership { settings with hoist := hoist₁ } = .ok (report, r₁) ∧
        f.threadOwnership { settings with hoist := hoist₂ } = .ok (report, r₂) ∧
        Alike f r₁ r₂ :=
  threadOwnership_agree hf rfl rfl

/-- Of two buffers the first is not needed after it has been made. -/
def unneeded : Edit Unit := do
  let entry : InsertPoint := .atEnd ⟨0⟩
  let _ ← Emit.alloc entry (.buffer .f32 1)
  let kept ← Emit.alloc entry (.buffer .f32 1)
  let _ ← Emit.ret entry [kept]

/-- The routine that `unneeded` makes. -/
def unneededRoutine : Routine := unneeded.build "unneeded" []

/-- The release moves up past the second buffer, and nothing else is different. -/
theorem hoisting_moves_releases_only_unneeded : unneededRoutine.Coherent ∧ ∃ report r₁ r₂,
    unneededRoutine.threadOwnership { hoist := true } = .ok (report, r₁) ∧
    unneededRoutine.threadOwnership { hoist := false } = .ok (report, r₂) ∧
    Alike unneededRoutine r₁ r₂ ∧ r₁.opsOf ⟨0⟩ ≠ r₂.opsOf ⟨0⟩ := by
  have hc : unneededRoutine.Coherent :=
    (Routine.wellFormed_of_check (by decide +kernel)).coherent
  obtain ⟨answer₁, h₁, hlist₁⟩ := exists_of_check
    (x := unneededRoutine.threadOwnership { hoist := true })
    (P := fun answer => answer.2.opsOf ⟨0⟩ = [⟨1⟩, ⟨4⟩, ⟨6⟩, ⟨2⟩, ⟨5⟩, ⟨3⟩]) (by decide +kernel)
  obtain ⟨answer₂, h₂, hlist₂⟩ := exists_of_check
    (x := unneededRoutine.threadOwnership { hoist := false })
    (P := fun answer => answer.2.opsOf ⟨0⟩ = [⟨1⟩, ⟨4⟩, ⟨2⟩, ⟨5⟩, ⟨6⟩, ⟨3⟩]) (by decide +kernel)
  rcases hoisting_moves_releases_only hc {} true false with
    ⟨reason, hreject, -⟩ | ⟨report, r₁, r₂, hr₁, hr₂, halike⟩
  · cases h₁.symm.trans hreject
  · cases h₁.symm.trans hr₁
    cases h₂.symm.trans hr₂
    refine ⟨hc, report, r₁, r₂, hr₁, hr₂, halike, ?_⟩
    rw [hlist₁, hlist₂]
    decide

/-- No run on a coherent routine ends in a fault: all that it looks up is there, what it inserts
goes before an operation that stands in a block, and it comes to an end. -/
theorem threadOwnership_never_faults (hf : f.Coherent) (settings : Settings) :
    (∃ report r, f.threadOwnership settings = .ok (report, r)) ∨
      ∃ reason, f.threadOwnership settings = .error (.rejected reason) := by
  rcases threadOwnership_agree hf (Eq.refl settings.transfer) (Eq.refl settings.verify) with
    ⟨reason, h, -⟩ | ⟨report, r, -, h, -⟩
  · exact .inr ⟨reason, h⟩
  · exact .inl ⟨report, r, h⟩

theorem threadOwnership_never_faults_renewal : renewalRoutine.Coherent ∧
    ((∃ report r, renewalRoutine.threadOwnership {} = .ok (report, r)) ∨
      ∃ reason, renewalRoutine.threadOwnership {} = .error (.rejected reason)) :=
  ⟨renewalRoutine_wellFormed.coherent,
    threadOwnership_never_faults renewalRoutine_wellFormed.coherent {}⟩

end BufferOwnership
