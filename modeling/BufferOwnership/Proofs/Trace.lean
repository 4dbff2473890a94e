import BufferOwnership.Proofs.Calls
import BufferOwnership.Proofs.ConstructLedger

/-!
# The place of a call in a run

A call and a transit are placed in the run that they are part of: what is known of the session
before them, and what may still change once they are over. A block that has been gone through may
lose retains and its last operation may get operands, but whatever is nested in it has its final
form. Every block that threading goes into has its transit, and every operation there its call.
-/

namespace BufferOwnership

open Routine

variable {f r r' : Routine} {s s' final : Session} {a b : BlockId} {o q t : OpId}
variable {front rest : List OpId} {d : Op} {settings : Settings} {fuel : Nat} {out : Outcome}
variable {k : Transit} {c : Call} {treat : OpPass} {regions : List RegionOutcome}
variable {site : ConstructSite} {owned : ValueSet}

/-! ## What comes before -/

/-- An operation stands before another one in a block. -/
def Routine.Precedes (f : Routine) (p o : OpId) : Prop :=
  ∃ b front rest, f.opsOf b = front ++ o :: rest ∧ p ∈ front

/-- The constructs before an operation, and before those around it, have been rebuilt. -/
def Cleared (f r : Routine) (o : OpId) : Prop :=
  ∀ a p, f.Inside a o → f.Precedes p a → f.VisitedConstruct p → r.isErased p = true

theorem Cleared.keep (h : Cleared f r o) (hkept : Kept r r') : Cleared f r' o :=
  fun a p hin hbefore hp => hkept.isErased (h a p hin hbefore hp)

theorem Cleared.root (hw : f.WellFormed) : Cleared f r f.root := by
  rintro a p hin ⟨b, front, rest, hlist, -⟩
  obtain rfl := hin.eq_root hw.root_unlinked
  have hparent := (hw.linked.op_listed f.root b).mp (by simp [hlist])
  rw [hw.root_unlinked] at hparent
  cases hparent

/-- An operation of a block is cleared once the constructs before it are rebuilt. -/
theorem Cleared.in_block {before after : List OpId} (h : Cleared f r o) (hl : f.Linked)
    (hholder : f.holder? b = some o) (hlist : f.opsOf b = before ++ q :: after)
    (hbefore : ∀ p ∈ before, f.VisitedConstruct p → r.isErased p = true) : Cleared f r q := by
  intro a p hin hprecedes hp
  have hparent := (hl.op_listed q b).mp (by simp [hlist])
  -- either it precedes the operation itself, or one around it, which is cleared already
  rcases hin.cases_tail with he | ⟨m, hin, hup⟩
  · subst he
    obtain ⟨b', pre, post, hlist', hmem⟩ := hprecedes
    obtain ⟨-, rfl, -⟩ := hl.place_unique hlist hlist'
    exact hbefore p hmem hp
  · obtain rfl : m = o := by
      rw [up?_of_parent? hparent, hholder] at hup
      exact (Option.some.inj hup).symm
    exact h a p hin hprecedes hp

/-! ## What may still change -/

/-- Blocks inside an operation keep their operations and arguments. -/
def Footprint.beyond (f : Routine) (o : OpId) : Footprint where
  ops _ := True
  blocks c := ¬ f.InsideBlock o c
  args c := ¬ f.InsideBlock o c

/-- A block belongs to a loop. -/
def Routine.InLoop (f : Routine) (b : BlockId) : Prop :=
  ∃ o d, f.holder? b = some o ∧ f.op? o = some d ∧ d.kind.construct? = some .loop

/-- Blocks under a block keep all, and the block too, but outside loops it may lose operations. -/
def Footprint.behind (f : Routine) (b : BlockId) : Footprint where
  ops _ := True
  blocks c := (c = b ∧ ¬ f.InLoop b) ∨ ¬ f.Under b c
  args c := ¬ f.Under b c

/-- A transit in the run that ends in the session `final`. -/
structure Transit.Placed (f : Routine) (settings : Settings) (final : Session) (fuel : Nat)
    (k : Transit) (o : OpId) : Prop where
  visited : f.Visited o
  enters : f.Enters o k.block
  owns : k.ownsInputs = f.isConstruct o
  goes : k.Goes settings (Pass.throughOpWithin settings fuel)
  threaded : Threaded f k.before
  untouched : BlockUntouched f k.before.routine k.block
  cleared : Cleared f k.before.routine o
  later : Run f (.behind f k.block) k.after final

/-- A call in the run that ends in the session `final`. -/
structure Call.Placed (f : Routine) (settings : Settings) (final : Session) (fuel : Nat)
    (c : Call) (b : BlockId) (front rest : List OpId) : Prop where
  atOp : AtOp f c.before c.op c.held.owned b front rest
  treats : Pass.throughOpWithin settings fuel c.op c.held.owned c.before = .ok (c.out, c.after)
  cleared : Cleared f c.before.routine c.op
  later : Run f (.beyond f c.op) c.after final

section

variable (h : c.Placed f settings final fuel b front rest) (hw : f.WellFormed)
include h hw

/-- What the treatment of an operation that is called for changes. -/
theorem Call.Placed.run : Run f (.ofOps f b [c.op]) c.before c.after := by
  have htreat : OpSpec f _ := throughOpWithin_spec hw settings fuel
  obtain ⟨mid, hrun, -⟩ := htreat h.atOp h.treats
  exact hrun

/-- What comes after the session in which an operation is called for. -/
theorem Call.Placed.ahead : Run f .all c.before final :=
  (h.run hw).anywhere.trans h.later.anywhere

theorem Call.Placed.cases :
    ∃ n d, fuel = n + 1 ∧ f.op? c.op = some d ∧
      OpCase f settings (Pass.throughOpWithin settings n) c.op d c.held.owned b front rest c.before
        c.out c.after := by
  obtain ⟨d, hd, -⟩ := exists_op?_of_parent? h.atOp.parent
  obtain ⟨n, rfl, hcase⟩ := throughOpWithin_cases hw hd h.atOp h.treats
  exact ⟨n, d, rfl, hd, hcase⟩

end

/-- A call among those of the first operations of a block is placed in the run that ends with it. -/
theorem OpCalls.placed {l : List OpId} {held : Holdings} (hw : f.WellFormed)
    (hc : OpCalls (Pass.throughOpWithin settings fuel) l held s c)
    (hat : AtOps f s b [] (l ++ rest) t held.owned) (hlist : f.opsOf b = l ++ rest ++ [t])
    (hholder : f.holder? b = some o) (hcleared : Cleared f s.routine o) :
    ∃ front rest, c.Placed f settings c.after fuel b front rest := by
  obtain ⟨htreats, before, after, rfl, hbefore, -⟩ := hc.split
  rw [List.append_assoc] at hat
  obtain ⟨front, hat', hrun, hdone⟩ :=
    hat.walk (throughOpWithin_spec hw settings fuel) hw hbefore
  have hplace : f.opsOf b = before ++ c.op :: (after ++ rest ++ [t]) := by simp [hlist]
  refine ⟨front, _, hat'.first, htreats, ?_, .refl⟩
  exact (hcleared.keep hrun.keeps).in_block hw.linked hholder hplace fun p hmem hp =>
    (hdone p hmem p .refl hp.2).1

/-- The end of a block that is gone through only inserts. -/
theorem BlockPass.run_closes {ownsInputs : Bool}
    (pass : BlockPass f settings treat b ownsInputs s out s') (hw : f.WellFormed) :
    Run f (.emission b) pass.walked s' := by
  obtain ⟨-, front, hins, -⟩ := Pass.closeBlock_inserts hw pass.threaded pass.list pass.reached
    pass.last.live pass.tokens pass.closes
  exact hins.run

/-- The calls of a transit are those of its stages. -/
theorem BlockPass.opCalls (pass : k.Passage f settings treat) (hc : k.Calls treat c) :
    OpCalls treat pass.body ⟨pass.owned, ∅⟩ pass.opened c := by
  obtain ⟨body, owned, opened, held, walked, ⟨hopens, hbody, -⟩, hc⟩ := hc
  cases hopens.symm.trans pass.opens
  cases hbody.symm.trans pass.bodyOps
  exact hc

/-- The calls of its stages are those of a transit. -/
theorem BlockPass.calls (pass : k.Passage f settings treat)
    (hc : OpCalls treat pass.body ⟨pass.owned, ∅⟩ pass.opened c) : k.Calls treat c :=
  ⟨_, _, _, _, _, ⟨pass.opens, pass.bodyOps, pass.walks⟩, hc⟩

namespace Transit.Placed

variable (h : k.Placed f settings final fuel o) (hw : f.WellFormed)
include h hw

theorem holder? : f.holder? k.block = some o := h.enters.holder? hw.linked

theorem pass : Nonempty (k.Passage f settings (Pass.throughOpWithin settings fuel)) :=
  throughBlock_stages (throughOpWithin_spec hw settings fuel) hw h.threaded h.visited h.enters
    (fun howns => h.enters.opened h.visited (h.owns ▸ howns)) h.untouched h.goes

theorem run : Run f (.ofBlock f k.block) k.before k.after :=
  (throughBlock_spec (throughOpWithin_spec hw settings fuel) hw h.threaded h.visited h.enters
    (fun howns => h.enters.opened h.visited (h.owns ▸ howns)) h.untouched h.goes).1

/-- Every operation of a block that is gone through is called for. -/
theorem exists_call {body : List OpId} (hlist : f.opsOf k.block = body ++ [t]) (hq : q ∈ body) :
    ∃ c, k.Calls (Pass.throughOpWithin settings fuel) c ∧ c.op = q := by
  obtain ⟨pass⟩ := h.pass hw
  obtain ⟨rfl, -⟩ := List.append_inj' (hlist.symm.trans pass.original) rfl
  rcases exists_opCall pass.walks hq with ⟨c, hc, hop⟩
  exact ⟨c, pass.calls hc, hop⟩

/-- A call of a transit is placed. -/
theorem call (hc : k.Calls (Pass.throughOpWithin settings fuel) c) :
    ∃ front rest, c.Placed f settings final fuel k.block front rest := by
  obtain ⟨pass⟩ := h.pass hw
  have htreat : OpSpec f _ := throughOpWithin_spec hw settings fuel
  rcases (pass.opCalls hc).spec htreat hw pass.atOps pass.walks with
    ⟨before, after, front, hbody, hcall, -⟩
  have hat := hcall.atOps.first
  have hreached := hcall.atOps.reached hw.linked
  obtain ⟨mid, hat₁, hrun₁, -⟩ := hcall.atOps.next htreat hw hcall.treats
  obtain ⟨hrun₂, -⟩ := throughOps_spec htreat hw hat₁ hcall.rest
  have hparent := hat.parent
  have hself := hat.visited.reached hw.linked
  refine ⟨front, _, hat, hcall.treats, ?_, ?_⟩
  · -- what stands before the operation in its block was called for earlier
    have hplace : f.opsOf k.block = before ++ c.op :: (after ++ [pass.t]) := by
      simp [pass.original, hbody]
    apply ((h.cleared.keep pass.run_opens.keeps).keep hcall.run.keeps).in_block hw.linked
      (h.holder? hw) hplace
    exact fun p hmem hp => (hcall.done p hmem p .refl hp.2).1
  · -- the operations after it, the end of the block and what is left of the run are all elsewhere
    have hnot : ¬ f.InsideBlock c.op k.block :=
      InsideBlock.not_parent hw.root_unlinked hself hparent
    obtain ⟨-, hdisjoint⟩ := Footprint.ofOps_disjoint hw hself hparent (l := after)
      (fun q hq => hreached q (by simp [hq])) (List.nodup_cons.mp hcall.atOps.nodup).1
    have hunder : ∀ {c'}, f.InsideBlock c.op c' → f.Under k.block c' := fun hin =>
      .inr ⟨c.op, hparent, hin⟩
    refine ((hrun₂.mono ?_).trans ((pass.run_closes hw).mono ?_)).trans (h.later.mono ?_)
    · exact ⟨fun _ _ => trivial, fun c' hc' hin => (hdisjoint c' hin).1 hc',
        fun c' hc' hin => (hdisjoint c' hin).2 hc'⟩
    · exact ⟨fun _ hp => hp.elim, fun c' hc' => hc' ▸ hnot, fun _ hc' => hc'.elim⟩
    · refine ⟨fun _ _ => trivial, fun c' hc' hin => ?_, fun c' hc' hin => hc' (hunder hin)⟩
      rcases hc' with ⟨rfl, -⟩ | hc'
      · exact hnot hin
      · exact hc' (hunder hin)

/-- What comes before a call of a transit. -/
theorem run_to (hc : k.Calls (Pass.throughOpWithin settings fuel) c) :
    Run f .all k.before c.before := by
  obtain ⟨pass⟩ := h.pass hw
  have hcalls := pass.opCalls hc
  rcases hcalls.spec (throughOpWithin_spec hw settings fuel) hw pass.atOps pass.walks with
    ⟨before, after, front, -, hcall, -⟩
  exact pass.run_opens.anywhere.trans hcall.run.anywhere

section Walk

variable {P : Holdings → Session → Prop}
variable (pass : k.Passage f settings (Pass.throughOpWithin settings fuel))
variable (hstep : ∀ c, k.Calls (Pass.throughOpWithin settings fuel) c → P c.held c.before →
  P c.heldAfter c.after)
include pass hstep

omit h hw in
/-- What the calls of a transit keep holds at each and at the closing, if at the opening. -/
theorem walk (hP : P ⟨pass.owned, ∅⟩ pass.opened) :
    P pass.held pass.walked ∧
      ∀ c, k.Calls (Pass.throughOpWithin settings fuel) c → P c.held c.before := by
  rcases throughOps_invariant (fun c hc => hstep c (pass.calls hc)) hP pass.walks with
    ⟨hend, hcalls⟩
  exact ⟨hend, fun c hc => hcalls c (pass.opCalls hc)⟩

omit h in
/-- If it holds after one of the calls, it holds where the block closes. -/
theorem walk_from (hc : k.Calls (Pass.throughOpWithin settings fuel) c)
    (hP : P c.heldAfter c.after) : P pass.held pass.walked := by
  have hcalls := pass.opCalls hc
  rcases hcalls.spec (throughOpWithin_spec hw settings fuel) hw pass.atOps pass.walks with
    ⟨before, after, front, -, hcall, hfollows⟩
  exact (throughOps_invariant (fun c' hc' => hstep c' (pass.calls (hfollows c' hc'))) hP
    hcall.rest).1

end Walk

end Transit.Placed

/-! ## Into an operation -/

section Inner

variable {owns : Bool} {bs : List BlockId} {outs : List Outcome} {mid : Session}

/-- What comes after a block has been gone through stays behind it. -/
theorem Footprint.ofBlocks_within_behind {o : OpId} (hw : f.WellFormed) (ho : f.Reached o)
    (hb : f.holder? b = some o) (hbs : ∀ c ∈ bs, f.holder? c = some o) (hout : b ∉ bs) :
    (Footprint.ofBlocks f bs).Within (.behind f b) := by
  obtain ⟨hblocks, hargs, -⟩ := Footprint.ofBlocks_avoids hw ho hb hbs hout
  exact ⟨fun _ _ => trivial, fun c hc => .inr fun hunder => hblocks c hunder hc,
    fun c hc hunder => hargs c hunder hc⟩

/-- Where an operation stands is not under one of its blocks. -/
theorem not_under_parent {c : BlockId} (hw : f.WellFormed) (ho : f.Reached o)
    (hparent : f.parent? o = some b) (hc : f.holder? c = some o) : ¬ f.Under c b := fun hunder =>
  InsideBlock.not_parent hw.root_unlinked ho hparent (insideBlock_iff.mpr ⟨c, hc, hunder⟩)

/-- What comes before and after a transit among those of an operation's blocks. -/
theorem BlockCalls.spec (hk : BlockCalls settings treat owns bs s k) (htreat : OpSpec f treat)
    (hw : f.WellFormed) (hat : AtBlocks f s o bs) (howns : owns = true → f.isConstruct o = true)
    (hpassed : BlocksPassed settings treat owns bs s outs mid) :
    k.ownsInputs = owns ∧ k.Goes settings treat ∧ k.out ∈ outs ∧ Kept s.routine k.before.routine ∧
      ∃ bs', AtBlocks f k.before o ([k.block] ++ bs') ∧ Run f (.ofBlocks f bs') k.after mid := by
  rcases hk.split hpassed with ⟨howned, hgoes, bs₁, bs₂, outs₁, outs₂, rfl, rfl, hbefore, hafter, -⟩
  -- three parts of the run: the blocks before, the block itself and the blocks after it
  have hrun₁ := hbefore.run htreat hw hat.first howns
  have hat₁ : AtBlocks f k.before o ([k.block] ++ bs₂) := hat.next hw hrun₁
  have henters := hat₁.enters k.block (by simp)
  obtain ⟨hrun, -⟩ := throughBlock_spec htreat hw hat₁.threaded hat₁.visited henters
    (fun h => henters.opened hat₁.visited (howns (howned ▸ h))) (hat₁.untouched _ (by simp)) hgoes
  have hat₂ := hat₁.next hw (hrun.mono (Footprint.ofBlock_within (by simp)))
  exact ⟨howned, hgoes, by simp, hrun₁.keeps, bs₂, hat₁, hafter.run htreat hw hat₂ howns⟩

/-- A transit of an operation's block is placed, if the rest of the run stays behind it. -/
theorem BlockCalls.placed (hw : f.WellFormed) (hat : AtBlocks f s o bs)
    (hcleared : Cleared f s.routine o) (howns : owns = f.isConstruct o)
    (hpassed : BlocksPassed settings (Pass.throughOpWithin settings fuel) owns bs s outs mid)
    (hk : BlockCalls settings (Pass.throughOpWithin settings fuel) owns bs s k)
    (hrest : k.out ∈ outs → Run f (.behind f k.block) mid final) :
    k.Placed f settings final fuel o := by
  obtain ⟨howned, hgoes, hout, hkept, bs', hat', hrun⟩ :=
    hk.spec (throughOpWithin_spec hw settings fuel) hw hat (fun h => howns ▸ h) hpassed
  have hholder := hat'.holder? hw.linked
  refine ⟨hat'.visited, hat'.enters _ (by simp), howned.trans howns, hgoes, hat'.threaded,
    hat'.untouched _ (by simp), hcleared.keep hkept, (hrun.mono ?_).trans (hrest hout)⟩
  exact Footprint.ofBlocks_within_behind hw (hat'.visited.reached hw.linked)
    (hholder _ (by simp)) (fun a ha => hholder a (by simp [ha])) (List.nodup_cons.mp hat'.nodup).1

end Inner

theorem ConstructPass.run
    (pass : ConstructPass f settings o d owned site regions s b front rest out s') :
    Run f .all s s' :=
  ((pass.run_inside.anywhere.trans pass.run_transfers.anywhere).trans
    pass.run_rebuilds.anywhere).trans (pass.run_aliases _)

/-- A construct that is finished leaves alone what is behind its blocks. -/
theorem ConstructPass.run_behind {kind : ConstructKind}
    (pass : ConstructPass f settings o d owned site regions s b front rest out s')
    (hw : f.WellFormed) (hvisited : f.Visited o) (hd : f.op? o = some d)
    (hkind : d.kind.construct? = some kind) (hparent : f.parent? o = some b)
    (hloop : kind = .loop → ∀ region ∈ regions, region.outcome.released = ∅)
    (ha : f.holder? a = some o) : Run f (.behind f a) s s' := by
  have hreached := hvisited.reached hw.linked
  have hnot := not_under_parent hw hreached hparent ha
  have hdrops : Run f (.behind f a) pass.sent pass.inside := by
    by_cases hk : kind = .loop
    · -- in a loop there is nothing to be dropped
      obtain ⟨hagreed, -⟩ := reconcile_of_empty (hloop hk) pass.reconciles
      have hdrops := pass.drops
      rw [hagreed] at hdrops
      obtain ⟨-, hsame⟩ := Pass.pure_eq_ok.mp hdrops
      rw [hsame]
      exact .refl
    · refine pass.run_drops.mono ⟨fun _ hp => hp.elim, fun c hc => ?_, fun _ hc => hc.elim⟩
      by_cases hca : c = a
      · refine .inl ⟨hca, ?_⟩
        rintro ⟨o', d', ho', hd', hkind'⟩
        obtain rfl := Option.mem_unique ha ho'
        obtain rfl := Option.mem_unique hd hd'
        exact hk (Option.mem_unique hkind hkind')
      · refine .inr fun hunder => ?_
        exact hunder.disjoint hw.root_unlinked hreached ha hc (Ne.symm hca) (.inl rfl)
  refine ((((pass.forgets.run.trans (pass.run_sends.mono ?_)).trans hdrops).trans
    (pass.run_transfers.mono ?_)).trans (pass.run_rebuilds.mono ?_)).trans (pass.run_aliases _)
  · exact ⟨fun _ _ => trivial, fun _ hc => hc.elim, fun _ hc => hc.elim⟩
  · exact ⟨fun _ hp => hp.elim, fun c hc => .inr (hc ▸ hnot), fun _ hc => hc.elim⟩
  · exact ⟨fun _ _ => trivial, fun c hc => .inr (hc ▸ hnot), fun _ hc => hc.elim⟩

/-- What comes after an operation leaves alone what is behind its blocks. -/
theorem Footprint.beyond_within_behind (hb : f.holder? b = some o) :
    (Footprint.beyond f o).Within (.behind f b) := by
  have hinside : ∀ {c}, f.Under b c → f.InsideBlock o c := fun hunder =>
    insideBlock_iff.mpr ⟨b, hb, hunder⟩
  exact ⟨fun _ _ => trivial, fun c hc => .inr fun hunder => hc (hinside hunder),
    fun c hc hunder => hc (hinside hunder)⟩

section Deeper

variable (h : c.Placed f settings final (fuel + 1) b front rest)
variable (hw : f.WellFormed)
variable (hd : f.op? c.op = some d)
include h hw hd

/-- How the blocks of an operation that is called for are gone through, if one is entered. -/
theorem Call.Placed.passed (ha : f.Enters c.op a) : a ∈ d.regions.flatMap f.blocksOf ∧
    ∃ outs mid, AtBlocks f c.before c.op (d.regions.flatMap f.blocksOf) ∧
      BlocksPassed settings (Pass.throughOpWithin settings fuel) (f.isConstruct c.op)
        (d.regions.flatMap f.blocksOf) c.before outs mid ∧
      ∀ a', f.holder? a' = some c.op → Run f (.behind f a') mid final := by
  have hcase := throughOp_cases (throughOpWithin_spec hw settings fuel) hw hd h.atOp h.treats
  refine ⟨ha.mem_blocks hd, ?_⟩
  have hlater : ∀ a', f.holder? a' = some c.op → Run f (.behind f a') c.after final :=
    fun a' ha' => h.later.mono (Footprint.beyond_within_behind ha')
  -- an operation with a block to enter is unknown or a construct
  cases hcase with
  | effects next post hclass => exact absurd hclass ((ha.classify hd).2 _ _)
  | plain pairs hclass => exact absurd hclass (ha.classify hd).1
  | unknown outs hclass _ hat hpassed _ =>
    exact ⟨outs, c.after, hat, isConstruct_of_unknown hd hclass ▸ hpassed, hlater⟩
  | construct kind site outs regions mid hkind hat hpassed _ hfrom _ hloop hpass =>
    obtain ⟨pass⟩ := hpass
    have hcons : f.isConstruct c.op = true := by simp [isConstruct_of hd, hkind]
    refine ⟨outs, mid, hat, hcons ▸ hpassed, fun a' ha' => ?_⟩
    refine (pass.run_behind hw h.atOp.visited hd hkind h.atOp.parent (fun hk region hmem => ?_)
      ha').trans (hlater a' ha')
    rcases hfrom region hmem with hnone | hout
    · rw [hnone]
      rfl
    · exact hloop hk _ hout

section

variable (henters : f.Enters c.op k.block)
variable (hk : BlockCalls settings (Pass.throughOpWithin settings fuel) (f.isConstruct c.op)
  (d.regions.flatMap f.blocksOf) c.before k)
include henters hk

/-- A transit of an operation that is called for is placed. -/
theorem Call.Placed.into : k.Placed f settings final fuel c.op := by
  obtain ⟨-, outs, mid, hat, hpassed, hrest⟩ := h.passed hw hd henters
  exact hk.placed hw hat h.cleared rfl hpassed fun _ => hrest k.block (henters.holder? hw.linked)

/-- What comes before a transit of an operation that is called for. -/
theorem Call.Placed.run_to : Run f .all c.before k.before := by
  obtain ⟨-, outs, mid, hat, hpassed, -⟩ := h.passed hw hd henters
  rcases hk.split hpassed with ⟨-, -, bs₁, bs₂, outs₁, outs₂, hbs, -, hbefore, -⟩
  rw [hbs] at hat
  exact (hbefore.run (throughOpWithin_spec hw settings fuel) hw hat.first id).anywhere

end

end Deeper

/-! ## The whole run -/

section Root

variable (hw : f.WellFormed) (hroot : f.threadFromRoot settings = .ok (out, final))
include hw hroot

/-- The transit through the body of the routine gives the answer. -/
theorem Transit.Goes.ends (hgoes : k.Goes settings (Pass.throughOpWithin settings f.ops.size))
    (hbefore : k.before = .start f) (howns : k.ownsInputs = false)
    (henters : f.Enters f.root k.block) :
    k.after = final ∧ k.out.released = ∅ ∧ out.acquired = k.out.acquired := by
  obtain ⟨b, outcome, henters', hgoes', hnone, rfl⟩ := threadFromRoot_block hw hroot
  obtain rfl := hw.root_block_unique henters henters'
  obtain ⟨block, owns, before, out', after⟩ := k
  obtain rfl : before = .start f := hbefore
  obtain rfl : owns = false := howns
  cases hgoes.symm.trans hgoes'
  exact ⟨rfl, hnone, rfl⟩

/-- Every transit of a run is placed. -/
theorem Transits.placed (hk : Transits f settings fuel k) :
    ∃ o, k.Placed f settings final fuel o := by
  induction hk with
  | @body k hbefore howns henters hgoes =>
    -- nothing comes after the body, so what is left of the run is empty
    obtain ⟨hend, -⟩ := hgoes.ends hw hroot hbefore howns henters
    have huntouched := BlockUntouched.start hw henters
    exact ⟨f.root, .refl, henters, howns.trans hw.isConstruct_root.symm, hgoes,
      hbefore ▸ .start hw, hbefore ▸ huntouched, hbefore ▸ .root hw, hend ▸ .refl⟩
  | @inner fuel K k c d _ hc hd henters hk ih =>
    obtain ⟨o, hK⟩ := ih
    rcases hK.call hw hc with ⟨front, rest, hplaced⟩
    exact ⟨c.op, hplaced.into hw hd henters hk⟩

/-- Every block that threading goes into is gone through. -/
theorem exists_transit (hvisited : f.Visited o) (henters : f.Enters o b) :
    ∃ fuel k, Transits f settings fuel k ∧ k.block = b := by
  induction hvisited generalizing b with
  | refl =>
    obtain ⟨b', outcome, henters', hgoes, -⟩ := threadFromRoot_block hw hroot
    obtain rfl := hw.root_block_unique henters henters'
    exact ⟨_, ⟨b, false, .start f, outcome, final⟩, .body rfl rfl henters hgoes, rfl⟩
  | @tail m o hm hleads ih =>
    -- the block around has its transit, which calls for the operation, and the call goes into it
    obtain ⟨b', body, t, hb', hlist, ho⟩ := hleads
    rcases ih hb' with ⟨n, K, hK, rfl⟩
    rcases hK.placed hw hroot with ⟨m', hplaced⟩
    rcases hplaced.exists_call hw hlist ho with ⟨c, hc, rfl⟩
    rcases hplaced.call hw hc with ⟨front, rest, hcall⟩
    obtain ⟨fuel, d, rfl, hd, -⟩ := hcall.cases hw
    obtain ⟨hmem, outs, mid, hat, hpassed, -⟩ := hcall.passed hw hd henters
    rcases hpassed.exists_transit hmem with ⟨k, hk, rfl⟩
    exact ⟨fuel, k, .inner hK hc hd henters hk, rfl⟩

/-- Everything that is visited but the root is called for. -/
theorem exists_placed_call (hvisited : f.Visited o) (hne : o ≠ f.root) :
    ∃ fuel k c front rest, Transits f settings fuel k ∧
      k.Calls (Pass.throughOpWithin settings fuel) c ∧ c.op = o ∧
      c.Placed f settings final fuel k.block front rest := by
  rcases hvisited.cases_tail with rfl | ⟨m, hm, b, body, t, henters, hlist, ho⟩
  · exact absurd rfl hne
  · obtain ⟨fuel, k, hk, rfl⟩ := exists_transit hw hroot hm henters
    obtain ⟨m', hplaced⟩ := hk.placed hw hroot
    obtain ⟨c, hc, hop⟩ := hplaced.exists_call hw hlist ho
    obtain ⟨front, rest, hcall⟩ := hplaced.call hw hc
    exact ⟨fuel, k, c, front, rest, hk, hc, hop, hcall⟩

end Root

end BufferOwnership
