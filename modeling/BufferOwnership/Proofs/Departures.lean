import BufferOwnership.Proofs.Captures
import BufferOwnership.Proofs.Closure

/-!
# How a block of a construct is left

When all blocks of a construct have been gone through, the branches are brought to agree, which may
fill some slots again, and the last operation of each block gets what is in the slots then.
`Departs` puts this together for one block: the transit through it, what is captured for it, and
what it sends in the end.
-/

namespace BufferOwnership

open Routine

variable {f : Routine} {F : Footprint} {s s' mid final : Session} {a b : BlockId} {o t : OpId}
variable {front rest body : List OpId} {i j v : ValueId} {d : Op} {settings : Settings}
variable {fuel n : Nat} {out : Outcome} {k : Transit} {e : Call} {regions : List RegionOutcome}
variable {region region' : RegionOutcome} {treat : OpPass} {gs : List RegionId}
variable {site : ConstructSite}

/-! ## Regions and transits -/

/-- The outcome of a region is that of a transit, unless the region has no block. -/
theorem RegionsPassed.exists_transit (h : RegionsPassed f settings treat gs s regions s')
    (hregion : region ∈ regions) :
    (f.blocksOf region.region = [] ∧ region.outcome = .none) ∨
      ∃ k, BlockCalls settings treat true (gs.flatMap f.blocksOf) s k ∧
        f.blocksOf region.region = [k.block] ∧ k.out = region.outcome := by
  induction h with
  | nil => cases hregion
  | empty hnone _ ih =>
    rw [List.flatMap_cons, hnone, List.nil_append]
    rcases List.mem_cons.mp hregion with rfl | hregion
    · exact .inl ⟨hnone, rfl⟩
    · exact ih hregion
  | block hblock hgoes _ ih =>
    rw [List.flatMap_cons, hblock]
    rcases List.mem_cons.mp hregion with rfl | hregion
    · exact .inr ⟨_, .first hgoes, hblock, rfl⟩
    · refine (ih hregion).imp_right ?_
      rintro ⟨k, hk, hkblock, hout⟩
      exact ⟨k, .later hgoes hk, hkblock, hout⟩

theorem RegionsPassed.single (h : RegionsPassed f settings treat gs s regions s') :
    ∀ k ∈ gs, (f.blocksOf k).length ≤ 1 := by
  intro k hk
  rw [← h.sited.regions] at hk
  obtain ⟨region, hregion, rfl⟩ := List.mem_map.mp hk
  rcases h.sited.args region hregion with ⟨hnone, -⟩ | ⟨b, hblock, -⟩
  · simp [hnone]
  · simp [hblock]

/-- The transit through the block of a region, and what the blocks after it leave alone. -/
theorem RegionsPassed.transit (hw : f.WellFormed) (hat : AtBlocks f s o (gs.flatMap f.blocksOf))
    (hcleared : Cleared f s.routine o) (hcons : f.isConstruct o = true)
    (h : RegionsPassed f settings (Pass.throughOpWithin settings n) gs s regions mid)
    (hregion : region ∈ regions) :
    (f.blocksOf region.region = [] ∧ region.outcome = .none) ∨
      ∃ (k : Transit) (F : Footprint), BlockCalls settings (Pass.throughOpWithin settings n) true
          (gs.flatMap f.blocksOf) s k ∧
        (∀ final, Run f (.behind f k.block) mid final → k.Placed f settings final n o) ∧
        f.blocksOf region.region = [k.block] ∧ k.out = region.outcome ∧ Run f F k.after mid ∧
        F.Avoids f k.block := by
  obtain ⟨outs, hpassed, -⟩ := h.blocks
  refine (h.exists_transit hregion).imp_right ?_
  rintro ⟨k, hk, hblock, hout⟩
  obtain ⟨-, -, -, -, bs, hat', hrun⟩ :=
    hk.spec (throughOpWithin_spec hw settings n) hw hat (fun _ => hcons) hpassed
  exact ⟨k, _, hk, fun _ hlater => hk.placed hw hat hcleared hcons.symm hpassed fun _ => hlater,
    hblock, hout, hrun, (hat'.avoids hw).2 k.block (by simp)⟩

section Call

variable (h : e.Placed f settings final (n + 1) b front rest) (hw : f.WellFormed)
variable (hd : f.op? e.op = some d) (hcons : d.kind.construct?.isSome = true)
variable (hregions : RegionsPassed f settings (Pass.throughOpWithin settings n) d.regions e.before
  regions mid)
include h hw hd hcons hregions

theorem Call.Placed.atBlocks : AtBlocks f e.before e.op (d.regions.flatMap f.blocksOf) :=
  h.atOp.atBlocks hw hd (enters_of_singleBlocks hd hcons hregions.single)

/-- A session in which all blocks of a construct have been gone through. -/
theorem Call.Placed.threaded_regions : Threaded f mid := by
  obtain ⟨outs, hpassed, -⟩ := hregions.blocks
  apply h.atOp.threaded.run hw (hpassed.run (throughOpWithin_spec hw settings n) hw
    (h.atBlocks hw hd hcons hregions) fun _ => ?_)
  simp [isConstruct_of hd, hcons]

/-- The transit through the block of a region of a construct that is called for. -/
theorem Call.Placed.transit (hregion : region ∈ regions) :
    (f.blocksOf region.region = [] ∧ region.outcome = .none) ∨
      ∃ (k : Transit) (F : Footprint), BlockCalls settings (Pass.throughOpWithin settings n) true
          (d.regions.flatMap f.blocksOf) e.before k ∧ k.Placed f settings mid n e.op ∧
        k.Placed f settings final n e.op ∧ f.blocksOf region.region = [k.block] ∧
        k.out = region.outcome ∧ Run f F k.after mid ∧ F.Avoids f k.block ∧ Run f .all mid final ∧
        ∀ v ∈ k.out.released, f.isConditional e.op = true := by
  have hconstruct : f.isConstruct e.op = true := by simp [isConstruct_of hd, hcons]
  obtain ⟨outs, hpassed, -⟩ := hregions.blocks
  refine (hregions.transit hw (h.atBlocks hw hd hcons hregions) h.cleared hconstruct
    hregion).imp_right ?_
  rintro ⟨k, F, hk, hplaced, hblock, hout, hrun, havoids⟩
  have henters := (hplaced mid .refl).enters
  obtain ⟨-, outs', mid', -, hpassed', hrest⟩ := h.passed hw hd henters
  rw [hconstruct] at hpassed'
  obtain ⟨rfl, rfl⟩ := hpassed.unique hpassed'
  have hlater := hrest _ (henters.holder? hw.linked)
  refine ⟨k, F, hk, hplaced mid .refl, hplaced final hlater, hblock, hout, hrun, havoids,
    hlater.anywhere, fun v hv => ?_⟩
  rw [← hconstruct] at hk
  exact (h.passes hw hd hk henters hv).1

end Call

/-! ## A block that has been gone through -/

/-- The end of a block after the pass: the same last operation, with its operands at the closing. -/
structure Closed (f : Routine) (s : Session) (b : BlockId) (front : List OpId) (t : OpId)
    (acquired : List ValueId) : Prop where
  list : s.routine.opsOf b = front ++ [t]
  reached : f.Reached t
  terminator : s.routine.isTerminator t = true
  last : Intact f s.routine t
  tokens : ∀ i ∈ acquired, Token f s.routine b front i

theorem Closed.sentByBlock (h : Closed f s b front t acquired) {vs : List ValueId}
    (hsent : s.routine.sentByBlock b = .ok vs) : vs = s.routine.operandsOf t :=
  sentByBlock_eq_ok h.list h.terminator hsent

theorem Closed.declares (h : Closed f s b front t acquired) (hi : i ∈ acquired) :
    s.routine.Declares b i := by
  rcases (h.tokens i hi).here with harg | ⟨p, hp, hres⟩
  · exact .inl harg
  · exact .inr ⟨p, by simp [h.list, hp], hres⟩

/-- What ends a block is not rebuilt. -/
theorem BlockPass.not_construct {ownsInputs : Bool}
    (pass : BlockPass f settings treat b ownsInputs s out s') : ¬ f.VisitedConstruct pass.t := by
  intro hvisited
  have hterm := pass.terminator
  rw [isTerminator_of_isConstruct hvisited.2] at hterm
  cases hterm

section Transit

variable (h : k.Placed f settings final fuel o) (hw : f.WellFormed)
variable (pass : k.Passage f settings (Pass.throughOpWithin settings fuel))
include h hw

theorem Transit.Placed.cleared_last : Cleared f pass.walked.routine pass.t := by
  have hkept := pass.run_opens.keeps.trans pass.run_walks.keeps
  apply (h.cleared.keep hkept).in_block hw.linked (h.holder? hw) pass.original
  exact fun p hp hvisited => (pass.done p hp p .refl hvisited.2).1

/-- What the last operation of a block sends when the block closes, it sends to the end. -/
theorem Transit.Placed.operands (hrun : Run f F pass.walked s) :
    ∃ extra, s.routine.operandsOf pass.t = pass.walked.routine.operandsOf pass.t ++ extra := by
  obtain ⟨δ, hδ⟩ := pass.threaded.embedded
  have hsettled := (h.cleared_last hw pass).operands_settled hδ pass.threaded hw pass.reached
  rw [hδ.op_eq_self pass.last.live] at hsettled
  obtain ⟨extra, hextra, -⟩ := hrun.operands_last pass.threaded hw
    (pass.threaded.op? (hw.op?_of_reached pass.reached)) pass.not_construct hsettled
  exact ⟨extra, hextra⟩

/-- The block as it is left, until something comes to it. -/
theorem Transit.Placed.closed (hrun : Run f F k.after s) (havoids : F.Avoids f k.block) :
    (∃ front, Closed f s k.block front pass.t k.out.acquired) ∧
      s.routine.operandsOf pass.t = pass.walked.routine.operandsOf pass.t := by
  obtain ⟨hrun', body, t, front, hwalked, -, htokens⟩ :=
    throughBlock_spec (throughOpWithin_spec hw settings fuel) hw h.threaded h.visited h.enters
      (fun howns => h.enters.opened h.visited (h.owns ▸ howns)) h.untouched h.goes
  have ht := h.threaded.run hw hrun'
  have hwalked := hwalked.run hrun ht hw.linked havoids
  obtain ⟨-, hlast⟩ := List.append_inj' (hwalked.original.symm.trans pass.original) rfl
  obtain rfl : t = pass.t := List.singleton_inj.mp hlast
  have hterm : s.routine.isTerminator pass.t = true := by
    rw [isTerminator, (ht.run hw hrun).kind? (hw.op?_of_reached pass.reached)]
    exact pass.terminator
  refine ⟨⟨front, hwalked.list, pass.reached, hterm, hwalked.last, fun i hi => ?_⟩, ?_⟩
  · exact (htokens i hi).keep hrun.keeps fun _ => id
  · obtain ⟨extra, hextra⟩ := h.operands hw pass
      ((pass.run_closes hw).anywhere.trans hrun.anywhere)
    -- it has as many operands as at first, both times
    have hlength := congrArg List.length hextra
    rw [List.length_append, hwalked.last.operands, pass.last.operands] at hlength
    rw [hextra, List.eq_nil_of_length_eq_zero (by omega : extra.length = 0), List.append_nil]

end Transit

/-! ## Regions that are brought to agree -/

/-- What bringing the regions of a construct to agree does to one of them. -/
structure Revised (s : Session) (regions : List RegionOutcome) (region region' : RegionOutcome)
    (values displaced : List ValueId) : Prop where
  member : region ∈ regions
  same : region'.region = region.region
  others : ∀ v ∈ values, ∃ other ∈ regions, other.region ≠ region.region ∧
    v ∈ other.outcome.released
  patched : ∀ sent, (∀ b bs vs, s.routine.blocksOf region.region = b :: bs →
    s.routine.sentByBlock b = .ok vs → vs = sent) →
    Patched s sent values region.outcome.acquired region'.outcome.acquired displaced

theorem Reconciles.revised {agreed : Reconciled} (h : Reconciles site s regions agreed s')
    (ht : Threaded f s) (hw : f.WellFormed) (hdistinct : (regions.map (·.region)).Nodup) :
    (∀ region' ∈ agreed.regions, ∃ region values displaced,
      Revised s regions region region' values displaced) ∧
    ∀ i ∈ agreed.displaced, ∃ region region' values displaced,
      Revised s regions region region' values displaced ∧ i ∈ displaced := by
  cases h with
  | same _ _ =>
    refine ⟨fun region hregion => ⟨region, [], [], hregion, rfl, by simp, ?_⟩, by simp⟩
    exact fun sent _ => .refl s sent _
  | @captures first second mid _ firstAcquired secondAcquired fromFirst fromSecond hsecond hfirst =>
    have hne : first.region ≠ second.region := by simpa using hdistinct
    have hforgets := captureAll_forgets hsecond
    have hrevised₁ : Revised s [first, second] first
        { first with outcome := { first.outcome with acquired := firstAcquired } }
        (second.outcome.released.diff first.outcome.released).toList fromFirst := by
      refine ⟨by simp, rfl, fun v hv => ?_, fun sent hsent => ?_⟩
      · exact ⟨second, by simp, hne.symm, (ValueSet.mem_diff.mp hv).1⟩
      · -- the first branch comes second, after some records are forgotten
        rw [← hforgets.routine] at hsent
        exact (captureAll_patched (hforgets.threaded ht hw) hw hsent hfirst).of_forgets hforgets
    have hrevised₂ : Revised s [first, second] second
        { second with outcome := { second.outcome with acquired := secondAcquired } }
        (first.outcome.released.diff second.outcome.released).toList fromSecond := by
      refine ⟨by simp, rfl, fun v hv => ?_, fun sent hsent => ?_⟩
      · exact ⟨first, by simp, hne, (ValueSet.mem_diff.mp hv).1⟩
      · exact captureAll_patched ht hw hsent hsecond
    refine ⟨fun region' hregion => ?_, fun i hi => ?_⟩
    · rcases List.mem_cons.mp hregion with rfl | hregion
      · exact ⟨first, _, _, hrevised₁⟩
      · obtain rfl := List.mem_singleton.mp hregion
        exact ⟨second, _, _, hrevised₂⟩
    · rcases List.mem_append.mp hi with hi | hi
      · exact ⟨second, _, _, _, hrevised₂, hi⟩
      · exact ⟨first, _, _, _, hrevised₁, hi⟩

theorem Revised.displaced_eq_nil {values displaced : List ValueId}
    (h : Revised s regions region region' values displaced)
    (hnone : s.routine.blocksOf region.region = []) : displaced = [] := by
  -- a value is captured where a block sends it
  have hpatched := h.patched [] (by simp [hnone])
  apply List.eq_nil_iff_forall_not_mem.mpr
  intro i hi
  obtain ⟨n, v, -, ⟨j, hfills⟩, -⟩ := hpatched.ousted i hi
  obtain ⟨pre, post, hsent, -⟩ := hfills.place
  simp at hsent

/-! ## From the session in which all blocks have been gone through to the end -/

/-- A value is freed in another block of the operation that holds a block. -/
def FreedBeside (f g : Routine) (o : OpId) (b : BlockId) (v : ValueId) : Prop :=
  ∃ c q a, f.Enters o c ∧ c ≠ b ∧ f.Visited q ∧ f.parent? q = some a ∧ f.Under c a ∧ g.Frees q v

/-- How a block of a construct is left in the run that ends in the session `final`. -/
structure Departs (f : Routine) (settings : Settings) (final : Session) (e : Call) (n : Nat)
    (k : Transit) (mid : Session) (t : OpId) (values acquired displaced : List ValueId) :
    Prop where
  called : ∃ d, f.op? e.op = some d ∧ BlockCalls settings (Pass.throughOpWithin settings n)
    (f.isConstruct e.op) (d.regions.flatMap f.blocksOf) e.before k
  placed : k.Placed f settings mid n e.op
  placed_last : k.Placed f settings final n e.op
  last : ∃ body, f.opsOf k.block = body ++ [t]
  live : final.routine.isErased t = false
  /-- The blocks after this one leave it alone. -/
  quiet : ∃ F : Footprint, Run f F k.after mid ∧ F.Avoids f k.block
  threaded : Threaded f mid
  later : Run f .all mid final
  captured : ∀ v ∈ values, f.isConditional e.op = true ∧ ∃ c, f.Enters e.op c ∧ c ≠ k.block ∧
    Source f mid.routine c v ∧ Source f final.routine c v
  patched : Patched mid (mid.routine.operandsOf t) values k.out.acquired acquired displaced

namespace Departs

variable {values acquired displaced : List ValueId} {m : Nat}
variable (h : Departs f settings final e n k mid t values acquired displaced) (hw : f.WellFormed)
include h hw

/-- The stages of the pass through the block, and the block as they leave it. -/
theorem exists_pass :
    ∃ pass : k.Passage f settings (Pass.throughOpWithin settings n), pass.t = t ∧
      mid.routine.operandsOf t = pass.walked.routine.operandsOf t ∧
      ∃ front, Closed f mid k.block front t k.out.acquired := by
  obtain ⟨pass⟩ := h.placed.pass hw
  obtain ⟨body, hlist⟩ := h.last
  obtain ⟨-, hlast⟩ := List.append_inj' (hlist.symm.trans pass.original) rfl
  obtain rfl : t = pass.t := List.singleton_inj.mp hlast
  obtain ⟨F, hrun, havoids⟩ := h.quiet
  obtain ⟨hclosed, hoperands⟩ := h.placed.closed hw pass hrun havoids
  exact ⟨pass, rfl, hoperands, hclosed⟩

section

variable (hv : v ∈ values) (hfills : Fills mid (mid.routine.operandsOf t) m v j)
include hv hfills

/-- What is captured for the block is not declared there. -/
theorem outside : ¬ mid.routine.Declares k.block j := by
  obtain ⟨pass, -, -, front, hclosed⟩ := h.exists_pass hw
  obtain ⟨pre, post, hsent, -⟩ := hfills.place
  have hmem : v ∈ mid.routine.operandsOf t := by simp [hsent]
  obtain ⟨-, c, hc, hne, hsource, -⟩ := h.captured v hv
  have ho := h.placed.visited.reached hw.linked
  have hholder := h.placed.holder? hw
  obtain ⟨-, hdeclares⟩ := hsource.outside h.threaded hw ho (hc.holder? hw.linked) hholder hne
    hclosed.list hclosed.reached hclosed.last.live hmem
  -- neither is the value that it is recorded for
  obtain ⟨δ, hδ⟩ := h.threaded.embedded
  have hholder' : mid.routine.holder? k.block = some (δ.op e.op) := by
    rw [hδ.change.holder?, hholder]
    rfl
  have hvis := h.threaded.visible_operand hw hclosed.list hclosed.reached hclosed.last.live hmem
  exact (h.threaded.recorded v j hfills.recorded).companion.outside h.threaded.wellFormed hholder'
    (hδ.reached hw ho) hclosed.list hvis hdeclares

/-- So it is nothing that the block has prepared itself. -/
theorem fresh : j ∉ k.out.acquired := by
  intro hj
  obtain ⟨pass, -, -, front, hclosed⟩ := h.exists_pass hw
  exact h.outside hw hv hfills (hclosed.declares hj)

/-- What is captured for the block was freed in another one. -/
theorem freed : f.isConditional e.op = true ∧ FreedBeside f final.routine e.op k.block v := by
  have ht := h.threaded.run hw h.later
  obtain ⟨pass, rfl, hoperands, -⟩ := h.exists_pass hw
  obtain ⟨front, hlist⟩ := ht.exists_front pass.original pass.terminator
  obtain ⟨hconditional, c, hc, hne, -, hsource⟩ := h.captured v hv
  have hmem : v ∈ final.routine.operandsOf pass.t := by
    obtain ⟨pre, post, hsent, -⟩ := hfills.place
    obtain ⟨extra, hextra⟩ := h.placed_last.operands hw pass
      ((pass.run_closes hw).anywhere.trans h.placed_last.later.anywhere)
    simp [hextra, ← hoperands, hsent]
  obtain ⟨⟨q, a, hq, hparent, hunder, hfrees⟩, -⟩ :=
    hsource.outside ht hw (h.placed.visited.reached hw.linked) (hc.holder? hw.linked)
      (h.placed.holder? hw) hne hlist pass.reached h.live hmem
  exact ⟨hconditional, c, q, a, hc, hne, hq, hparent, hunder, hfrees⟩

end

end Departs

section Departs

variable (hw : f.WellFormed)
include hw

/-- What the regions of a construct release that one of them captures comes from other blocks. -/
theorem Call.Placed.captured (h : e.Placed f settings final (n + 1) b front rest)
    (hd : f.op? e.op = some d) (hcons : d.kind.construct?.isSome = true)
    (hregions : RegionsPassed f settings (Pass.throughOpWithin settings n) d.regions e.before
      regions mid) (hblock : f.blocksOf region.region = [a])
    (hother : ∃ other ∈ regions, other.region ≠ region.region ∧ v ∈ other.outcome.released) :
    f.isConditional e.op = true ∧ ∃ c, f.Enters e.op c ∧ c ≠ a ∧ Source f mid.routine c v ∧
      Source f final.routine c v := by
  obtain ⟨other, hmem, hne, hv⟩ := hother
  rcases h.transit hw hd hcons hregions hmem with
    ⟨-, hnone⟩ | ⟨k, -, -, hk, hk', hkblock, hout, -, -, -, hconditional⟩
  · rw [hnone] at hv
    exact absurd hv ValueSet.not_mem_empty
  · rw [← hout] at hv
    refine ⟨hconditional v hv, k.block, hk.enters, fun he => hne ?_, hk.source hw hv,
      hk'.source hw hv⟩
    -- a block belongs to one region
    have hhome := (hw.linked.block_listed a region.region).mp (by simp [hblock])
    have hhome' := (hw.linked.block_listed a other.region).mp (by simp [hkblock, he])
    exact Option.mem_unique hhome' hhome

/-- How the block of a region is left, if the region has one. -/
theorem Call.Placed.departs_revised {values displaced : List ValueId}
    (h : e.Placed f settings final (n + 1) b front rest) (hfinal : Done f final.routine f.root)
    (hd : f.op? e.op = some d) (hcons : d.kind.construct?.isSome = true)
    (hregions : RegionsPassed f settings (Pass.throughOpWithin settings n) d.regions e.before
      regions mid) (hrevised : Revised mid regions region region' values displaced) :
    f.blocksOf region.region = [] ∨ ∃ k t, f.blocksOf region.region = [k.block] ∧
      Departs f settings final e n k mid t values region'.outcome.acquired displaced := by
  have ht := h.threaded_regions hw hd hcons hregions
  rcases h.transit hw hd hcons hregions hrevised.member with
    ⟨hnone, -⟩ | ⟨k, F, hcalls, hk, hk', hblock, hout, hrun, havoids, hlater, -⟩
  · exact .inl hnone
  · obtain ⟨pass⟩ := hk.pass hw
    obtain ⟨⟨front', hclosed⟩, -⟩ := hk.closed hw pass hrun havoids
    have hconstruct : f.isConstruct e.op = true := by simp [isConstruct_of hd, hcons]
    refine .inr ⟨k, pass.t, hblock, ⟨d, hd, hconstruct ▸ hcalls⟩, hk, hk', ⟨_, pass.original⟩, ?_,
      ⟨F, hrun, havoids⟩, ht, hlater,
      fun v hv => h.captured hw hd hcons hregions hblock (hrevised.others v hv), ?_⟩
    · exact (((hfinal.of_root hk.visited e.op .refl hconstruct).2 k.block hk.enters).operands
        _ _ pass.original).1
    · rw [show k.out.acquired = region.outcome.acquired by rw [hout]]
      apply hrevised.patched
      intro a bs vs hbs hvs
      rw [ht.blocksOf, hblock] at hbs
      cases hbs
      exact hclosed.sentByBlock hvs

omit hw in
/-- What the last operation of a construct's block gets. -/
theorem ConstructPass.sends_operands {owned : ValueSet}
    (pass : ConstructPass f settings o d owned site regions s b front rest out s')
    (hl : s.routine.Linked) (hdistinct : (regions.map (·.region)).Nodup)
    (hsend : ∀ region ∈ pass.agreed.regions, Sendable s.routine region)
    (hregion : region ∈ pass.agreed.regions) (hblock : s.routine.blocksOf region.region = [a])
    (hlist : s.routine.opsOf a = body ++ [t]) :
    pass.sent.routine.operandsOf t = s.routine.operandsOf t ++ region.outcome.acquired := by
  rw [← pass.forgets.routine] at hl hsend hblock hlist ⊢
  exact sendAll_operands hl hsend (pass.agrees.regions ▸ hdistinct) pass.sends hregion hblock hlist

/-- Once the last operation of a construct's block has got what it sends, it gets no more. -/
theorem Transit.Placed.operands_last {final : Session} (h : k.Placed f settings mid fuel o)
    (hcons : f.isConstruct o = true)
    (pass : k.Passage f settings (Pass.throughOpWithin settings fuel))
    (hrun : Run f .all k.after s) (hlater : Run f .all s final)
    (hfinal : Done f final.routine f.root)
    (hlength : (s.routine.operandsOf pass.t).length =
      (f.operandsOf pass.t).length + f.bufferCount (f.operandsOf pass.t)) :
    final.routine.operandsOf pass.t = s.routine.operandsOf pass.t := by
  have hrun' : Run f .all pass.walked s := (pass.run_closes hw).anywhere.trans hrun
  have ht := pass.threaded.run hw hrun'
  obtain ⟨hend, hcount⟩ := ((hfinal.of_root h.visited o .refl hcons).2 k.block h.enters).operands
    _ _ pass.original
  have hlive : s.routine.isErased pass.t = false := by
    by_contra herased
    rw [hlater.keeps.isErased (by simpa using herased)] at hend
    cases hend
  obtain ⟨δ, hδ⟩ := ht.embedded
  have hsettled := ((h.cleared_last hw pass).keep hrun'.keeps).operands_settled hδ ht hw
    pass.reached
  rw [hδ.op_eq_self hlive] at hsettled
  obtain ⟨extra, hextra, -⟩ := hlater.operands_last ht hw
    (ht.op? (hw.op?_of_reached pass.reached)) pass.not_construct hsettled
  -- in the end it has no more operands than now
  have hsum := congrArg List.length hextra
  rw [List.length_append, hcount, hlength] at hsum
  rw [hextra, List.eq_nil_of_length_eq_zero (by omega : extra.length = 0), List.append_nil]

/-- How each block of a construct is left, and what its last operation sends. -/
theorem Call.Placed.departs (h : e.Placed f settings final (n + 1) b front rest)
    (hfinal : Done f final.routine f.root) (hconstruct : f.isConstruct e.op = true)
    (henters : f.Enters e.op a) (hlist : f.opsOf a = body ++ [t]) :
    ∃ k mid values acquired displaced, k.block = a ∧
      Departs f settings final e n k mid t values acquired displaced ∧
      final.routine.operandsOf t = mid.routine.operandsOf t ++ acquired := by
  obtain ⟨d, hd, -⟩ := exists_op?_of_parent? h.atOp.parent
  have hcase := throughOp_cases (throughOpWithin_spec hw settings n) hw hd h.atOp h.treats
  have hcons : d.kind.construct?.isSome = true := by
    rwa [isConstruct_of hd] at hconstruct
  cases hcase with
  | effects next post hclass => exact absurd hclass ((henters.classify hd).2 _ _)
  | plain pairs hclass => exact absurd hclass (henters.classify hd).1
  | unknown outs hclass =>
    rw [isConstruct_of_unknown hd hclass] at hconstruct
    cases hconstruct
  | construct kind site outs regions mid hkind hat _ _ _ _ _ hpass hregions =>
    obtain ⟨pass⟩ := hpass
    have ht := h.threaded_regions hw hd hcons hregions
    have hready := pass.agrees.ready
    have hnodup : (regions.map (·.region)).Nodup := by
      rw [hregions.sited.regions, ← regionsOf_of hd]
      exact hw.linked.regions_nodup e.op
    -- the region of the block, before and after the regions have come to agree
    obtain ⟨k₀, hk₀, hblock⟩ := exists_region_of_enters hd hcons henters
    rw [← hregions.sited.regions, ← pass.agrees.regions] at hk₀
    obtain ⟨region', hregion', rfl⟩ := List.mem_map.mp hk₀
    obtain ⟨region, values, displaced, hrevised⟩ :=
      ((reconcile_eq_ok pass.reconciles).revised ht hw hnodup).1 region' hregion'
    rw [hrevised.same] at hblock
    rcases h.departs_revised hw hfinal hd hcons hregions hrevised with
      hnone | ⟨k, t', hkblock, hdeparts⟩
    · rw [hnone] at hblock
      cases hblock
    obtain rfl := List.singleton_inj.mp (hkblock.symm.trans hblock)
    obtain ⟨bp, rfl, -, front', hclosed⟩ := hdeparts.exists_pass hw
    obtain ⟨-, hlast⟩ := List.append_inj' (hlist.symm.trans bp.original) rfl
    obtain rfl : t = bp.t := List.singleton_inj.mp hlast
    refine ⟨k, mid, values, region'.outcome.acquired, displaced, rfl, hdeparts, ?_⟩
    have hsends := pass.sends_operands ht.wellFormed.linked hnodup
      (fun r hr => (hready r hr).sendable hw ht) hregion'
      ((ht.blocksOf _).trans (hrevised.same ▸ hkblock)) hclosed.list
    have hcount : region'.outcome.acquired.length = f.bufferCount (f.operandsOf bp.t) := by
      rcases hready region' hregion' with ⟨hnone, -⟩ | ⟨b', body', t', front'', hp⟩
      · rw [hrevised.same, hkblock] at hnone
        cases hnone
      · obtain rfl : b' = k.block := by simpa [hrevised.same, hkblock] using hp.block.symm
        obtain ⟨-, hlast⟩ := List.append_inj' (hp.walked.original.symm.trans bp.original) rfl
        rw [hp.count, List.singleton_inj.mp hlast]
    obtain ⟨F, hrun, -⟩ := hdeparts.quiet
    rw [← hsends]
    apply hdeparts.placed.operands_last hw hconstruct bp
      ((hrun.anywhere.trans pass.forgets.run).trans pass.run_sends.anywhere) _ hfinal
    · rw [hsends, List.length_append, hclosed.last.operands, hcount]
    · exact (((pass.run_drops.anywhere.trans pass.run_transfers.anywhere).trans
        pass.run_rebuilds.anywhere).trans (pass.run_aliases _)).trans h.later.anywhere

end Departs

end BufferOwnership
