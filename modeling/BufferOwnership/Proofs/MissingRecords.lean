import BufferOwnership.Proofs.Arrivals
import BufferOwnership.Proofs.Records

/-!
# Where a record is missing

A conditional that captures a value needs the indicator recorded for it. On the way down to an
operation every value that gets an indicator and can be used there has its record, unless a
conditional captured it that the way has passed by (`Traced`). If no value is freed twice, two
conditionals that capture one value are nested. So the record is missing of a value that never gets
one, or that a conditional inside captured first. What the blocks around own is in the class of a
value that comes with an indicator (`Backed`).
-/

namespace BufferOwnership

open Routine

variable {f : Routine} {s s' mid opened walked : Session} {a b : BlockId} {o p q t : OpId}
variable {front rest pre post : List OpId} {v : ValueId} {d : Op} {name : String}
variable {settings : Settings} {n : Nat} {bs bs' : List BlockId} {outs : List Outcome}
variable {held : Holdings} {owned : ValueSet} {treat : OpPass} {owns : Bool} {site : ConstructSite}
variable {kind : ConstructKind} {regions : List RegionOutcome}

/-! ## What was captured beside the way -/

namespace Routine

/-- A conditional captures a value, and it is beside an operation: neither is inside the other. -/
def CapturedBeside (f : Routine) (p : OpId) (v : ValueId) : Prop :=
  ∃ o, f.Captures o v ∧ ¬ f.Inside o p ∧ ¬ f.Inside p o

/-- What is beside an operation is beside all that is inside. -/
theorem CapturedBeside.inward (h : f.CapturedBeside p v) (hin : f.Inside p q) :
    f.CapturedBeside q v := by
  obtain ⟨o, hcaptures, hout, hnot⟩ := h
  refine ⟨o, hcaptures, fun ho => ?_, fun ho => hnot (hin.trans ho)⟩
  rcases Inside.total ho hin with ho | ho
  · exact hout ho
  · exact hnot ho

/-- Operations with the same one around them are beside each other. -/
theorem CapturedIn.beside (h : f.CapturedIn p v) (hw : f.WellFormed) (ho : f.Reached o)
    (hp : f.up? p = some o) (hq : f.up? q = some o) (hne : p ≠ q) : f.CapturedBeside q v := by
  obtain ⟨x, hx, hcaptures⟩ := h
  have hdisjoint : ∀ {y}, f.Inside p y → ¬ f.Inside q y := fun hy hy' =>
    Inside.disjoint hw.root_unlinked (ho.step hp) (ho.step hq) (hp.trans hq.symm) hne hy hy'
  exact ⟨x, hcaptures, fun hin => hdisjoint (hx.trans hin) .refl, hdisjoint hx⟩

/-- What stands before an operation in its block has the same one around it. -/
theorem Linked.up?_before (hl : f.Linked) (hplace : f.opsOf a = pre ++ q :: post)
    (hholder : f.holder? a = some o) : ∀ p ∈ pre, f.up? p = some o ∧ p ≠ q := by
  intro p hp
  have hparent : f.parent? p = some a := (hl.op_listed p a).mp (by simp [hplace, hp])
  refine ⟨(up?_of_parent? hparent).trans hholder, ?_⟩
  rintro rfl
  exact (hl.listed_once hplace).1 hp

/-- An argument gets an indicator only if its block is opened. -/
theorem Indicated.block_opened (h : f.Indicated v) (hl : f.Linked) (harg : v ∈ f.argsOf b) :
    f.Opened b ∧ f.holdsBuffer v = true := by
  rcases h with ⟨c, halloc⟩ | ⟨c, hopened, harg', hbuffer⟩
  · obtain ⟨p, -, -, hres⟩ := halloc.result
    exact absurd harg (hl.not_arg_of_result hres)
  · obtain rfl := hl.arg_unique harg harg'
    exact ⟨hopened, hbuffer⟩

/-- A result gets an indicator only if it is allocated. -/
theorem Indicated.allocated (h : f.Indicated v) (hl : f.Linked) (hres : v ∈ f.resultsOf p) :
    ∃ d, f.op? p = some d ∧ v ∈ d.allocated := by
  rcases h with ⟨c, x, d, -, hd, -, halloc⟩ | ⟨c, -, harg, -⟩
  · obtain rfl := hl.result_unique hres (resultsOf_of hd ▸ Op.mem_results_of_mem_allocated halloc)
    exact ⟨d, hd, halloc⟩
  · exact absurd harg (hl.not_arg_of_result hres)

end Routine

/-- The treatment of operations beside another one loses only what is captured beside it. -/
theorem Retains.beside {l : List OpId} (h : Retains f l v s) (hw : f.WellFormed)
    (ho : f.Reached o) (hl : ∀ p ∈ l, f.up? p = some o ∧ p ≠ q) (hq : f.up? q = some o) :
    s.Knows v ∨ f.CapturedBeside q v := by
  refine h.imp_right fun ⟨p, hp, hcaptured⟩ => ?_
  exact hcaptured.beside hw ho (hl p hp).1 hq (hl p hp).2

/-! ## On the way down -/

/-- What gets an indicator and is visible at an operation is recorded, or was captured beside. -/
def Traced (f : Routine) (s : Session) (p : OpId) : Prop :=
  ∀ v, f.Indicated v → f.InScope p v → s.Knows v ∨ f.CapturedBeside p v

/-- Nothing can be used by the root. -/
theorem Traced.root (hw : f.WellFormed) : Traced f s f.root := by
  rintro v - ⟨b, front, rest, hlist, -⟩
  have hparent := (hw.linked.op_listed f.root b).mp (by simp [hlist])
  rw [hw.root_unlinked] at hparent
  cases hparent

theorem Traced.of_indicators (h : Traced f s p)
    (hsame : s'.aliases.indicators = s.aliases.indicators) : Traced f s' p := fun v hv hscope =>
  (h v hv hscope).imp_left fun hknows => hknows.of_indicators hsame

section Down

variable (hw : f.WellFormed)
include hw

/-- Other blocks of the operation around are gone through. -/
theorem AtBlocks.knows_beside (hat : AtBlocks f s o bs) (hcleared : Cleared f s.routine o)
    (hpassed : BlocksPassed settings (Pass.throughOpWithin settings n) (f.isConstruct o) bs s outs
      mid) (hq : f.parent? q = some a) (ha : f.holder? a = some o) (hout : a ∉ bs)
    (hv : f.Indicated v) (h : s.Knows v ∨ f.CapturedBeside q v) :
    mid.Knows v ∨ f.CapturedBeside q v := by
  rcases h with hknows | hbeside
  · refine (hat.retains hw (hv.known hw.linked) hcleared hpassed hknows).beside hw
      (hat.visited.reached hw.linked) (fun p hp => ⟨hat.up? hw.linked hp, ?_⟩)
      ((up?_of_parent? hq).trans ha)
    -- the operation is in none of these blocks
    rintro rfl
    obtain ⟨c, hc, hmem⟩ := mem_bodies.mp hp
    have hparent := (hw.linked.op_listed p c).mp (List.mem_of_mem_dropLast hmem)
    obtain rfl := Option.mem_unique hq hparent
    exact hout hc
  · exact .inr hbeside

/-- One step down: some blocks of an operation have been gone through, the next one is opened, and
its first operations have been treated. Then the one after them is traced. -/
theorem Traced.enter (h : Traced f s o) (hat : AtBlocks f s o (bs ++ a :: bs'))
    (hcleared : Cleared f s.routine o)
    (hpassed : BlocksPassed settings (Pass.throughOpWithin settings n) (f.isConstruct o) bs s outs
      mid)
    (hopens : Pass.openBlock a (f.isConstruct o) mid = .ok (owned, opened))
    (hstart : BlockStart f a mid opened owned (pre ++ rest) t)
    (hplace : f.opsOf a = pre ++ q :: post)
    (hwalks : Pass.throughOps (Pass.throughOpWithin settings n) pre ⟨owned, ∅⟩ opened =
      .ok (held, walked)) : Traced f walked q := by
  intro v hv hscope
  have hreached := hat.visited.reached hw.linked
  have hholder := hat.holder? hw.linked a (by simp)
  have hparent : f.parent? q = some a := (hw.linked.op_listed q a).mp (by simp [hplace])
  have hup := (up?_of_parent? hparent).trans hholder
  have hrun := hpassed.run (throughOpWithin_spec hw settings n) hw hat.first id
  have hat' := hat.next hw hrun
  -- what is known where the operations begin, or allocated by one of them
  have hwalk : (opened.Knows v ∨ ∃ p ∈ pre, ∃ d, f.op? p = some d ∧ v ∈ d.allocated) →
      walked.Knows v ∨ f.CapturedBeside q v := by
    intro hknows
    have hcleared' := (hcleared.keep hrun.keeps).keep hstart.run.keeps
    have hretains := hstart.atOps.retains hw (hv.known hw.linked) hstart.original hholder hcleared'
      hknows hwalks
    exact hretains.beside hw hreached (hw.linked.up?_before hplace hholder) hup
  obtain ⟨hkept, hargs⟩ := openBlock_knows (v := v) hopens
  cases hscope.visible hw.linked hplace with
  | argument harg =>
    -- the block is one of a construct, so it owns its arguments
    obtain ⟨⟨o', ⟨-, hcons⟩, henters⟩, hbuffer⟩ := hv.block_opened hw.linked harg
    obtain rfl := Option.mem_unique hholder (henters.holder? hw.linked)
    refine hwalk (.inl (hargs hcons ?_ ?_))
    · rwa [(hat'.untouched a (by simp)).args]
    · obtain ⟨δ, hδ⟩ := (hat.threaded.run hw hrun).embedded
      exact hδ.change.keeps.holdsBuffer hbuffer
  | earlier hp hres => exact hwalk (.inr ⟨_, hp, hv.allocated hw.linked hres⟩)
  | enclosing hholder' hlist hvisible =>
    -- the operation around can use the value too
    obtain rfl := Option.mem_unique hholder hholder'
    have hbefore := (h v hv ⟨_, _, _, hlist, hvisible⟩).imp_right fun hbeside =>
      hbeside.inward (.single hup)
    have hout : a ∉ bs := fun hmem => (List.nodup_append.mp hat.nodup).2.2 a hmem a (by simp) rfl
    rcases hat.first.knows_beside hw hcleared hpassed hparent hholder hout hv hbefore with
      hknows | hbeside
    · exact hwalk (.inl (hkept hknows))
    · exact .inr hbeside

end Down

/-! ## Where a record is found missing -/

/-- A record that is missing in a block is missing for one of its operations but the last. -/
theorem throughBlock_missing (h : Pass.throughBlock settings treat b owns s =
    .error (.rejected (.missingIndicator o name v))) :
    ∃ q held mid, BlockReaches treat b owns s q held mid ∧
      treat q held.owned mid = .error (.rejected (.missingIndicator o name v)) := by
  cases throughBlock_rejects h with
  | openEnded _ hopen =>
    -- a block without an end is rejected for that
    obtain ⟨_, _, -, hopen⟩ := (Pass.Sure.ask _).passes hopen
    obtain ⟨_, _, -, hopen⟩ := (Pass.Sure.ask _).passes hopen
    cases hopen
  | inOp hfound hopens hbody hpre hq =>
    exact ⟨_, _, _, ⟨_, _, _, _, _, hfound, hopens, hbody, hpre⟩, hq⟩

/-! ## Why a record is missing -/

/-- No value is freed by two operations. -/
def Routine.FreesOnce (f : Routine) : Prop :=
  ∀ p q v, f.Reached p → f.Reached q → f.Frees p v → f.Frees q v → p = q

/-- Operations are compared pair by pair. -/
theorem Routine.freesOnce_of_check (h : ∀ p ∈ f.opIds, ∀ q ∈ f.opIds, ∀ d ∈ f.op? p, ∀ e ∈ f.op? q,
    ∀ v ∈ d.freed, v ∈ e.freed → p = q) : f.FreesOnce := by
  rintro p q v - - ⟨d, hd, hv⟩ ⟨e, he, hv'⟩
  exact h p (mem_opIds (by simp [hd])) q (mem_opIds (by simp [he])) d hd e he v hv hv'

/-- What a conditional captures is freed inside it. -/
theorem Routine.Captures.exists_frees (h : f.Captures o v) (hl : f.Linked) :
    ∃ q, f.Inside o q ∧ f.Reached q ∧ f.Frees q v := by
  obtain ⟨-, -, b, body, t, -, -, -, c, q, a, henters, -, hq, hparent, hunder, hfrees⟩ := h
  refine ⟨q, ?_, hq.reached hl, hfrees⟩
  obtain ⟨m, hm, hholder⟩ := insideBlock_iff.mpr ⟨c, henters.holder? hl, hunder⟩
  exact hm.step ((up?_of_parent? hparent).trans hholder)

/-- Two conditionals that capture one value enclose what frees it, so one is inside the other. -/
theorem Routine.Captures.nested {o' : OpId} (h : f.Captures o v) (h' : f.Captures o' v)
    (hl : f.Linked) (hfree : f.FreesOnce) (hout : ¬ f.Inside o' o) : f.Inside o o' ∧ o' ≠ o := by
  obtain ⟨q, hq, hreached, hfrees⟩ := h.exists_frees hl
  obtain ⟨q', hq', hreached', hfrees'⟩ := h'.exists_frees hl
  obtain rfl := hfree q q' v hreached hreached' hfrees hfrees'
  refine ⟨(Inside.total hq hq').resolve_right hout, ?_⟩
  rintro rfl
  exact hout .refl

/-- A conditional captures a value, and the record of it is missing: another conditional inside has
captured it, or it never gets a record. -/
def Unrecorded (f : Routine) (o : OpId) (v : ValueId) : Prop :=
  ∃ u, f.Captures o u ∧
    ((u = v ∧ ∃ o', f.Inside o o' ∧ o' ≠ o ∧ f.Captures o' u) ∨
      (¬ f.Indicated u ∧ (u = v ∨ ∃ p, f.isConstruct p = true ∧ u ∈ f.resultsOf p)))

section Missing

variable (hw : f.WellFormed) (hfree : f.FreesOnce)
include hw

/-- The last operation of a block is still traced when all blocks have been gone through. -/
theorem Traced.last {body : List OpId} (h : Traced f s o) (hat : AtBlocks f s o bs)
    (hcleared : Cleared f s.routine o)
    (hpassed : BlocksPassed settings (Pass.throughOpWithin settings n) (f.isConstruct o) bs s outs
      mid) (hb : b ∈ bs) (hlist : f.opsOf b = body ++ [t]) : Traced f mid t := by
  obtain ⟨k, hk, rfl⟩ := hpassed.exists_transit hb
  have hplaced : k.Placed f settings mid n o :=
    hk.placed hw hat hcleared rfl hpassed fun _ => .refl
  obtain ⟨pass⟩ := hplaced.pass hw
  obtain ⟨rfl, ht⟩ := List.append_inj' (pass.original.symm.trans hlist) rfl
  obtain rfl : pass.t = t := by simpa using ht
  obtain ⟨-, -, bs₁, bs₂, outs₁, outs₂, rfl, -, hbefore, hafter, -⟩ := hk.split hpassed
  have hholder := hplaced.holder? hw
  have hparent : f.parent? pass.t = some k.block :=
    (hw.linked.op_listed pass.t k.block).mp (by simp [hlist])
  have hstart : BlockStart f k.block k.before pass.opened pass.owned (pass.body ++ []) pass.t := by
    rw [List.append_nil]
    exact openBlock_start hw hplaced.threaded hplaced.visited hplaced.enters
      (fun howns => hplaced.enters.opened hplaced.visited (hplaced.owns ▸ howns)) hplaced.untouched
      pass.found pass.opens pass.bodyOps
  have hopens : Pass.openBlock k.block (f.isConstruct o) k.before =
      .ok (pass.owned, pass.opened) := by
    rw [← hplaced.owns]
    exact pass.opens
  have hwalked : Traced f pass.walked pass.t :=
    h.enter hw hat hcleared hbefore hopens hstart hlist pass.walks
  have hclosed := hwalked.of_indicators (closeBlock_indicators pass.closes)
  -- the blocks after this one have nothing to do with it
  intro v hv hscope
  have hrun := (hbefore.run (throughOpWithin_spec hw settings n) hw hat.first id)
  have hat' : AtBlocks f k.before o ([k.block] ++ bs₂) := hat.next hw hrun
  have hrun' := (hplaced.run hw).mono (Footprint.ofBlock_within (List.mem_singleton_self _))
  refine (hat'.next hw hrun').knows_beside hw ?_ hafter hparent hholder ?_ hv (hclosed v hv hscope)
  · exact hplaced.cleared.keep hrun'.keeps
  · exact (List.nodup_cons.mp hat'.nodup).1

/-- If a record is missing in one of the blocks of an operation, then the run has come to one of the
operations there, and that is traced. -/
theorem Traced.descend {c : OpClass} (h : Traced f s p) (hcleared : Cleared f s.routine p)
    (hat : AtBlocks f s p bs)
    (hhalts : BlocksHalt settings (Pass.throughOpWithin settings n) (f.isConstruct p) p c bs s
      (.missingIndicator o name v))
    (harrives : ∀ {before after b outs mid q held walked}, bs = before ++ b :: after →
      BlocksPassed settings (Pass.throughOpWithin settings n) (f.isConstruct p) before s outs mid →
      (∀ out ∈ outs, c.admits out = true) → f.Enters p b →
      BlockReaches (Pass.throughOpWithin settings n) b (f.isConstruct p) mid q held walked →
      Arrives f settings n q held.owned walked) :
    ∃ q owned walked, Arrives f settings n q owned walked ∧ Cleared f walked.routine q ∧
      Traced f walked q ∧ Pass.throughOpWithin settings n q owned walked =
        .error (.rejected (.missingIndicator o name v)) := by
  cases hhalts with
  | @inBlock before after b outs mid hbs hpassed hadmits hblock =>
    -- opening and closing a block ask for no record, so it is missing inside
    obtain ⟨q, held, walked, hreaches, hq⟩ := throughBlock_missing hblock
    refine ⟨q, held.owned, walked,
      harrives hbs hpassed hadmits (hat.enters b (by simp [hbs])) hreaches, ?_, ?_, hq⟩
    all_goals
      obtain ⟨t, owned, opened, pre, post, hfound, hopens, hbody, hwalks⟩ := hreaches
      subst hbs
      have htreat : OpSpec f _ := throughOpWithin_spec hw settings n
      have hrun := hpassed.run htreat hw hat.first id
      have hat' := hat.next hw hrun
      have hstart := hat'.start hw id hfound hopens hbody
      have hplace : f.opsOf b = pre ++ q :: (post ++ [t]) := by simp [hstart.original]
    · obtain ⟨front, -, hrunq, hdone⟩ := hstart.atOps.walk htreat hw hwalks
      have hcleared' := ((hcleared.keep hrun.keeps).keep hstart.run.keeps).keep hrunq.keeps
      exact hcleared'.in_block hw.linked (hat'.holder? hw.linked b (by simp)) hplace
        fun x hx hcons => (hdone x hx x .refl hcons.2).1
    · exact h.enter hw hat hcleared hpassed hopens hstart hplace hwalks
  | afterBlock _ _ _ _ _ hreason => cases hreason

include hfree

/-- Where the regions are brought to agree, a record is missing for one of two reasons. -/
theorem Traced.unrecorded (h : Traced f s p) (hcleared : Cleared f s.routine p)
    (hat : AtBlocks f s p (d.regions.flatMap f.blocksOf)) (hd : f.op? p = some d)
    (hkind : d.kind.construct? = some kind) (hsite : site.op = p)
    (hregions : RegionsPassed f settings (Pass.throughOpWithin settings n) d.regions s regions mid)
    (hloop : kind = .loop → ∀ region ∈ regions, region.outcome.released = ∅)
    (hmissing : Pass.reconcile site regions mid =
      .error (.rejected (.missingIndicator o name v))) : Unrecorded f o v := by
  obtain ⟨rfl, hdivided, hunknown⟩ := reconcile_missing hmissing
  obtain rfl := hsite
  obtain ⟨δ, u, hδ, hname, hcaptures⟩ := hdivided.captures hw hd hkind hat hcleared hregions hloop
  refine ⟨u, hcaptures, ?_⟩
  by_cases hu : f.Indicated u
  · -- the value can be used by the operation that sends it, but its record is not there
    obtain rfl : u = v := (hu.value hδ hw.linked).symm.trans hname
    obtain ⟨-, -, b, body, t, henters, hlist, hsent, -⟩ := id hcaptures
    have hparent : f.parent? t = some b := (hw.linked.op_listed t b).mp (by simp [hlist])
    have hup := (up?_of_parent? hparent).trans (henters.holder? hw.linked)
    have hcons : f.isConstruct site.op = true := by simp [isConstruct_of hd, hkind]
    obtain ⟨outs, hpassed, -⟩ := hregions.blocks
    have htraced : Traced f mid t := h.last hw hat hcleared (hcons ▸ hpassed)
      (henters.mem_blocks hd) hlist
    have hscope := hw.in_scope t ((hat.visited.reached hw.linked).step hup) u hsent
    obtain ⟨o', hcaptures', hout, -⟩ := (htraced u hu hscope).resolve_left hunknown
    have hout : ¬ f.Inside o' site.op := fun hin => hout (hin.step hup)
    obtain ⟨hin, hne⟩ := hcaptures.nested hcaptures' hw.linked hfree hout
    exact .inl ⟨rfl, o', hin, hne, hcaptures'⟩
  · refine .inr ⟨hu, ?_⟩
    by_cases hsame : u = v
    · exact .inl hsame
    · exact .inr (hδ.change.exists_construct fun he => hsame (he.symm.trans hname))

/-- The way down to where a record is missing, from an operation that is traced. -/
theorem Arrives.missing (h : Arrives f settings n p owned s) (hcleared : Cleared f s.routine p)
    (htraced : Traced f s p)
    (hmissing : Pass.throughOpWithin settings n p owned s =
      .error (.rejected (.missingIndicator o name v))) :
    Unrecorded f o v ∧ ∃ fuel owned s, Arrives f settings fuel o owned s ∧
      Pass.throughOpWithin settings fuel o owned s =
        .error (.rejected (.missingIndicator o name v)) := by
  induction n generalizing s p owned with
  | zero => cases hmissing
  | succ n ih =>
    obtain ⟨b, front, rest, hat⟩ := h.atOp hw
    obtain ⟨d, hd, -⟩ := exists_op?_of_parent? hat.parent
    cases throughOp_rejects (throughOpWithin_spec hw settings n) hw hd hat hmissing with
    | atOnce _ hreason =>
      generalize d.classify = c at hreason
      cases hreason
    | inside hbars hblocks hhalts =>
      -- one level further down
      obtain ⟨q, owned', walked, hq, hclearedq, htracedq, hmissingq⟩ := htraced.descend hw hcleared
        hblocks hhalts fun hbs hpassed hadmits henters hreaches =>
          .inner h hd henters hbars hbs hpassed hadmits hreaches
      exact ih hq hclearedq htracedq hmissingq
    | reconciles kind site regions mid _ hblocks hkind hsite hregions hloop hreconcile =>
      obtain rfl : o = p := (reconcile_missing hreconcile).1.trans hsite
      exact ⟨htraced.unrecorded hw hfree hcleared hblocks hd hkind hsite hregions hloop hreconcile,
        n + 1, owned, s, h, hmissing⟩

end Missing

/-! ## Who owns a buffer -/

/-- A value comes with an indicator: it gets one as it is allocated or as an argument, or it is a
buffer among the results of a construct. -/
def Routine.Provided (f r : Routine) (u : ValueId) : Prop :=
  f.Indicated u ∨ ∃ x, r.isConstruct x = true ∧ u ∈ r.resultsOf x ∧ r.holdsBuffer u = true

/-- An indicator is in the class of a value that comes with one. -/
def Backed (f : Routine) (s : Session) (i : ValueId) : Prop :=
  ∃ u, f.Provided s.routine u ∧ s.aliases.same u i = true

theorem Backed.run {F : Footprint} {i : ValueId} (h : Backed f s i) (ht : Threaded f s)
    (hrun : Run f F s s') : Backed f s' i := by
  obtain ⟨u, hu, hsame⟩ := h
  refine ⟨u, hu.imp_right ?_, ht.same hrun hsame⟩
  rintro ⟨x, hcons, hres, hbuffer⟩
  obtain ⟨d, hd, -⟩ := exists_op?_of_mem_resultsOf hres
  refine ⟨x, ?_, hrun.keeps.mem_resultsOf hres, hrun.keeps.holdsBuffer hbuffer⟩
  rwa [isConstruct, hrun.keeps.kind?_eq (by simp [hd])]

/-- Of two lists of one length, what is in the second has a partner in the first. -/
theorem exists_mem_zip {l l' : List ValueId} {i : ValueId} (hlen : l'.length ≤ l.length)
    (hi : i ∈ l') : ∃ u, (u, i) ∈ l.zip l' := by
  rw [← List.map_snd_zip hlen] at hi
  obtain ⟨⟨u, j⟩, hmem, rfl⟩ := List.mem_map.mp hi
  exact ⟨u, hmem⟩

theorem openBlock_backed (hw : f.WellFormed) (hopened : owns = true → f.Opened b)
    (ht : Threaded f s) (hargs : s.routine.argsOf b = f.argsOf b)
    (h : Pass.openBlock b owns s = .ok (owned, s')) : ∀ i ∈ owned, Backed f s' i := by
  intro i hi
  obtain ⟨hrun, htokens, hjoins⟩ := openBlock_spec hw hopened ht hargs h
  cases owns with
  | false =>
    cases h
    cases hi
  | true =>
    obtain ⟨hlen, -, hjoins⟩ := hjoins rfl
    obtain ⟨extra, hextra⟩ := hrun.keeps.args b
    rw [hargs] at hextra
    rw [← hextra, List.length_append, Nat.add_left_cancel_iff, bufferCount,
      List.countP_eq_length_filter] at hlen
    -- tokens are new, so they are among the arguments that the block has got
    have hmem : i ∈ extra := by
      have harg : i ∈ s'.routine.argsOf b := (htokens i hi).here.resolve_right (by simp)
      rw [← hextra] at harg
      refine (List.mem_append.mp harg).resolve_left fun hold => ?_
      refine Nat.not_lt.mpr (htokens i hi).later ?_
      exact Visible.known hw.linked (.argument hold : f.Visible b [] i)
    obtain ⟨u, hu⟩ := exists_mem_zip hlen.le hmem
    have hpair : (u, i) ∈ f.accompanied s'.routine b := by
      rwa [accompanied, ← hextra, List.drop_left]
    obtain ⟨harg, hbuffer⟩ := List.mem_filter.mp (List.of_mem_zip hu).1
    exact ⟨u, .inl (.inr ⟨b, hopened rfl, harg, hbuffer⟩), hjoins.joined ht.classes _ hpair⟩

/-- Owning buffers joins each with its indicator. -/
theorem ownAll_joins {point : InsertPoint} {buffers indicators : List ValueId}
    (h : Pass.ownAll point buffers s = .ok (indicators, s')) :
    indicators.length = buffers.length ∧ s.aliases.Joins (buffers.zip indicators) s'.aliases := by
  induction buffers generalizing s indicators with
  | nil =>
    cases h
    exact ⟨rfl, .of_links rfl⟩
  | cons v buffers ih =>
    obtain ⟨i, others, mid, rfl, hown, hothers⟩ := Pass.ownAll_cons h
    obtain ⟨-, haliases, -⟩ := Pass.own_eq_ok hown
    obtain ⟨hlen, hjoins⟩ := ih hothers
    have hfirst : s.aliases.Joins [(v, i)] mid.aliases := haliases ▸ .setIndicator s.aliases v i
    exact ⟨by simp [hlen], hfirst.trans hjoins⟩

/-- The indicators among the results of a construct are in the classes of the buffers there. -/
theorem ConstructPass.backed {out : Outcome}
    (pass : ConstructPass f settings o d owned site regions s b front rest out s')
    (hw : f.WellFormed) (hcons : d.kind.construct?.isSome = true) {i : ValueId}
    (hi : i ∈ out.acquired) : Backed f s' i := by
  have hl := pass.threaded'.wellFormed.linked
  obtain ⟨hx, pre, post, types, hrebuilt⟩ := pass.exists_rebuilt
  obtain ⟨-, hconstruct, -⟩ := pass.made hw hcons
  obtain ⟨extra, hresults, -, hlen⟩ := hrebuilt.results_eq hl
  obtain ⟨pairs, hpairs, haliases⟩ := pass.joins
  obtain ⟨e, he, hpairs⟩ := bind_eq_ok.mp hpairs
  obtain ⟨onEntry, -, hpairs⟩ := bind_eq_ok.mp hpairs
  obtain ⟨inRegions, -, hpairs⟩ := bind_eq_ok.mp hpairs
  obtain ⟨buffers, hbuffers, hpairs⟩ := bind_eq_ok.mp hpairs
  cases hpairs
  have hall : e.results =
      pass.entry.results.map (pass.transferred.routine.renewed pass.entry.results types) ++
        extra := by
    rw [← hresults, Option.mem_unique (op_eq_ok.mp he) (hx ▸ hrebuilt.op?_fresh)]
  rw [hall, ← pass.entry_results, List.take_left' (by simp)] at hbuffers
  rw [hall, ← pass.entry_results, List.drop_left' (by simp)] at haliases
  rw [pass.acquired, resultsOf_of (op_eq_ok.mp he), hall, ← pass.entry_results,
    List.drop_left' (by simp)] at hi
  have hbuffers := buffers_eq_ok hbuffers
  -- there is a buffer for each indicator, so each is in a pair
  have hlen' : extra.length ≤ buffers.length := by
    rw [hbuffers, ← List.countP_eq_length_filter, ← bufferCount,
      hrebuilt.bufferCount_renewed hl, hlen]
  obtain ⟨u, hu⟩ := exists_mem_zip hlen' hi
  obtain ⟨hres, hbuffer⟩ := List.mem_filter.mp (hbuffers ▸ (List.of_mem_zip hu).1)
  refine ⟨u, .inr ⟨pass.x, hconstruct, ?_, pass.routine ▸ hbuffer⟩, ?_⟩
  · rw [pass.routine, resultsOf_of (op_eq_ok.mp he), hall]
    exact List.mem_append_left _ hres
  · rw [haliases]
    exact (AliasClasses.Joins.unionAll _ _).joined pass.threaded'.classes (u, i)
      (List.mem_append_right _ hu)

/-- What an operation acquires is backed. -/
theorem OpCase.backed {out : Outcome}
    (h : OpCase f settings treat o d owned b front rest s out s') (hw : f.WellFormed)
    (hd : f.op? o = some d) (hat : AtOp f s o owned b front rest) {i : ValueId}
    (hi : i ∈ out.acquired) : Backed f s' i := by
  cases h with
  | effects next post _ _ hown _ =>
    obtain ⟨hlen, hjoins⟩ := ownAll_joins hown
    obtain ⟨u, hu⟩ := exists_mem_zip hlen.le hi
    refine ⟨u, .inl (.inl ⟨b, o, d, hat.visited, hd, hat.parent, (List.of_mem_zip hu).1⟩), ?_⟩
    exact hjoins.joined hat.threaded.classes _ hu
  | plain _ _ hnone => simp [hnone, Outcome.none] at hi
  | unknown _ _ hnone => simp [hnone, Outcome.none] at hi
  | construct _ _ _ _ _ hkind _ _ _ _ _ _ hpass =>
    obtain ⟨pass⟩ := hpass
    exact pass.backed hw (by simp [hkind]) hi

/-- What a block owns when the pass through it comes to an operation is backed. -/
theorem BlockReaches.backed
    (h : BlockReaches (Pass.throughOpWithin settings n) b owns s q held mid) (hw : f.WellFormed)
    (hat : AtBlocks f s p (b :: bs)) (howns : owns = true → f.isConstruct p = true) :
    ∀ i ∈ held.owned, Backed f mid i := by
  obtain ⟨t, owned, opened, pre, post, hfound, hopens, hbody, hwalks⟩ := h
  have htreat : OpSpec f _ := throughOpWithin_spec hw settings n
  have hopened := openBlock_backed hw
    (fun h => (hat.enters b (by simp)).opened hat.visited (howns h)) hat.threaded
    (hat.untouched b (by simp)).args hopens
  refine (throughOps_invariant (P := fun held s => ∀ i ∈ held.owned, Backed f s i)
    (fun c hc hheld i hi => ?_) hopened hwalks).1
  -- the operation stands in its place when it is treated
  obtain ⟨htreats, before, after, rfl, hbefore, -⟩ := hc.split
  have hatops := (hat.start hw howns hfound hopens hbody).atOps
  rw [List.append_assoc] at hatops
  obtain ⟨front, hatc, -⟩ := hatops.walk htreat hw hbefore
  obtain ⟨_, hrun, -⟩ := htreat hatc.first htreats
  obtain ⟨d, hd, -⟩ := exists_op?_of_parent? hatc.first.parent
  obtain ⟨m, -, hcase⟩ := throughOpWithin_cases hw hd hatc.first htreats
  rcases Holdings.mem_owned_absorb hi with hi | hi
  · exact (hheld i hi).run hatc.threaded hrun
  · exact hcase.backed hw hd hatc.first hi

theorem Arrives.backed (h : Arrives f settings n q owned s) (hw : f.WellFormed) :
    ∀ i ∈ owned, Backed f s i := by
  cases h with
  | body henters hreaches => exact hreaches.backed hw (.body hw henters) nofun
  | inner harrives hd henters hbars hbs hpassed _ hreaches =>
    obtain ⟨_, _, _, hat⟩ := harrives.atOp hw
    exact hreaches.backed hw (hat.nextBlock hw hd henters hbars hbs hpassed).1 id

/-! ## The whole run -/

/-- A record that is missing in a run is missing in the body of the routine. -/
theorem threadFromRoot_missing (hw : f.WellFormed)
    (h : f.threadFromRoot settings = .error (.rejected (.missingIndicator o name v))) :
    ∃ b, f.Enters f.root b ∧
      Pass.throughBlock settings (Pass.throughOpWithin settings f.ops.size) b false (.start f) =
        .error (.rejected (.missingIndicator o name v)) := by
  cases threadFromRoot_rejects hw h with
  | noBody _ _ hreason => cases hreason
  | inBody _ henters hblock => exact ⟨_, henters, hblock⟩
  | afterBody _ _ _ _ _ hreason => cases hreason

/-- No record is missing for the check at the end. -/
theorem threadOwnership_eq_missing
    (h : f.threadOwnership settings = .error (.rejected (.missingIndicator o name v))) :
    f.threadFromRoot settings = .error (.rejected (.missingIndicator o name v)) :=
  threadOwnership_rejects h nofun

/-- One branch of the conditional frees a value that another one sends, and either a conditional
inside has captured the value first and so dropped the record, or the value never gets a record: it
may be the result of a construct, which has another name by then. Neither says who owns the buffer.
But if nothing that may alias it comes with an indicator, then no block around the conditional owns
an indicator of the class when the run comes to it. -/
theorem threadOwnership_missingIndicator (hw : f.WellFormed) (hfree : f.FreesOnce)
    (settings : Settings)
    (h : f.threadOwnership settings = .error (.rejected (.missingIndicator o name v))) :
    (∃ u, f.Captures o u ∧
      ((u = v ∧ ∃ o', f.Inside o o' ∧ o' ≠ o ∧ f.Captures o' u) ∨
        (¬ f.Indicated u ∧ (u = v ∨ ∃ p, f.isConstruct p = true ∧ u ∈ f.resultsOf p)))) ∧
    ∃ fuel owned s, Arrives f settings fuel o owned s ∧
      Pass.throughOpWithin settings fuel o owned s =
        .error (.rejected (.missingIndicator o name v)) ∧
      ((∀ u, f.Provided s.routine u → s.aliases.same v u = false) →
        ∀ p n held s', f.Inside p o → Arrives f settings n p held s' →
          ∀ i ∈ held, s.aliases.same v i = false) := by
  obtain ⟨b, henters, hblock⟩ := threadFromRoot_missing hw (threadOwnership_eq_missing h)
  rw [← hw.isConstruct_root] at hblock
  obtain ⟨q, owned, walked, hq, hcleared, htraced, hmissing⟩ :=
    (Traced.root hw).descend (c := .routine) hw (.root hw) (.body hw henters) (.here hblock)
      fun hbs hpassed _ henters' hreaches => by
        cases hpassed with
        | nil => exact .body henters' (hw.isConstruct_root ▸ hreaches)
        | cons _ _ => simp at hbs
  obtain ⟨hunrecorded, fuel, owned, s, harrives, hmissing⟩ :=
    hq.missing hw hfree hcleared htraced hmissing
  refine ⟨hunrecorded, fuel, owned, s, harrives, hmissing, fun hnone p n held s' hin hp i hi => ?_⟩
  -- what such a block owns is in the class of a buffer with an indicator, and stays there
  obtain ⟨_, _, _, hat⟩ := hp.atOp hw
  obtain ⟨u, hu, hsame⟩ := (hp.backed hw i hi).run hat.threaded (harrives.run hw hp hin)
  by_contra hvi
  have hvu := AliasClasses.same_trans (by simpa using hvi) (AliasClasses.same_symm hsame)
  rw [hnone u hu] at hvu
  cases hvu

/-- One branch frees a parameter, the other one sends it. -/
def lent : Edit Unit := do
  let entry : InsertPoint := .atEnd ⟨0⟩
  let ty : Ty := .buffer .f32 1
  let choice ← Emit.conditional entry ⟨0⟩ [ty] true
  let _ ← Emit.dealloc (.atEnd choice.thenBlock) ⟨1⟩
  let new ← Emit.alloc (.atEnd choice.thenBlock) ty
  let _ ← Emit.yield (.atEnd choice.thenBlock) [new]
  let _ ← Emit.yield (.atEnd (choice.elseBlock?.getD ⟨0⟩)) [⟨1⟩]
  let _ ← Emit.ret entry []

def lentRoutine : Routine := lent.build "lent" [.scalar .i1, .buffer .f32 1]

/-- A parameter comes with no indicator, and nothing aliases it at the conditional. -/
theorem lentRoutine_not_owned :
    lentRoutine.WellFormed ∧ lentRoutine.FreesOnce ∧
      lentRoutine.threadOwnership {} = .error (.rejected (.missingIndicator ⟨1⟩ "if" ⟨1⟩)) ∧
      (∃ u, lentRoutine.Captures ⟨1⟩ u ∧ ¬ lentRoutine.Indicated u) ∧
      ∃ fuel owned s, Arrives lentRoutine {} fuel ⟨1⟩ owned s ∧
        ∀ p n held s', lentRoutine.Inside p ⟨1⟩ → Arrives lentRoutine {} n p held s' →
          ∀ i ∈ held, s.aliases.same ⟨1⟩ i = false := by
  have hw : lentRoutine.WellFormed := wellFormed_of_check (by decide +kernel)
  have hfree : lentRoutine.FreesOnce := freesOnce_of_check (by decide +kernel)
  have h : lentRoutine.threadOwnership {} = .error (.rejected (.missingIndicator ⟨1⟩ "if" ⟨1⟩)) :=
    eq_error_of_failsWith (by decide +kernel)
  obtain ⟨⟨u, hcaptures, hcause⟩, fuel, owned, s, harrives, -, hnone⟩ :=
    threadOwnership_missingIndicator hw hfree {} h
  refine ⟨hw, hfree, h, ⟨u, hcaptures, ?_⟩, fuel, owned, s, harrives, hnone fun w hprovided => ?_⟩
  · -- there is one conditional only
    have hone : ∀ o ∈ lentRoutine.opIds, lentRoutine.isConditional o = true → o = ⟨1⟩ := by
      decide +kernel
    rcases hcause with ⟨-, o, -, hne, -, hcond, -⟩ | ⟨hnot, -⟩
    · refine absurd (hone o (mem_opIds fun hnone => ?_) hcond) hne
      simp [isConditional, kind?, hnone] at hcond
    · exact hnot
  · have hreaches : BlockReaches (Pass.throughOpWithin {} lentRoutine.ops.size) ⟨0⟩ false
        (.start lentRoutine) ⟨1⟩ ⟨∅, ∅⟩ (.start lentRoutine) :=
      ⟨⟨6⟩, ∅, .start lentRoutine, [], [], by decide +kernel, rfl, by decide +kernel, rfl⟩
    obtain ⟨-, -, rfl⟩ := harrives.unique hw (.body (by decide +kernel) hreaches)
    have harg : ⟨1⟩ ∈ lentRoutine.argsOf ⟨0⟩ := by decide +kernel
    by_contra hsame
    obtain rfl := AliasClasses.same_empty_iff.mp (Bool.not_eq_false _ ▸ hsame)
    rcases hprovided with hindicated | ⟨x, -, hres, -⟩
    · obtain ⟨⟨o, ho, henters⟩, -⟩ := hindicated.block_opened hw.linked harg
      have hroot : lentRoutine.holder? ⟨0⟩ = some lentRoutine.root := by decide +kernel
      obtain rfl := Option.mem_unique (henters.holder? hw.linked) hroot
      cases ho.2.symm.trans hw.isConstruct_root
    · exact hw.linked.not_arg_of_result hres harg

/-- A conditional in a branch of another one. A buffer is freed in a branch of the inner one, and
all branches without a buffer of their own send it. -/
def nested : Edit Unit := do
  let entry : InsertPoint := .atEnd ⟨0⟩
  let ty : Ty := .buffer .f32 1
  let old ← Emit.alloc entry ty
  let outer ← Emit.conditional entry ⟨0⟩ [ty] true
  let inner ← Emit.conditional (.atEnd outer.thenBlock) ⟨0⟩ [ty] true
  let _ ← Emit.dealloc (.atEnd inner.thenBlock) old
  let new ← Emit.alloc (.atEnd inner.thenBlock) ty
  let _ ← Emit.yield (.atEnd inner.thenBlock) [new]
  let _ ← Emit.yield (.atEnd (inner.elseBlock?.getD ⟨0⟩)) [old]
  let _ ← Emit.yield (.atEnd outer.thenBlock) [⟨3⟩]
  let _ ← Emit.yield (.atEnd (outer.elseBlock?.getD ⟨0⟩)) [old]
  let _ ← Emit.ret entry []

def nestedRoutine : Routine := nested.build "nested" [.scalar .i1]

/-- The body of the routine owns an indicator of the buffer when the outer conditional is about to
be treated, and the record is missing nevertheless. -/
theorem nestedRoutine_owned_missing :
    nestedRoutine.WellFormed ∧ nestedRoutine.FreesOnce ∧
      nestedRoutine.threadOwnership {} = .error (.rejected (.missingIndicator ⟨2⟩ "if" ⟨1⟩)) ∧
      nestedRoutine.Enters nestedRoutine.root ⟨0⟩ ∧
      nestedRoutine.bodyOps ⟨0⟩ = .ok ([⟨1⟩] ++ ⟨2⟩ :: []) ∧
      Pass.openBlock ⟨0⟩ false (.start nestedRoutine) = .ok (∅, .start nestedRoutine) ∧
      ∃ held s, Pass.throughOps (Pass.throughOpWithin {} nestedRoutine.ops.size) [⟨1⟩] ⟨∅, ∅⟩
          (.start nestedRoutine) = .ok (held, s) ∧
        Pass.throughOpWithin {} nestedRoutine.ops.size ⟨2⟩ held.owned s =
          .error (.rejected (.missingIndicator ⟨2⟩ "if" ⟨1⟩)) ∧
        ∃ i ∈ held.owned, s.aliases.same ⟨1⟩ i = true := by
  refine ⟨wellFormed_of_check (by decide +kernel), freesOnce_of_check (by decide +kernel),
    eq_error_of_failsWith (by decide +kernel), by decide +kernel, by decide +kernel, rfl, ?_⟩
  obtain ⟨⟨held, s⟩, hwalks, hmissing, howned, hsame⟩ := exists_of_check
    (x := Pass.throughOps (Pass.throughOpWithin {} nestedRoutine.ops.size) [⟨1⟩] ⟨∅, ∅⟩
      (.start nestedRoutine))
    (P := fun a => failsWith (.rejected (.missingIndicator ⟨2⟩ "if" ⟨1⟩))
        (Pass.throughOpWithin {} nestedRoutine.ops.size ⟨2⟩ a.1.owned a.2) = true ∧
      ⟨5⟩ ∈ a.1.owned ∧ a.2.aliases.same ⟨1⟩ ⟨5⟩ = true)
    (by decide +kernel)
  exact ⟨held, s, hwalks, eq_error_of_failsWith hmissing, ⟨5⟩, howned, hsame⟩

end BufferOwnership
