import BufferOwnership.Proofs.Arrivals
import BufferOwnership.Proofs.Erasure
import BufferOwnership.Proofs.Indicators
import BufferOwnership.Proofs.Names

/-!
# Where a release ends

A release strikes off an indicator that the block owns and that is in the class of the buffer. If
there is none it is passed on, and only a conditional takes it: a loop, a region of unknown control
flow and the routine do not. A class may hold the indicators of several buffers, so what one expects
of a release holds up to those: in a loop it is rejected, or strikes off an indicator of the loop;
and two releases of one value are rejected, or strike off two, or leave a branch as one.
-/

namespace BufferOwnership

open Routine

variable {f : Routine} {s s' final : Session} {b : BlockId} {l o p q t x : OpId}
variable {front rest pre post : List OpId} {i v w : ValueId} {d : Op} {settings : Settings}
variable {fuel : Nat} {out : Outcome} {k : Transit} {c : Call}

/-! ## In the block -/

/-- The treatment of an operation releases a value, and the release strikes off an indicator that
the block of the operation owns. The two are in one class by then. -/
def Strikes (f : Routine) (settings : Settings) (o : OpId) (v i : ValueId) : Prop :=
  ∃ fuel k c, Transits f settings fuel k ∧ k.Calls (Pass.throughOpWithin settings fuel) c ∧
    c.op = o ∧ v ∈ c.out.released ∧ i ∈ c.held.owned ∧ c.after.aliases.same v i = true ∧
    i ∉ (c.held.absorb c.after.aliases c.out).owned

namespace Transit.Placed

variable (h : k.Placed f settings final fuel o) (hw : f.WellFormed)
include h hw

/-- What is struck off was owned before the operation, and is not owned afterwards. -/
theorem absorb_cases (hc : k.Calls (Pass.throughOpWithin settings fuel) c)
    (hv : v ∈ c.out.released) :
    (∃ i ∈ c.held.owned, c.after.aliases.same v i = true ∧
      i ∉ c.heldAfter.owned) ∨ v ∈ c.heldAfter.released := by
  rcases h.call hw hc with ⟨front, rest, hcall⟩
  rcases Holdings.absorb_cases (h := c.held) c.after.aliases hv with ⟨i, hi, hsame, hgone⟩ | hpassed
  · refine .inl ⟨i, hi, hsame, hgone fun hnew => ?_⟩
    obtain ⟨-, hfresh⟩ := hcall.acquired hw hnew
    have hknown := (h.within hw hc i hi).1.introduced.known hcall.atOp.threaded.wellFormed.linked
    exact Nat.not_lt.mpr hfresh hknown
  · exact .inr hpassed

/-- A release that does not strike off anything is passed on. -/
theorem strikes_or_passes (hk : Transits f settings fuel k)
    (hc : k.Calls (Pass.throughOpWithin settings fuel) c) (hv : v ∈ c.out.released) :
    (∃ i, Strikes f settings c.op v i ∧ IndicatorOf f final.routine k.block i ∧ i ∈ c.held.owned ∧
      i ∉ c.heldAfter.owned) ∨ v ∈ k.out.released := by
  rcases h.absorb_cases hw hc hv with ⟨i, hi, hsame, hgone⟩ | hpassed
  · rcases h.call hw hc with ⟨front, rest, hcall⟩
    refine .inl ⟨i, ⟨fuel, k, c, hk, hc, rfl, hv, hi, hsame, hgone⟩, ?_, hi, hgone⟩
    exact (h.within hw hc i hi).1.run (hcall.ahead hw) hcall.atOp.threaded hw
  · -- no operation takes back what has been released
    right
    obtain ⟨pass⟩ := h.pass hw
    rw [pass.released]
    apply walk_from hw pass (P := fun held _ => v ∈ held.released) _ hc hpassed
    exact fun c _ => Holdings.released_absorb

/-- Of two operations of a block, the second is called when what the first struck off is gone. -/
theorem exists_calls (hlist : f.opsOf k.block = pre ++ p :: post ++ [t]) (hq : q ∈ post) :
    ∃ c c', k.Calls (Pass.throughOpWithin settings fuel) c ∧
      k.Calls (Pass.throughOpWithin settings fuel) c' ∧ c.op = p ∧ c'.op = q ∧
      ∀ i ∈ c.held.owned, i ∉ c.heldAfter.owned → i ∉ c'.held.owned := by
  rcases h.exists_call hw hlist (q := p) (by simp) with ⟨c, hc, rfl⟩
  obtain ⟨pass⟩ := h.pass hw
  have htreat : OpSpec f _ := throughOpWithin_spec hw settings fuel
  rcases (pass.opCalls hc).spec htreat hw pass.atOps pass.walks with
    ⟨before, after, front, hbody, hcall, hfollows⟩
  have hplace : f.opsOf k.block = before ++ c.op :: (after ++ [pass.t]) := by
    simp [pass.original, hbody]
  have hplace' : f.opsOf k.block = pre ++ c.op :: (post ++ [t]) := by simp [hlist]
  obtain ⟨-, -, hafter⟩ := hw.linked.place_unique hplace hplace'
  obtain ⟨rfl, -⟩ := List.append_inj' hafter rfl
  rcases exists_opCall hcall.rest hq with ⟨c', hc', rfl⟩
  refine ⟨c, c', hc, pass.calls (hfollows c' hc'), rfl, rfl, fun i hi hgone => ?_⟩
  obtain ⟨mid, -, hrun, -⟩ := hcall.atOps.next htreat hw hcall.treats
  have hknown := (h.within hw hc i hi).1.introduced.known hcall.atOps.threaded.wellFormed.linked
  refine ((throughOps_invariant
    (P := fun held s => i ∉ held.owned ∧ i.index < s.routine.values.size)
    (fun c hc => h.gone_stays hw (pass.calls (hfollows c hc)))
    ⟨hgone, Nat.lt_of_lt_of_le hknown hrun.keeps.size_values⟩ hcall.rest).2 c' hc').1

end Transit.Placed

/-- What is struck off was introduced, and is in the class of what was released to the end. -/
theorem Strikes.introduced (h : Strikes f settings o v i) (hw : f.WellFormed)
    (hroot : f.threadFromRoot settings = .ok (out, final)) :
    Introduced f final.routine i ∧ final.aliases.same v i = true := by
  obtain ⟨fuel, k, c, hk, hc, -, -, hi, hsame, -⟩ := h
  rcases hk.placed hw hroot with ⟨m, hplaced⟩
  rcases hplaced.call hw hc with ⟨front, rest, hcall⟩
  have hplace := (hplaced.within hw hc i hi).1.run (hcall.ahead hw) hcall.atOp.threaded hw
  exact ⟨hplace.introduced, (hcall.atOp.threaded.run hw (hcall.run hw)).same hcall.later hsame⟩

/-- An operation strikes off what its block owns when the run comes to it. -/
theorem Strikes.owned {owned : ValueSet} (h : Strikes f settings o v i) (hw : f.WellFormed)
    (hroot : f.threadFromRoot settings = .ok (out, final))
    (harrives : Arrives f settings fuel o owned s) :
    i ∈ owned ∧ ∃ out s', Pass.throughOpWithin settings fuel o owned s = .ok (out, s') ∧
      v ∈ out.released ∧ s'.aliases.same v i = true := by
  obtain ⟨n, k, c, hk, hc, rfl, hv, hi, hsame, -⟩ := h
  obtain ⟨rfl, rfl, rfl⟩ := (hk.arrives hw hroot hc).unique hw harrives
  obtain ⟨m, hplaced⟩ := hk.placed hw hroot
  obtain ⟨front, rest, hcall⟩ := hplaced.call hw hc
  exact ⟨hi, c.out, c.after, hcall.treats, hv, hsame⟩

/-! ## Out of the block -/

/-- Is an operation there, and a conditional? -/
def Routine.isConditional (r : Routine) (o : OpId) : Bool :=
  (r.kind? o).any fun k => k.construct? = some .conditional

/-- Conditionals nested in one another, from the outermost to the innermost. -/
inductive Routine.Branches (f : Routine) (x : OpId) : OpId → Prop
  | self : f.isConditional x = true → Branches f x x
  | inner {m o : OpId} : Branches f x m → f.up? o = some m → f.isConditional o = true →
      Branches f x o

theorem Routine.Branches.conditional (h : f.Branches x o) : f.isConditional o = true := by
  cases h with
  | self hx => exact hx
  | inner _ _ ho => exact ho

theorem Routine.Branches.to_inside (h : f.Branches x o) : f.Inside x o := by
  induction h with
  | self => exact .refl
  | inner _ hup _ ih => exact ih.step hup

/-- Nested conditionals do not lead out of a loop. -/
theorem Routine.Branches.inside (h : f.Branches x o) (hin : f.Inside l o)
    (hl : f.isConditional l = false) : f.Inside l x ∧ x ≠ l := by
  induction h with
  | self hx =>
    refine ⟨hin, ?_⟩
    rintro rfl
    rw [hx] at hl
    cases hl
  | @inner m o _ hup ho ih =>
    rcases hin.cases_tail with he | ⟨m', hin, hup'⟩
    · rw [he, hl] at ho
      cases ho
    · obtain rfl := Option.mem_unique hup hup'
      exact ih hin

/-- Handing over operands only adds to what a construct releases. -/
theorem transferOperands_released {owned released released' : ValueSet}
    {operands indicators : List ValueId} (hv : v ∈ released)
    (h : Pass.transferOperands settings o owned operands released s =
      .ok ((indicators, released'), s')) : v ∈ released' := by
  induction operands generalizing s s' released indicators with
  | nil =>
    obtain ⟨heq, -⟩ := Pass.pure_eq_ok.mp h
    obtain ⟨-, rfl⟩ := Prod.mk.inj heq
    exact hv
  | cons operand operands ih =>
    rcases transferOperands_cons h with
      ⟨i, others, mid, -, ⟨-, -, -, hothers⟩ | ⟨-, hothers⟩⟩
    · exact ih (ValueSet.mem_insert.mpr (.inr hv)) hothers
    · exact ih hv hothers

/-- What a block of an operation passes on is released by the operation, which is a conditional. -/
theorem Call.Placed.passes (h : c.Placed f settings final (fuel + 1) b front rest)
    (hw : f.WellFormed) (hd : f.op? c.op = some d)
    (hk : BlockCalls settings (Pass.throughOpWithin settings fuel) (f.isConstruct c.op)
      (d.regions.flatMap f.blocksOf) c.before k) (henters : f.Enters c.op k.block)
    (hv : v ∈ k.out.released) : f.isConditional c.op = true ∧ v ∈ c.out.released := by
  have hcase := throughOp_cases (throughOpWithin_spec hw settings fuel) hw hd h.atOp h.treats
  cases hcase with
  | effects next post hclass => exact absurd hclass ((henters.classify hd).2 _ _)
  | plain pairs hclass => exact absurd hclass (henters.classify hd).1
  | unknown outs hclass _ _ hpassed houts =>
    rw [isConstruct_of_unknown hd hclass] at hk
    obtain ⟨-, -, _, _, _, _, -, rfl, -⟩ := hk.split hpassed
    rw [(houts k.out (by simp)).1] at hv
    exact absurd hv ValueSet.not_mem_empty
  | construct kind site outs regions mid hkind _ hpassed hto _ _ hloop hpass =>
    obtain ⟨pass⟩ := hpass
    have hcons : f.isConstruct c.op = true := by simp [isConstruct_of hd, hkind]
    rw [hcons] at hk
    obtain ⟨-, -, _, _, _, _, -, rfl, -⟩ := hk.split hpassed
    -- a loop whose body releases something is rejected
    cases kind with
    | loop =>
      rw [hloop rfl k.out (by simp)] at hv
      exact absurd hv ValueSet.not_mem_empty
    | conditional =>
      refine ⟨by simp [isConditional, kind?_of hd, hkind], ?_⟩
      rcases hto k.out (by simp) with ⟨region, hregion, hout⟩
      apply transferOperands_released _ pass.transfers
      exact (pass.agrees.released v).mpr ⟨region, hregion, hout ▸ hv⟩

section Root

variable (hw : f.WellFormed) (hroot : f.threadFromRoot settings = .ok (out, final))
include hw hroot

/-- A release that is passed on goes out through conditionals, to a block that strikes it off. -/
theorem Transits.strikes (hk : Transits f settings fuel k) (hholder : f.holder? k.block = some o)
    (hv : v ∈ k.out.released) :
    ∃ x b i, f.Branches x o ∧ f.Visited x ∧ f.parent? x = some b ∧ Strikes f settings x v i ∧
      IndicatorOf f final.routine b i := by
  induction hk generalizing o with
  | @body k hbefore howns henters hgoes =>
    obtain ⟨-, hnone, -⟩ := hgoes.ends hw hroot hbefore howns henters
    rw [hnone] at hv
    exact absurd hv ValueSet.not_mem_empty
  | @inner fuel K k c d hK hc hd henters hk ih =>
    obtain rfl := Option.mem_unique (henters.holder? hw.linked) hholder
    rcases hK.placed hw hroot with ⟨m, hplaced⟩
    rcases hplaced.call hw hc with ⟨front, rest, hcall⟩
    obtain ⟨hcond, hv⟩ := hcall.passes hw hd hk henters hv
    rcases hplaced.strikes_or_passes hw hK hc hv with ⟨i, hstrikes, hi, -⟩ | hpassed
    · exact ⟨c.op, K.block, i, .self hcond, hcall.atOp.visited, hcall.atOp.parent, hstrikes, hi⟩
    · rcases ih (hplaced.holder? hw) hpassed with ⟨x, b, i, hbranches, hrest⟩
      have hup := (up?_of_parent? hcall.atOp.parent).trans (hplaced.holder? hw)
      exact ⟨x, b, i, .inner hbranches hup hcond, hrest⟩

end Root

/-! ## Releases in a loop -/

/-- A block around an operation inside another one lies in that one. -/
theorem Routine.Inside.insideBlock (h : f.Inside l x) (hne : x ≠ l)
    (hparent : f.parent? x = some b) :
    f.InsideBlock l b := by
  rcases h.cases_tail with he | ⟨m, hin, hup⟩
  · exact absurd he hne
  · rw [up?_of_parent? hparent] at hup
    exact ⟨m, hin, hup⟩

/-- An operation that frees something is no construct. -/
theorem Routine.Frees.ne_construct (h : f.Frees q v) (hd : f.op? l = some d)
    (hcons : d.kind.construct?.isSome = true) : q ≠ l := by
  rintro rfl
  obtain ⟨d', hd', heffects⟩ := h.effects
  obtain rfl := Option.mem_unique hd hd'
  simp [(Op.kind_of_effects heffects).1] at hcons

/-- An operation in a loop that frees a value is rejected, unless the release strikes off an
indicator that belongs to a block of the loop. -/
theorem threadOwnership_release_in_loop {n : Nat} (hw : f.WellFormed) (hl : f.Visited l)
    (hd : f.op? l = some d) (hloop : d.kind.construct? = some .loop) (hq : f.VisitedFrom l q)
    (hfrees : f.FreesAt q n v) (settings : Settings) :
    (∃ e, f.threadOwnership settings = .error e) ∨
      ∃ report g, f.threadOwnership settings = .ok (report, g) ∧ ∃ w, g.FreesAt q n w ∧
        ∃ x b i, f.parent? x = some b ∧ f.InsideBlock l b ∧ IndicatorOf f g b i ∧
          Strikes f settings x w i := by
  cases hrun : f.threadOwnership settings with
  | error e => exact .inl ⟨e, rfl⟩
  | ok answer =>
    right
    obtain ⟨report, g⟩ := answer
    obtain ⟨out, final, hroot, rfl, -⟩ := threadOwnership_eq_ok hrun
    obtain ⟨ht, -⟩ := threadFromRoot_spec hw hroot
    obtain ⟨δ, hδ⟩ := ht.embedded
    have hvisited : f.Visited q := hl.trans hq
    have himage := hfrees.image hδ (hw.live q (hvisited.reached hw.linked))
    refine ⟨report, final.routine, rfl, δ.value v, himage, ?_⟩
    rcases hq.cases_tail with he | ⟨m, hm, b, body, t, henters, hlist, hmem⟩
    · exact absurd he (hfrees.frees.ne_construct hd (by simp [hloop]))
    · have hin := VisitedFrom.inside hw.linked hm
      have hholder := henters.holder? hw.linked
      rcases exists_transit hw hroot (hl.trans hm) henters with ⟨fuel, k, hk, rfl⟩
      rcases hk.placed hw hroot with ⟨m', hplaced⟩
      rcases hplaced.exists_call hw hlist hmem with ⟨c, hc, rfl⟩
      rcases hplaced.call hw hc with ⟨front, rest, hcall⟩
      have hreleased := hcall.mem_released hw hfrees.frees himage.frees
      rcases hplaced.strikes_or_passes hw hk hc hreleased with ⟨i, hstrikes, hi, -⟩ | hpassed
      · exact ⟨c.op, k.block, i, hcall.atOp.parent, ⟨m, hin, hholder⟩, hi, hstrikes⟩
      · -- a release is passed on out of conditionals only, so it is used up before the loop
        rcases hk.strikes hw hroot hholder hpassed with
          ⟨x, b, i, hbranches, -, hparent, hstrikes, hi⟩
        have hcond : f.isConditional l = false := by simp [isConditional, kind?_of hd, hloop]
        obtain ⟨hinside, hne⟩ := hbranches.inside hin hcond
        exact ⟨x, b, i, hparent, hinside.insideBlock hne hparent, hi, hstrikes⟩

/-- Both branches of a conditional in a loop free a buffer from outside. -/
def outer : Edit Unit := do
  let entry : InsertPoint := .atEnd ⟨0⟩
  let buffer ← Emit.alloc entry (.buffer .f32 1)
  let loop ← Emit.forLoop entry ⟨1⟩ ⟨1⟩ ⟨1⟩ []
  let choice ← Emit.conditional (.atEnd loop.body) ⟨0⟩ [] true
  let otherwise := choice.elseBlock?.getD ⟨0⟩
  let _ ← Emit.dealloc (.atEnd choice.thenBlock) buffer
  let _ ← Emit.yield (.atEnd choice.thenBlock) []
  let _ ← Emit.dealloc (.atEnd otherwise) buffer
  let _ ← Emit.yield (.atEnd otherwise) []
  let _ ← Emit.yield (.atEnd loop.body) []
  let _ ← Emit.ret entry []

def outerRoutine : Routine := outer.build "outer" [.scalar .i1, .scalar .index]

/-- The release goes out of the conditional and not out of the loop. -/
theorem outerRoutine_release_rejected :
    outerRoutine.kind? ⟨2⟩ = some .forLoop ∧ outerRoutine.VisitedFrom ⟨2⟩ ⟨4⟩ ∧
      outerRoutine.FreesAt ⟨4⟩ 0 ⟨2⟩ ∧ ∃ e, outerRoutine.threadOwnership {} = .error e := by
  have hw : outerRoutine.WellFormed := Routine.wellFormed_of_check (by decide +kernel)
  have hkind : outerRoutine.kind? ⟨2⟩ = some .forLoop := by decide +kernel
  have hloop : outerRoutine.Leads outerRoutine.root ⟨2⟩ := by decide +kernel
  have hchoice : outerRoutine.Leads ⟨2⟩ ⟨3⟩ := by decide +kernel
  have hfree : outerRoutine.Leads ⟨3⟩ ⟨4⟩ := by decide +kernel
  have hfrees : outerRoutine.FreesAt ⟨4⟩ 0 ⟨2⟩ := by decide +kernel
  have hin : outerRoutine.VisitedFrom ⟨2⟩ ⟨4⟩ := .tail (.single hchoice) hfree
  refine ⟨hkind, hin, hfrees, ?_⟩
  obtain ⟨d, hd, hdkind⟩ := exists_op?_of_kind? hkind
  apply (threadOwnership_release_in_loop hw (.single hloop) hd (by rw [hdkind]; rfl) hin hfrees
    {}).resolve_right
  rintro ⟨report, g, h, w, -, x, b, i, -, hinside, hi, -⟩
  obtain ⟨out, final, hroot, rfl, -⟩ := threadOwnership_eq_ok h
  obtain ⟨ht, hdone, -⟩ := threadFromRoot_spec hw hroot
  -- no block of the loop has anything to own
  have hsuppliers : outerRoutine.suppliers = [⟨0⟩] := by decide +kernel
  obtain rfl := List.mem_singleton.mp (hsuppliers ▸ hi.supplied ht hw hdone)
  exact InsideBlock.not_parent hw.root_unlinked (Visited.reached hw.linked (.single hloop))
    (by decide +kernel) hinside

/-- A loop mixes a buffer of its own with one from outside, and frees the latter. -/
def inside : Edit Unit := do
  let entry : InsertPoint := .atEnd ⟨0⟩
  let old ← Emit.alloc entry (.buffer .f32 1)
  let loop ← Emit.forLoop entry ⟨0⟩ ⟨0⟩ ⟨0⟩ []
  let new ← Emit.alloc (.atEnd loop.body) (.buffer .f32 1)
  let _ ← Emit.generic (.atEnd loop.body) "select" [old, new] [.buffer .f32 1] []
  let _ ← Emit.dealloc (.atEnd loop.body) old
  let _ ← Emit.yield (.atEnd loop.body) []
  let _ ← Emit.ret entry []

def insideRoutine : Routine := inside.build "inside" [.scalar .index]

/-- Releasing the outer buffer strikes off the inner one's indicator, so the loop is accepted. -/
theorem insideRoutine_release_accepted :
    insideRoutine.WellFormed ∧ insideRoutine.kind? ⟨2⟩ = some .forLoop ∧
      insideRoutine.Visited ⟨2⟩ ∧ insideRoutine.VisitedFrom ⟨2⟩ ⟨5⟩ ∧
      insideRoutine.FreesAt ⟨5⟩ 0 ⟨1⟩ ∧ ⟨1⟩ ∈ insideRoutine.resultsOf ⟨1⟩ ∧
      insideRoutine.up? ⟨1⟩ = some insideRoutine.root ∧
      ∃ answer, insideRoutine.threadOwnership {} = .ok answer := by
  have hloop : insideRoutine.Leads insideRoutine.root ⟨2⟩ := by decide +kernel
  have hfree : insideRoutine.Leads ⟨2⟩ ⟨5⟩ := by decide +kernel
  exact ⟨Routine.wellFormed_of_check (by decide +kernel), by decide +kernel, .single hloop,
    .single hfree, by decide +kernel, by decide +kernel, by decide +kernel,
    exists_of_toBool (by decide +kernel)⟩

/-! ## Two releases -/

/-- What ends a block that is gone through frees nothing. -/
theorem Transit.Placed.mem_body {body : List OpId} (h : k.Placed f settings final fuel o)
    (hw : f.WellFormed) (hlist : f.opsOf k.block = body ++ [t]) (hq : q ∈ f.opsOf k.block)
    (hfrees : f.Frees q v) : q ∈ body := by
  rw [hlist] at hq
  rcases List.mem_append.mp hq with hq | hq
  · exact hq
  · obtain ⟨pass⟩ := h.pass hw
    obtain ⟨-, hlast⟩ := List.append_inj' (hlist.symm.trans pass.original) rfl
    obtain ⟨d, hd, heffects⟩ := hfrees.effects
    have hterm := pass.terminator
    rw [← List.cons.inj hlast |>.1, ← List.mem_singleton.mp hq] at hterm
    simp [isTerminator_of hd, (Op.kind_of_effects heffects).2.1] at hterm

/-- Two members of a list, in one order or the other. -/
theorem exists_split_of_ne {α : Type} {l : List α} {x y : α} (hx : x ∈ l) (hy : y ∈ l)
    (hne : x ≠ y) :
    (∃ pre post, l = pre ++ x :: post ∧ y ∈ post) ∨
      ∃ pre post, l = pre ++ y :: post ∧ x ∈ post := by
  obtain ⟨pre, post, rfl⟩ := List.append_of_mem hx
  rcases List.mem_append.mp hy with hy | hy
  · obtain ⟨pre', post', rfl⟩ := List.append_of_mem hy
    exact .inr ⟨pre', post' ++ x :: post, by simp, by simp⟩
  · exact .inl ⟨pre, post, rfl, (List.mem_cons.mp hy).resolve_left hne.symm⟩

/-- Two operations that free one value strike off two indicators, or a release is passed on. -/
theorem Transits.strike_two (hw : f.WellFormed)
    (hroot : f.threadFromRoot settings = .ok (out, final)) (hk : Transits f settings fuel k)
    (hholder : f.holder? k.block = some o) (hlist : f.opsOf k.block = pre ++ p :: post ++ [t])
    (hq : q ∈ post) (hpv : f.Frees p v) (hqv : f.Frees q v) (hpw : final.routine.Frees p w)
    (hqw : final.routine.Frees q w) :
    (∃ i j, i ≠ j ∧ IndicatorOf f final.routine k.block i ∧
      IndicatorOf f final.routine k.block j ∧ Strikes f settings p w i ∧ Strikes f settings q w j) ∨
    ∃ x a i, f.Branches x o ∧ f.Visited x ∧ f.parent? x = some a ∧ Strikes f settings x w i ∧
      IndicatorOf f final.routine a i := by
  rcases hk.placed hw hroot with ⟨m, hplaced⟩
  rcases hplaced.exists_calls hw hlist hq with ⟨c, c', hc, hc', rfl, rfl, hstay⟩
  rcases hplaced.call hw hc with ⟨_, _, hcall⟩
  rcases hplaced.call hw hc' with ⟨_, _, hcall'⟩
  have hreleased := hcall.mem_released hw hpv hpw
  have hreleased' := hcall'.mem_released hw hqv hqw
  rcases hplaced.strikes_or_passes hw hk hc hreleased with ⟨i, hi, hplace, howned, hgone⟩ | hpassed
  · rcases hplaced.strikes_or_passes hw hk hc' hreleased' with
      ⟨j, hj, hplace', howned', -⟩ | hpassed
    · refine .inl ⟨i, j, ?_, hplace, hplace', hi, hj⟩
      -- what is struck off once does not come back
      rintro rfl
      exact hstay i howned hgone howned'
    · exact .inr (hk.strikes hw hroot hholder hpassed)
  · exact .inr (hk.strikes hw hroot hholder hpassed)

/-- Two operations of a block that free one value are rejected, unless they strike off two
indicators, or the block belongs to a conditional and a release is passed on out of it. -/
theorem threadOwnership_double_release {n m : Nat} (hw : f.WellFormed) (ho : f.Visited o)
    (henters : f.Enters o b) (hp : p ∈ f.opsOf b) (hq : q ∈ f.opsOf b) (hne : p ≠ q)
    (hpv : f.FreesAt p n v) (hqv : f.FreesAt q m v) (settings : Settings) :
    (∃ e, f.threadOwnership settings = .error e) ∨
      ∃ report g, f.threadOwnership settings = .ok (report, g) ∧
        ∃ w, g.FreesAt p n w ∧ g.FreesAt q m w ∧
          ((∃ i j, i ≠ j ∧ IndicatorOf f g b i ∧ IndicatorOf f g b j ∧
              Strikes f settings p w i ∧ Strikes f settings q w j) ∨
            ∃ x a i, f.Branches x o ∧ f.Visited x ∧ f.parent? x = some a ∧
              Strikes f settings x w i ∧ IndicatorOf f g a i) := by
  cases hrun : f.threadOwnership settings with
  | error e => exact .inl ⟨e, rfl⟩
  | ok answer =>
    right
    obtain ⟨report, g⟩ := answer
    obtain ⟨out, final, hroot, rfl, -⟩ := threadOwnership_eq_ok hrun
    obtain ⟨ht, -⟩ := threadFromRoot_spec hw hroot
    obtain ⟨δ, hδ⟩ := ht.embedded
    rcases exists_transit hw hroot ho henters with ⟨fuel, k, hk, rfl⟩
    rcases hk.placed hw hroot with ⟨_, hplaced⟩
    have hholder := henters.holder? hw.linked
    obtain ⟨pass⟩ := hplaced.pass hw
    have hlive : ∀ {q}, q ∈ f.opsOf k.block → f.isErased q = false := fun hq =>
      hw.live _ <| (ho.reached hw.linked).step <|
        (hw.linked.up?_of_mem hq).trans hholder
    have hpw := hpv.image hδ (hlive hp)
    have hqw := hqv.image hδ (hlive hq)
    refine ⟨report, final.routine, rfl, δ.value v, hpw, hqw, ?_⟩
    have hp := hplaced.mem_body hw pass.original hp hpv.frees
    have hq := hplaced.mem_body hw pass.original hq hqv.frees
    -- the two are symmetric, so either may come first
    rcases exists_split_of_ne hp hq hne with ⟨pre, post, hbody, hq⟩ | ⟨pre, post, hbody, hp⟩
    · exact hk.strike_two hw hroot hholder (hbody ▸ pass.original) hq hpv.frees hqv.frees hpw.frees
        hqw.frees
    · rcases hk.strike_two hw hroot hholder (hbody ▸ pass.original) hp hqv.frees hpv.frees
        hqw.frees hpw.frees with ⟨i, j, hne, hi, hj, hqi, hpj⟩ | hpassed
      · exact .inl ⟨j, i, hne.symm, hj, hi, hpj, hqi⟩
      · exact .inr hpassed

/-- Of two buffers, one is freed twice. -/
def again : Edit Unit := do
  let entry : InsertPoint := .atEnd ⟨0⟩
  let buffer ← Emit.alloc entry (.buffer .f32 1)
  let _ ← Emit.alloc entry (.buffer .f32 1)
  let _ ← Emit.dealloc entry buffer
  let _ ← Emit.dealloc entry buffer
  let _ ← Emit.ret entry []

def againRoutine : Routine := again.build "again" []

/-- The second release strikes off nothing. -/
theorem againRoutine_double_release_rejected :
    againRoutine.Enters againRoutine.root ⟨0⟩ ∧ ⟨3⟩ ∈ againRoutine.opsOf ⟨0⟩ ∧
      ⟨4⟩ ∈ againRoutine.opsOf ⟨0⟩ ∧ againRoutine.FreesAt ⟨3⟩ 0 ⟨0⟩ ∧
      againRoutine.FreesAt ⟨4⟩ 0 ⟨0⟩ ∧ ∃ e, againRoutine.threadOwnership {} = .error e := by
  have hw : againRoutine.WellFormed := Routine.wellFormed_of_check (by decide +kernel)
  have henters : againRoutine.Enters againRoutine.root ⟨0⟩ := by decide +kernel
  have hp : ⟨3⟩ ∈ againRoutine.opsOf ⟨0⟩ := by decide +kernel
  have hq : ⟨4⟩ ∈ againRoutine.opsOf ⟨0⟩ := by decide +kernel
  have hpv : againRoutine.FreesAt ⟨3⟩ 0 ⟨0⟩ := by decide +kernel
  have hqv : againRoutine.FreesAt ⟨4⟩ 0 ⟨0⟩ := by decide +kernel
  refine ⟨henters, hp, hq, hpv, hqv, ?_⟩
  apply (threadOwnership_double_release hw .refl henters hp hq (by decide) hpv hqv {}).resolve_right
  rintro ⟨report, g, h, w, -, -, ⟨-, j, -, -, -, -, hj⟩ | ⟨x, -, -, hbranches, -⟩⟩
  · -- when the run comes to the second release, no indicator in the class of the buffer is left
    obtain ⟨⟨held, s⟩, hwalks, hcheck⟩ := exists_of_check
      (x := Pass.throughOps (Pass.throughOpWithin {} againRoutine.ops.size) [⟨1⟩, ⟨2⟩, ⟨3⟩] ⟨∅, ∅⟩
        (.start againRoutine))
      (P := fun a => ∀ j ∈ a.1.owned.toList,
        ∀ b ∈ (Pass.throughOpWithin {} againRoutine.ops.size ⟨4⟩ a.1.owned a.2).toOption,
          ∀ w ∈ b.1.released.toList, b.2.aliases.same w j = false) (by decide +kernel)
    obtain ⟨out, final, hroot, -, -⟩ := threadOwnership_eq_ok h
    have harrives : Arrives againRoutine {} againRoutine.ops.size ⟨4⟩ held.owned s :=
      .body henters ⟨⟨5⟩, ∅, .start againRoutine, [⟨1⟩, ⟨2⟩, ⟨3⟩], [], by decide +kernel, rfl,
        by decide +kernel, hwalks⟩
    obtain ⟨hj, out, s', htreats, hw', hsame⟩ := hj.owned hw hroot harrives
    have hfalse := hcheck j hj (out, s') (by rw [htreats]; rfl) w hw'
    rw [hsame] at hfalse
    cases hfalse
  · have hcond : againRoutine.isConditional againRoutine.root = false := by decide +kernel
    cases hcond.symm.trans hbranches.conditional

/-- Two buffers are mixed, and one of them is freed twice. -/
def twice : Edit Unit := do
  let entry : InsertPoint := .atEnd ⟨0⟩
  let first ← Emit.alloc entry (.buffer .f32 1)
  let second ← Emit.alloc entry (.buffer .f32 1)
  let _ ← Emit.generic entry "select" [first, second] [.buffer .f32 1] []
  let _ ← Emit.dealloc entry first
  let _ ← Emit.dealloc entry first
  let _ ← Emit.ret entry []

def twiceRoutine : Routine := twice.build "twice" []

/-- The second release strikes off the indicator of the other buffer. -/
theorem twiceRoutine_double_release_accepted :
    twiceRoutine.WellFormed ∧ twiceRoutine.Enters twiceRoutine.root ⟨0⟩ ∧
      ⟨4⟩ ∈ twiceRoutine.opsOf ⟨0⟩ ∧ ⟨5⟩ ∈ twiceRoutine.opsOf ⟨0⟩ ∧
      twiceRoutine.FreesAt ⟨4⟩ 0 ⟨0⟩ ∧ twiceRoutine.FreesAt ⟨5⟩ 0 ⟨0⟩ ∧
      ∃ answer, twiceRoutine.threadOwnership {} = .ok answer :=
  ⟨Routine.wellFormed_of_check (by decide +kernel), by decide +kernel, by decide +kernel,
    by decide +kernel, by decide +kernel, by decide +kernel, exists_of_toBool (by decide +kernel)⟩

end BufferOwnership
