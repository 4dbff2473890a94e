import BufferOwnership.Proofs.Stops
import BufferOwnership.Proofs.Trace

/-!
# Where a run comes to

`Arrives` says that a run comes to an operation, with what the enclosing block owns by then and the
session that the treatment starts from. All it asks for is that whatever comes before has been gone
through, so it tells of runs that are given up later as well. A run comes to an operation once
(`Arrives.unique`), and finds it in its place (`Arrives.atOp`); a run to the end comes to every
operation that threading visits (`exists_arrival`).
-/

namespace BufferOwnership

open Routine

variable {f : Routine} {settings : Settings} {fuel : Nat} {s mid final s' : Session} {b : BlockId}
variable {o p q : OpId} {front rest : List OpId} {owned : ValueSet} {d : Op} {owns : Bool}
variable {out : Outcome} {held : Holdings} {treat : OpPass} {bs : List BlockId} {k : Transit}
variable {c : Call}

/-- The pass through a block comes to one of its operations but the last, with these holdings. -/
def BlockReaches (treat : OpPass) (b : BlockId) (owns : Bool) (s : Session) (q : OpId)
    (held : Holdings) (mid : Session) : Prop :=
  ∃ t owned opened pre post, s.routine.terminator? b = .ok (some t) ∧
    Pass.openBlock b owns s = .ok (owned, opened) ∧
    opened.routine.bodyOps b = .ok (pre ++ q :: post) ∧
    Pass.throughOps treat pre ⟨owned, ∅⟩ opened = .ok (held, mid)

/-- Threading a routine comes to an operation, with the fuel for its treatment. -/
inductive Arrives (f : Routine) (settings : Settings) : Nat → OpId → ValueSet → Session → Prop
  /-- In the body of the routine. -/
  | body {b : BlockId} {q : OpId} {held : Holdings} {s : Session} : f.Enters f.root b →
      BlockReaches (Pass.throughOpWithin settings f.ops.size) b false (.start f) q held s →
      Arrives f settings f.ops.size q held.owned s
  /-- In a block of an operation that is not rejected at once, if it can go on after the blocks
  before. -/
  | inner {fuel : Nat} {p q : OpId} {owned : ValueSet} {s mid walked : Session} {d : Op}
      {b : BlockId} {before after : List BlockId} {outs : List Outcome} {held : Holdings} :
      Arrives f settings (fuel + 1) p owned s → f.op? p = some d → f.Enters p b →
      s.routine.bars d = .ok false → d.regions.flatMap f.blocksOf = before ++ b :: after →
      BlocksPassed settings (Pass.throughOpWithin settings fuel) (f.isConstruct p) before s outs
        mid →
      (∀ out ∈ outs, d.classify.admits out = true) →
      BlockReaches (Pass.throughOpWithin settings fuel) b (f.isConstruct p) mid q held walked →
      Arrives f settings fuel q held.owned walked

/-! ## The place of an arrival -/

/-- An operation that is not rejected at once is about to have its blocks gone through. -/
theorem AtOp.atBlocks_of_bars (hat : AtOp f s p owned b front rest) (hw : f.WellFormed)
    (hd : f.op? p = some d) {c : BlockId} (henters : f.Enters p c)
    (hbars : s.routine.bars d = .ok false) : AtBlocks f s p (d.regions.flatMap f.blocksOf) := by
  have hspec := d.classify_spec
  unfold Routine.bars at hbars
  cases hclass : d.classify with
  | construct kind =>
    simp only [hclass] at hbars hspec
    have hsingle : ∀ g ∈ d.regions, (f.blocksOf g).length ≤ 1 := fun g hg =>
      hat.threaded.blocksOf g ▸ hasMultiBlockRegion_eq_false hbars g hg
    exact hat.atBlocks hw hd (enters_of_singleBlocks hd (by simp [hspec]) hsingle)
  | unknownRegions => exact hat.atBlocks hw hd fun c => (enters_iff_of_unknown hd hclass).mp
  | routine => exact absurd hclass (hat.not_routine hw hd)
  | effects allocated freed => exact absurd hclass ((henters.classify hd).2 _ _)
  | plain => exact absurd hclass (henters.classify hd).1

section Reaches

variable (h : BlockReaches treat b owns s q held mid) (hw : f.WellFormed)
variable (hat : AtBlocks f s p (b :: bs)) (howns : owns = true → f.isConstruct p = true)
include h hw hat howns

/-- What the pass through a block comes to stands there as it was. -/
theorem BlockReaches.atOp (htreat : OpSpec f treat) :
    (∃ front rest, AtOp f mid q held.owned b front rest) ∧ Run f .all s mid := by
  obtain ⟨t, owned, opened, pre, post, hfound, hopens, hbody, hwalks⟩ := h
  have hstart := hat.start hw howns hfound hopens hbody
  obtain ⟨front, hatq, hrun, -⟩ := hstart.atOps.walk htreat hw hwalks
  exact ⟨⟨front, _, hatq.first⟩, hstart.run.anywhere.trans hrun.anywhere⟩

/-- What is come to in a block of an operation is directly inside it. -/
theorem BlockReaches.up? (htreat : OpSpec f treat) :
    f.parent? q = some b ∧ f.up? q = some p := by
  obtain ⟨⟨_, _, hatq⟩, -⟩ := h.atOp hw hat howns htreat
  exact ⟨hatq.parent, (up?_of_parent? hatq.parent).trans (hat.holder? hw.linked b (by simp))⟩

/-- The pass through a block comes to an operation in one way. -/
theorem BlockReaches.unique {held' : Holdings} (h' : BlockReaches treat b owns s q held' s') :
    held = held' ∧ mid = s' := by
  obtain ⟨t, owned, opened, pre, post, hfound, hopens, hbody, hwalks⟩ := h
  obtain ⟨t', owned', opened', pre', post', -, hopens', hbody', hwalks'⟩ := h'
  cases hopens.symm.trans hopens'
  obtain ⟨-, hnodup, hnot⟩ :=
    List.nodup_append.mp (hat.start hw howns hfound hopens hbody).atOps.nodup
  -- it stands there once
  obtain ⟨rfl, -, -⟩ := (List.append_cons_inj_of_notMem (fun hq => hnot q hq q (by simp) rfl)
    (List.nodup_cons.mp hnodup).1).mp (Except.ok.inj (hbody.symm.trans hbody'))
  cases hwalks.symm.trans hwalks'
  exact ⟨rfl, rfl⟩

end Reaches

/-- The next block of an operation is about to be gone through. -/
theorem AtOp.nextBlock {before after : List BlockId} {outs : List Outcome}
    (hat : AtOp f s p owned b front rest) (hw : f.WellFormed) (hd : f.op? p = some d) {c : BlockId}
    (henters : f.Enters p c) (hbars : s.routine.bars d = .ok false)
    (hbs : d.regions.flatMap f.blocksOf = before ++ c :: after)
    (hpassed : BlocksPassed settings (Pass.throughOpWithin settings fuel) (f.isConstruct p) before s
      outs mid) : AtBlocks f mid p (c :: after) ∧ Run f .all s mid := by
  have hblocks := hat.atBlocks_of_bars hw hd henters hbars
  rw [hbs] at hblocks
  have hrun := hpassed.run (throughOpWithin_spec hw settings fuel) hw hblocks.first id
  exact ⟨hblocks.next hw hrun, hrun.anywhere⟩

theorem Arrives.atOp (h : Arrives f settings fuel q owned s) (hw : f.WellFormed) :
    ∃ b front rest, AtOp f s q owned b front rest := by
  induction h with
  | body henters hreaches =>
    exact ⟨_, (hreaches.atOp hw (.body hw henters) nofun (throughOpWithin_spec hw settings _)).1⟩
  | @inner fuel p q owned s mid walked d b before after outs held _ hd henters hbars hbs hpassed _
      hreaches ih =>
    obtain ⟨_, _, _, hat⟩ := ih
    obtain ⟨hblocks, -⟩ := hat.nextBlock hw hd henters hbars hbs hpassed
    exact ⟨b, (hreaches.atOp hw hblocks id (throughOpWithin_spec hw settings fuel)).1⟩

/-- The root is not come to. -/
theorem Arrives.ne_root (h : Arrives f settings fuel q owned s) (hw : f.WellFormed) :
    q ≠ f.root := by
  rintro rfl
  obtain ⟨b, _, _, hat⟩ := h.atOp hw
  cases hw.root_unlinked.symm.trans hat.parent

/-! ## One arrival at each operation -/

theorem Arrives.unique {n : Nat} {owned' : ValueSet} (h : Arrives f settings fuel q owned s)
    (hw : f.WellFormed) (h' : Arrives f settings n q owned' s') :
    fuel = n ∧ owned = owned' ∧ s = s' := by
  have htreat : ∀ n, OpSpec f (Pass.throughOpWithin settings n) := throughOpWithin_spec hw settings
  induction h generalizing n owned' s' with
  | @body b q held s henters hreaches =>
    have hblocks := AtBlocks.body hw henters
    obtain ⟨hparent, hup⟩ := hreaches.up? hw hblocks nofun (htreat _)
    cases h' with
    | body henters' hreaches' =>
      obtain ⟨hparent', -⟩ := hreaches'.up? hw (.body hw henters') nofun (htreat _)
      obtain rfl := Option.mem_unique hparent hparent'
      obtain ⟨rfl, rfl⟩ := hreaches.unique hw hblocks nofun hreaches'
      exact ⟨rfl, rfl, rfl⟩
    | inner harrives hd henters' hbars hbs hpassed _ hreaches' =>
      obtain ⟨_, _, _, hat⟩ := harrives.atOp hw
      obtain ⟨hblocks', -⟩ := hat.nextBlock hw hd henters' hbars hbs hpassed
      obtain ⟨-, hup'⟩ := hreaches'.up? hw hblocks' id (htreat _)
      exact absurd (Option.mem_unique hup' hup) (harrives.ne_root hw)
  | @inner fuel p q owned s mid walked d b before after outs held harrives hd henters hbars hbs
      hpassed _ hreaches ih =>
    obtain ⟨_, _, _, hat⟩ := harrives.atOp hw
    obtain ⟨hblocks, -⟩ := hat.nextBlock hw hd henters hbars hbs hpassed
    obtain ⟨hparent, hup⟩ := hreaches.up? hw hblocks id (htreat _)
    cases h' with
    | body henters' hreaches' =>
      obtain ⟨-, hup'⟩ := hreaches'.up? hw (.body hw henters') nofun (htreat _)
      exact absurd (Option.mem_unique hup hup') (harrives.ne_root hw)
    | inner harrives' hd' henters' hbars' hbs' hpassed' _ hreaches' =>
      obtain ⟨_, _, _, hat'⟩ := harrives'.atOp hw
      obtain ⟨hblocks', -⟩ := hat'.nextBlock hw hd' henters' hbars' hbs' hpassed'
      obtain ⟨hparent', hup'⟩ := hreaches'.up? hw hblocks' id (htreat _)
      obtain rfl := Option.mem_unique hparent hparent'
      obtain rfl := Option.mem_unique hup hup'
      obtain ⟨hfuel, -, rfl⟩ := ih harrives'
      obtain rfl := Nat.succ.inj hfuel
      obtain rfl := Option.mem_unique hd hd'
      -- the same blocks come before, so the session is the same where the block is opened
      have hnodup := hat.atBlocks_of_bars hw hd henters hbars |>.nodup
      rw [hbs] at hnodup
      obtain ⟨-, hrest, hnot⟩ := List.nodup_append.mp hnodup
      obtain ⟨rfl, -, -⟩ := (List.append_cons_inj_of_notMem (fun hb => hnot b hb b (by simp) rfl)
        (List.nodup_cons.mp hrest).1).mp (hbs.symm.trans hbs')
      obtain ⟨-, rfl⟩ := hpassed.unique hpassed'
      obtain ⟨rfl, rfl⟩ := hreaches.unique hw hblocks id hreaches'
      exact ⟨rfl, rfl, rfl⟩

/-- What is around an operation is come to before it. -/
theorem Arrives.run {n : Nat} {owned' : ValueSet} (h : Arrives f settings fuel q owned s)
    (hw : f.WellFormed) (h' : Arrives f settings n p owned' s') (hin : f.Inside p q) :
    Run f .all s' s := by
  have htreat : ∀ n, OpSpec f (Pass.throughOpWithin settings n) := throughOpWithin_spec hw settings
  induction h with
  | @body b q held s henters hreaches =>
    rcases hin.cases_tail with rfl | ⟨x, hx, hup⟩
    · obtain ⟨-, -, rfl⟩ := h'.unique hw (.body henters hreaches)
      exact .refl
    · -- around the body there is the root only
      obtain ⟨-, hup'⟩ := hreaches.up? hw (.body hw henters) nofun (htreat _)
      obtain rfl := Option.mem_unique hup hup'
      exact absurd (Inside.eq_root hw.root_unlinked hx) (h'.ne_root hw)
  | @inner fuel p' q owned s mid walked d b before after outs held harrives hd henters hbars hbs
      hpassed hadmits hreaches ih =>
    rcases hin.cases_tail with rfl | ⟨x, hx, hup⟩
    · obtain ⟨-, -, rfl⟩ :=
        h'.unique hw (.inner harrives hd henters hbars hbs hpassed hadmits hreaches)
      exact .refl
    · obtain ⟨_, _, _, hat⟩ := harrives.atOp hw
      obtain ⟨hblocks, hrun⟩ := hat.nextBlock hw hd henters hbars hbs hpassed
      obtain ⟨-, hup'⟩ := hreaches.up? hw hblocks id (htreat _)
      obtain rfl := Option.mem_unique hup hup'
      exact (ih hx).trans (hrun.trans (hreaches.atOp hw hblocks id (htreat _)).2)

/-! ## Arrivals of a run to the end -/

/-- A call in a transit is come to. -/
theorem BlockPass.reaches (pass : k.Passage f settings treat) (hc : k.Calls treat c) :
    BlockReaches treat k.block k.ownsInputs k.before c.op c.held c.before := by
  obtain ⟨-, pre, post, hbody, hpre, -⟩ := (pass.opCalls hc).split
  exact ⟨_, _, _, pre, post, pass.found, pass.opens, hbody ▸ pass.bodyOps, hpre⟩

/-- An operation that is treated is not rejected at once. -/
theorem bars_of_throughOp (hat : AtOp f s p owned b front rest) (hw : f.WellFormed)
    (hd : f.op? p = some d) (h : Pass.throughOp settings treat p owned s = .ok (out, s')) :
    s.routine.bars d = .ok false := by
  obtain ⟨τ, hentry⟩ := hat.entry hw hd
  have hask : Pass.ask (·.op p) s = .ok ({ d with operands := d.operands.map τ }, s) :=
    Pass.ask_eq_ok.mpr ⟨op_eq_ok.mpr hentry, rfl⟩
  rw [Pass.throughOp_of hentry, Op.classify_map] at h
  unfold Routine.bars
  cases hclass : d.classify with
  | construct kind =>
    simp only [hclass, Pass.byClass] at h
    unfold Pass.throughConstruct at h
    rw [Pass.bind_of_ok hask] at h
    obtain ⟨multi, hmulti, h⟩ := Pass.ask_bind_eq_ok.mp h
    cases multi with
    | true => exact absurd h (Pass.reject_ne_ok (s := s))
    | false => exact hmulti
  | unknownRegions =>
    simp only [hclass, Pass.byClass] at h
    unfold Pass.throughUnknownRegions at h
    rw [Pass.bind_of_ok hask] at h
    obtain ⟨answer, hanswer, h⟩ := Pass.ask_bind_eq_ok.mp h
    cases answer with
    | true => exact absurd h (Pass.reject_ne_ok (s := s))
    | false => exact hanswer
  | routine | effects | plain => rfl

/-- An operation that is treated can go on after each of its blocks. -/
theorem OpCase.passed (h : OpCase f settings treat p d owned b front rest s out s')
    (hd : f.op? p = some d) {c : BlockId} (henters : f.Enters p c) :
    ∃ outs last, BlocksPassed settings treat (f.isConstruct p) (d.regions.flatMap f.blocksOf) s outs
      last ∧ ∀ out ∈ outs, d.classify.admits out = true := by
  cases h with
  | effects _ _ hclass => exact absurd hclass ((henters.classify hd).2 _ _)
  | plain _ hclass => exact absurd hclass (henters.classify hd).1
  | unknown outs hclass _ _ hpassed hempty =>
    refine ⟨outs, s', by rwa [isConstruct_of_unknown hd hclass], fun out hout => ?_⟩
    simp [hclass, OpClass.admits, hempty out hout, ValueSet.isEmpty_iff.mpr]
  | construct kind _ outs _ mid hkind _ hpassed _ _ _ hloop =>
    have hcons : f.isConstruct p = true := by simp [isConstruct_of hd, hkind]
    refine ⟨outs, mid, by rwa [hcons], fun out hout => ?_⟩
    have hclass : d.classify = .construct kind := by simp [Op.classify, hkind]
    rw [hclass]
    -- only a loop asks something of the outcome, and it is given up where a block releases anything
    cases kind with
    | conditional => rfl
    | loop => exact ValueSet.isEmpty_iff.mpr (hloop rfl out hout)

section Root

variable (hw : f.WellFormed) (hroot : f.threadFromRoot settings = .ok (out, final))
include hw hroot

/-- Every call of a run to the end is an arrival. -/
theorem Transits.arrives (hk : Transits f settings fuel k)
    (hc : k.Calls (Pass.throughOpWithin settings fuel) c) :
    Arrives f settings fuel c.op c.held.owned c.before := by
  induction hk generalizing c with
  | @body k hbefore howns henters hgoes =>
    obtain ⟨o, hplaced⟩ := (Transits.body hbefore howns henters hgoes).placed hw hroot
    obtain ⟨pass⟩ := hplaced.pass hw
    have hreaches := pass.reaches hc
    rw [hbefore, howns] at hreaches
    exact .body henters hreaches
  | @inner fuel K k c₀ d hK hc₀ hd henters hk ih =>
    obtain ⟨o, hplaced⟩ := (Transits.inner hK hc₀ hd henters hk).placed hw hroot
    obtain ⟨pass⟩ := hplaced.pass hw
    -- the operation around the block has been treated, and so could go on
    obtain ⟨_, houter⟩ := hK.placed hw hroot
    obtain ⟨front, rest, hcall⟩ := houter.call hw hc₀
    have hbars := bars_of_throughOp hcall.atOp hw hd hcall.treats
    obtain ⟨n, _, hn, hd', hcase⟩ := hcall.cases hw
    obtain rfl := Nat.succ.inj hn
    obtain rfl := Option.mem_unique hd hd'
    obtain ⟨outs, last, hpassed, hadmits⟩ := hcase.passed hd henters
    obtain ⟨howns, -, before, after, outs₁, outs₂, hbs, rfl, hbefore, -⟩ := hk.split hpassed
    have hreaches := pass.reaches hc
    rw [howns] at hreaches
    exact .inner (ih hc₀) hd henters hbars hbs hbefore
      (fun out hout => hadmits out (List.mem_append_left _ hout)) hreaches

/-- A run to the end comes to everything that it visits but the root, and treats it. -/
theorem exists_arrival (hvisited : f.Visited o) (hne : o ≠ f.root) :
    ∃ fuel owned s out s', Arrives f settings fuel o owned s ∧
      Pass.throughOpWithin settings fuel o owned s = .ok (out, s') := by
  obtain ⟨fuel, k, c, front, rest, hk, hc, rfl, hcall⟩ := exists_placed_call hw hroot hvisited hne
  exact ⟨fuel, _, _, _, _, hk.arrives hw hroot hc, hcall.treats⟩

end Root

end BufferOwnership
