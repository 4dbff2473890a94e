import BufferOwnership.Proofs.Agreement
import BufferOwnership.Proofs.Balances
import BufferOwnership.Proofs.Closure
import BufferOwnership.Proofs.FreeBalance
import BufferOwnership.Proofs.Stops

/-!
# Routines without control flow

For a routine whose body is one block without regions, it can be told by counting whether ownership
can be threaded through it: frees are debits in the balances of the classes, allocations are
credits, and an operation without effects joins classes (`Routine.book`). The balances go with what
the block owns (`Tracks`) until a debit is refused, and the routine is rejected if and only if one
is. A second block, or an operation of a construct's kind, would make a difference.
-/

namespace BufferOwnership

open Routine

/-! ## The balances of a body -/

namespace Routine

def allocatedOf (r : Routine) (o : OpId) : List ValueId := (r.op? o).elim [] Op.allocated

/-- Each buffer result of an operation, with each buffer operand that has the same elements. -/
def views (r : Routine) (o : OpId) : List (ValueId × ValueId) :=
  ((r.resultsOf o).filter r.holdsBuffer).flatMap fun v =>
    ((r.operandsOf o).filter fun w => r.holdsBuffer w ∧ r.elemOf? w = r.elemOf? v).map (v, ·)

/-- Enters an operation in the balances, unless it frees more than is owned. -/
def book (r : Routine) (k : Balances) (o : OpId) : Option Balances :=
  if r.allocatedOf o = [] ∧ r.freedOf o = [] then
    some ((r.views o).foldl (fun k pair => k.merge pair.1 pair.2) k)
  else
    ((r.freedOf o).dedup.foldlM Balances.debit k).map fun k =>
      (r.allocatedOf o).foldl Balances.credit k

/-- The body of a routine is a single block that ends in a terminator. The operations before that
have no regions, and none is of the kind of a construct. -/
structure StraightLine (f : Routine) (b : BlockId) (body : List OpId) (t : OpId) : Prop where
  only : ∃ g, (f.regionsOf f.root).head? = some g ∧ f.blocksOf g = [b]
  list : f.opsOf b = body ++ [t]
  ends : f.isTerminator t = true
  flat : ∀ o ∈ body, f.regionsOf o = [] ∧ f.isConstruct o = false

end Routine

variable {f r : Routine} {s s' : Session} {b c : BlockId} {o t : OpId}
variable {front rest body l : List OpId} {i v w : ValueId} {d : Op} {settings : Settings} {n : Nat}
variable {held held' : Holdings} {out : Outcome} {k : Balances} {reason : Rejection}

/-! ## Values that are not there yet -/

namespace AliasClasses

variable {c : AliasClasses} {n : Nat}

/-- Only the first `n` values have been joined with others. -/
def Confined (n : Nat) (c : AliasClasses) : Prop :=
  ∀ v w, c.same v w = true → v = w ∨ (v.index < n ∧ w.index < n)

theorem Confined.mono (h : Confined n c) (hle : n ≤ m) : Confined m c := fun v w hvw =>
  (h v w hvw).imp id fun ⟨hv, hw⟩ => ⟨Nat.lt_of_lt_of_le hv hle, Nat.lt_of_lt_of_le hw hle⟩

theorem Confined.empty : Confined n .empty := fun _ _ h => .inl (same_empty_iff.mp h)

theorem Confined.union (h : Confined n c) (hc : c.Sound) (hv : v.index < n) (hw : w.index < n) :
    Confined n (c.union v w) := by
  intro x y hxy
  have hleft : ∀ {x z}, c.same x z = true → z.index < n → x.index < n := fun hxz hz =>
    (h _ _ hxz).elim (fun he => he ▸ hz) And.left
  rcases ((hc.union v w).2 x y).mp hxy with hxy | ⟨hx, hy⟩ | ⟨hx, hy⟩
  · exact h x y hxy
  · exact .inr ⟨hleft hx hv, hleft hy hw⟩
  · exact .inr ⟨hleft hx hw, hleft hy hv⟩

/-- Recording an indicator joins it with its buffer. -/
theorem Sound.same_setIndicator_iff (hc : c.Sound) (v i x y : ValueId) :
    (c.setIndicator v i).same x y = true ↔ c.same x y = true ∨
      (c.same x v = true ∧ c.same y i = true) ∨ (c.same x i = true ∧ c.same y v = true) := by
  have hrecorded : ∀ records, ({ c with indicators := records } : AliasClasses).same = c.same :=
    fun records => same_of_links rfl
  rw [setIndicator, ((Grows.record c _ hc).1.union v i).2 x y]
  simp only [hrecorded]

/-- An indicator that is not joined with anything yet changes nothing about other values. -/
theorem Confined.setIndicator (h : Confined n c) (hc : c.Sound) (hv : v.index < n)
    (hi : n ≤ i.index) :
    Confined (i.index + 1) (c.setIndicator v i) ∧ ∀ x y, x.index < n → y.index < n →
      (c.setIndicator v i).same x y = c.same x y := by
  -- the indicator is beyond the bound, so its class has no one else
  have halone : ∀ {x}, c.same x i = true → x = i := fun hxi =>
    (h _ _ hxi).elim id fun ⟨_, hlt⟩ => absurd hlt (Nat.not_lt.mpr hi)
  have hleft : ∀ {x}, c.same x v = true → x.index < n := fun hxv =>
    (h _ _ hxv).elim (fun he => he ▸ hv) And.left
  refine ⟨fun x y hxy => ?_, fun x y hx hy => ?_⟩
  · rcases (hc.same_setIndicator_iff v i x y).mp hxy with hxy | ⟨hx, hy⟩ | ⟨hx, hy⟩
    · exact h.mono (by omega) x y hxy
    · obtain rfl := halone hy
      have hx := hleft hx
      exact .inr ⟨by omega, by omega⟩
    · obtain rfl := halone hx
      have hy := hleft hy
      exact .inr ⟨by omega, by omega⟩
  · rw [Bool.eq_iff_iff, hc.same_setIndicator_iff]
    refine ⟨?_, .inl⟩
    rintro (hxy | ⟨-, hyi⟩ | ⟨hxi, -⟩)
    · exact hxy
    · rw [halone hyi] at hy
      omega
    · rw [halone hxi] at hx
      omega

end AliasClasses

/-- The classes of some pairs are joined on both sides. -/
theorem Balances.Matches.mergeAll {owned : List ValueId} {c : AliasClasses}
    {pairs : List (ValueId × ValueId)} {m : Nat} (h : k.Matches n c owned) (hc : c.Sound)
    (hin : c.Confined m) (hle : n ≤ m)
    (hpairs : ∀ pair ∈ pairs, pair.1.index < n ∧ pair.2.index < n) :
    (pairs.foldl (fun k pair => k.merge pair.1 pair.2) k).Matches n (c.unionAll pairs) owned ∧
      (c.unionAll pairs).Confined m := by
  induction pairs generalizing k c with
  | nil => exact ⟨h, hin⟩
  | cons pair pairs ih =>
    -- the first pair is joined before the others
    obtain ⟨v, w⟩ := pair
    obtain ⟨⟨hv, hw⟩, hpairs⟩ := List.forall_mem_cons.mp hpairs
    have hrest : c.unionAll ((v, w) :: pairs) = (c.union v w).unionAll pairs := by
      simp only [AliasClasses.unionAll, List.foldl_cons]
    rw [hrest, List.foldl_cons]
    exact ih (h.merge hc hv hw) (hc.union v w).1
      (hin.union hc (Nat.lt_of_lt_of_le hv hle) (Nat.lt_of_lt_of_le hw hle)) hpairs

/-- Owns for new buffers join each with its indicator, and change nothing about earlier values. -/
theorem ownAll_confined {point : InsertPoint} {buffers indicators : List ValueId}
    (hc : s.aliases.Sound) (hin : s.aliases.Confined s.routine.values.size)
    (hbuffers : ∀ v ∈ buffers, v.index < s.routine.values.size)
    (h : Pass.ownAll point buffers s = .ok (indicators, s')) :
    s'.aliases.Sound ∧ s'.aliases.Confined s'.routine.values.size ∧
      (∀ x y, x.index < s.routine.values.size → y.index < s.routine.values.size →
        s'.aliases.same x y = s.aliases.same x y) ∧
      List.Forall₂ (fun v i => s'.aliases.same v i = true) buffers indicators := by
  induction buffers generalizing s indicators with
  | nil =>
    cases h
    exact ⟨hc, hin, fun _ _ _ _ => rfl, .nil⟩
  | cons v buffers ih =>
    obtain ⟨hv, hbuffers⟩ := List.forall_mem_cons.mp hbuffers
    obtain ⟨i, others, mid, rfl, hown, hothers⟩ := Pass.ownAll_cons h
    -- the indicator is the next value of the table, so nothing has been joined with it
    obtain ⟨rfl, haliases, x, hemit⟩ := Pass.own_eq_ok hown
    obtain ⟨-, c, pre, post, -, hem⟩ := Emit.operation_emitted hemit
    have hsize : mid.routine.values.size = s.routine.values.size + 1 := hem.size_values
    obtain ⟨hmid, hkept⟩ := hin.setIndicator hc hv (i := ⟨s.routine.values.size⟩) (Nat.le_refl _)
    have hsound := (AliasClasses.Grows.setIndicator s.aliases v ⟨s.routine.values.size⟩ hc).1
    rw [← haliases] at hmid hkept hsound
    have hown := hc.same_setIndicator v ⟨s.routine.values.size⟩
    rw [← haliases] at hown
    rw [← hsize] at hmid
    obtain ⟨hsound', hend, hlater, hpairs⟩ :=
      ih hsound hmid (fun w hw => by have := hbuffers w hw; omega) hothers
    refine ⟨hsound', hend, fun x y hx hy => ?_, .cons ?_ hpairs⟩
    · rw [hlater x y (by omega) (by omega), hkept x y hx hy]
    · rw [hlater v _ (by omega) (by simp only; omega)]
      exact hown

/-! ## Steps -/

/-- The balances go with what a block holds that has passed nothing on. -/
structure Tracks (f : Routine) (k : Balances) (held : Holdings) (s : Session) : Prop where
  balances : k.Matches f.values.size s.aliases held.owned.toList
  confined : s.aliases.Confined s.routine.values.size
  released : held.released = ∅

/-- The balances go with what a block holds, or a debit has been refused and a release passed on. -/
def Accounts (f : Routine) (held : Holdings) (s : Session) : Option Balances → Prop
  | some k => Tracks f k held s
  | none => held.released ≠ ∅

theorem Tracks.start (f : Routine) : Tracks f .start ⟨∅, ∅⟩ (.start f) where
  balances := .start
  confined := .empty
  released := rfl

/-- Without regions and constructs, an operation either has effects or is plain. -/
theorem Op.classify_flat (hcons : d.kind.construct? = none) (hregions : d.regions = [])
    (hroutine : d.classify ≠ .routine) :
    d.classify = if d.allocated = [] ∧ d.freed = [] then .plain
      else .effects d.allocated d.freed := by
  split
  · rename_i hnone
    unfold classify at hroutine ⊢
    simp only [hcons, hnone.1, hnone.2, hregions] at hroutine ⊢
    cases hkind : d.kind <;> simp_all
  · rename_i hsome
    exact classify_of_effects (by rwa [not_and_or] at hsome)

theorem Routine.plainAliases_eq_views {pairs : List (ValueId × ValueId)}
    (h : r.plainAliases o = .ok pairs) : pairs = r.views o := by
  obtain ⟨d, hd, h⟩ := bind_eq_ok.mp h
  obtain ⟨operands, hoperands, h⟩ := bind_eq_ok.mp h
  obtain ⟨results, hresults, h⟩ := bind_eq_ok.mp h
  cases h
  rw [views, resultsOf_of (op_eq_ok.mp hd), operandsOf_of (op_eq_ok.mp hd), buffers_eq_ok hoperands,
    buffers_eq_ok hresults]
  simp [List.filter_filter, Bool.and_comm]

theorem Routine.WellFormed.views_known (hw : f.WellFormed) (o : OpId) :
    ∀ pair ∈ f.views o, pair.1.index < f.values.size ∧ pair.2.index < f.values.size := by
  intro pair hpair
  obtain ⟨v, hv, hpair⟩ := List.mem_flatMap.mp hpair
  obtain ⟨w, hw', rfl⟩ := List.mem_map.mp hpair
  exact ⟨hw.linked.result_known (List.mem_of_mem_filter hv),
    hw.known o w (List.mem_of_mem_filter hw')⟩

section Steps

variable (hw : f.WellFormed) (hplain : f.WithoutConstructs)
include hw hplain

/-- An operation that is to be treated gives the views that it gives in the original routine. -/
theorem AtOp.views_eq {owned : ValueSet} (hat : AtOp f s o owned b front rest)
    (hd : f.op? o = some d) : s.routine.views o = f.views o := by
  obtain ⟨δ, hδ⟩ := hat.threaded.embedded
  have hkept := hδ.change.keeps
  have hentry := hat.entry_eq hplain hd
  -- results and operands are values of the original routine, and those keep their types
  have hresults : ∀ v ∈ d.results, v.index < f.values.size := fun v hv =>
    hw.linked.result_known (by rwa [resultsOf_of hd])
  have hoperands : ∀ v ∈ d.operands, v.index < f.values.size := fun v hv =>
    hw.known o v (by rwa [operandsOf_of hd])
  rw [Routine.views, Routine.views, resultsOf_of hentry, operandsOf_of hentry, resultsOf_of hd,
    operandsOf_of hd, List.filter_congr fun v hv => hkept.holdsBuffer_eq (hresults v hv)]
  refine List.flatMap_congr fun v hv => congrArg _ (List.filter_congr fun w hw => ?_)
  rw [hkept.holdsBuffer_eq (hoperands w hw), hkept.elemOf?_eq (hoperands w hw),
    hkept.elemOf?_eq (hresults v (List.mem_of_mem_filter hv))]

/-- An operation with effects: its owns do not count until what it frees has been taken away. -/
theorem Tracks.effects {next : OpId} (h : Tracks f k held s)
    (hat : AtOp f s o held.owned b front rest) (hd : f.op? o = some d)
    (hown : Pass.ownAll (.before next) d.allocated s = .ok (out.acquired, s'))
    (hreleased : ∀ v, v ∈ out.released ↔ s.routine.Frees o v) :
    Accounts f (held.absorb s'.aliases out) s'
      ((d.freed.dedup.foldlM Balances.debit k).map fun k =>
        d.allocated.foldl Balances.credit k) := by
  obtain ⟨δ, hδ⟩ := hat.threaded.embedded
  have hsize : f.values.size ≤ s.routine.values.size := hδ.change.keeps.size_values
  have hentry := hat.entry_eq hplain hd
  have hallocated : ∀ v ∈ d.allocated, v.index < f.values.size := fun v hv => by
    have hresult := Op.mem_results_of_mem_allocated hv
    rw [← resultsOf_of hd] at hresult
    exact hw.linked.result_known hresult
  have hfreed : ∀ v, v ∈ out.released ↔ v ∈ d.freed := fun v =>
    (hreleased v).trans ⟨fun ⟨e, he, hv⟩ => by rwa [Option.mem_unique hentry he],
      fun hv => ⟨d, hentry, hv⟩⟩
  have hknown : ∀ v ∈ out.released.toList, v.index < f.values.size := fun v hv => by
    have hoperand := Op.mem_operands_of_mem_freed ((hfreed v).mp hv)
    rw [← operandsOf_of hd] at hoperand
    exact hw.known o v hoperand
  -- a value that is freed twice is released once
  have hperm : out.released.toList.Perm d.freed.dedup :=
    (List.perm_ext_iff_of_nodup out.released.nodup_toList d.freed.nodup_dedup).mpr fun v => by
      rw [List.mem_dedup, ← hfreed v]
      rfl
  -- the new indicators change nothing about what is owned so far
  obtain ⟨-, hconfined, hsame, hpairs⟩ := ownAll_confined hat.threaded.classes h.confined
    (fun v hv => Nat.lt_of_lt_of_le (hallocated v hv) hsize) hown
  have howned : ∀ i ∈ held.owned, i.index < s.routine.values.size := fun i hi =>
    (hat.owned i hi).known
  have hbefore : k.Matches f.values.size s'.aliases held.owned.toList :=
    h.balances.of_same (fun v w hv hw => hsame v w (by omega) (by omega))
      fun v hv i hi => hsame v i (by omega) (howned i hi)
  have hrest := hbefore.releases h.released hknown
  rw [Balances.foldlM_debit_perm hperm] at hrest
  cases hdebits : d.freed.dedup.foldlM Balances.debit k with
  | none =>
    rw [hdebits] at hrest
    exact hrest
  | some k' =>
    rw [hdebits] at hrest
    obtain ⟨-, hacquired⟩ := ownAll_ledger (hat.threaded.booked hw) (by simp [hd])
      (hat.allocated_results hw hd) hown
    have hnew : ∀ i ∈ out.acquired, i ∉ held.owned := fun i hi hmem =>
      Nat.not_lt.mpr (hacquired.fresh i hi) (howned i hmem)
    exact ⟨(hrest.1.credits hpairs hallocated).perm
      (Holdings.perm_absorb _ hacquired.nodup hnew).symm, hconfined, hrest.2⟩

/-- One operation of the body, in the balances and in the session. -/
theorem Tracks.step (h : Tracks f k held s) (hat : AtOp f s o held.owned b front rest)
    (hregions : f.regionsOf o = [])
    (hout : Pass.throughOpWithin settings n o held.owned s = .ok (out, s')) :
    Accounts f (held.absorb s'.aliases out) s' (f.book k o) := by
  obtain ⟨d, hd, -⟩ := exists_op?_of_parent? hat.parent
  obtain ⟨n, rfl, hcase⟩ := throughOpWithin_cases hw hd hat hout
  have hcons : d.kind.construct? = none := by
    simpa [isConstruct_of hd] using hplain o hat.visited
  have hclass := Op.classify_flat hcons (by rwa [regionsOf_of hd] at hregions)
    (hat.not_routine hw hd)
  have hbook : f.book k o = if d.allocated = [] ∧ d.freed = [] then
      some ((f.views o).foldl (fun k pair => k.merge pair.1 pair.2) k)
    else (d.freed.dedup.foldlM Balances.debit k).map fun k =>
      d.allocated.foldl Balances.credit k := by
    simp [book, allocatedOf, freedOf, hd]
  rw [hbook]
  -- the balances tell effects from plain operations as the classes do
  split at hclass
  · rename_i hnone
    rw [if_pos hnone]
    cases hcase with
    | plain pairs _ hout hroutine haliases hpairs =>
      have hviews := (plainAliases_eq_views hpairs).trans (hat.views_eq hw hplain hd)
      obtain ⟨δ, hδ⟩ := hat.threaded.embedded
      obtain ⟨hmerged, hconfined⟩ := h.balances.mergeAll hat.threaded.classes h.confined
        hδ.change.keeps.size_values (hw.views_known o)
      rw [hviews] at haliases
      subst hout
      refine ⟨?_, ?_, h.released⟩
      · rw [haliases]
        exact hmerged
      · rw [haliases, hroutine]
        exact hconfined
    | effects _ _ heffects => cases hclass.symm.trans heffects
    | unknown _ hunknown => cases hclass.symm.trans hunknown
    | construct _ _ _ _ _ hkind => cases hcons.symm.trans hkind
  · rename_i hsome
    rw [if_neg hsome]
    cases hcase with
    | effects next post _ _ hown hreleased => exact h.effects hw hplain hat hd hown hreleased
    | plain _ hplain => cases hclass.symm.trans hplain
    | unknown _ hunknown => cases hclass.symm.trans hunknown
    | construct _ _ _ _ _ hkind => cases hcons.symm.trans hkind

/-- The whole body, by induction: once a debit has been refused, what was passed on stays so. -/
theorem Tracks.run (h : Tracks f k held s) (hat : AtOps f s b front l t held.owned)
    (hflat : ∀ o ∈ l, f.regionsOf o = [])
    (hl : Pass.throughOps (Pass.throughOpWithin settings n) l held s = .ok (held', s')) :
    Accounts f held' s' (l.foldlM f.book k) := by
  induction l generalizing k held s front with
  | nil =>
    cases hl
    exact h
  | cons o l ih =>
    obtain ⟨ho, hflat⟩ := List.forall_mem_cons.mp hflat
    obtain ⟨out, mid, hout, hl⟩ := throughOps_cons hl
    have hstep := h.step hw hplain hat.first ho hout
    obtain ⟨new, hnext, -⟩ := hat.next (throughOpWithin_spec hw settings n) hw hout
    rw [List.foldlM_cons]
    cases hbook : f.book k o with
    | some k' =>
      rw [hbook] at hstep
      exact ih hstep hnext hflat hl
    | none =>
      -- what has been passed on by now is still there at the end
      rw [hbook] at hstep
      intro hempty
      apply hstep
      refine ValueSet.ext_mem fun v => ⟨fun hv => ?_, fun hv => absurd hv ValueSet.not_mem_empty⟩
      rw [← hempty]
      exact (throughOps_invariant (P := fun held _ => v ∈ held.released)
        (fun c _ hv => Holdings.released_absorb hv) hv hl).1

end Steps

/-! ## Whole routines -/

namespace Routine.StraightLine

variable (hf : f.StraightLine b body t) (hw : f.WellFormed)
include hf

/-- The body of the routine is found. -/
theorem bodyBlock?_ne_none : Pass.bodyBlock? f.root (.start f) ≠ .ok (none, s) := by
  intro h
  obtain ⟨g, hg, hblock⟩ := hf.only
  obtain ⟨d, hd, h⟩ := Pass.ask_bind_eq_ok.mp h
  have hd : f.op? f.root = some d := op_eq_ok.mp hd
  rw [regionsOf_of hd] at hg
  obtain ⟨gs, hregions⟩ := List.head?_eq_some_iff.mp hg
  rw [hregions] at h
  have hb := singleBlock?_eq_ok (Pass.ask_eq_ok.mp h).1
  have hblock : (Session.start f).routine.blocksOf g = [b] := hblock
  simp [hblock] at hb

include hw

theorem enters : f.Enters f.root b := by
  obtain ⟨name, hkind⟩ := hw.root_routine
  obtain ⟨d, hd, hdkind⟩ := exists_op?_of_kind? hkind
  obtain ⟨g, hg, hblock⟩ := hf.only
  rw [regionsOf_of hd] at hg
  refine ⟨d, hd, ?_⟩
  rw [Op.classify_of_routine hdkind]
  exact ⟨g, hg, hblock⟩

/-- Nothing is treated but the root and the operations of its body. -/
theorem visited (hvisited : f.Visited o) : o = f.root ∨ o ∈ body := by
  induction hvisited with
  | refl => exact .inl rfl
  | tail _ hleads ih =>
    obtain ⟨c, inner, last, henters, hlist, hmem⟩ := hleads
    refine .inr ?_
    -- from the root one comes to its body, and from there no further
    rcases ih with rfl | hbody
    · obtain rfl := hw.root_block_unique henters (hf.enters hw)
      rwa [(List.append_inj' (hlist.symm.trans hf.list) rfl).1] at hmem
    · obtain ⟨d, hd⟩ : ∃ d, f.op? _ = some d := henters.imp fun _ h => h.1
      have hnone := (hf.flat _ hbody).1
      rw [regionsOf_of hd] at hnone
      have hc := henters.mem_blocks hd
      simp [hnone] at hc

theorem withoutConstructs : f.WithoutConstructs := by
  intro o ho
  rcases hf.visited hw ho with rfl | hbody
  · exact hw.isConstruct_root
  · exact (hf.flat o hbody).2

/-- The body of the routine passes a release on if and only if a debit is refused. -/
theorem released_iff {last : Session}
    (h : Pass.throughBlock settings (Pass.throughOpWithin settings n) b false (.start f) =
      .ok (out, last)) : out.released = ∅ ↔ (body.foldlM f.book .start).isSome := by
  obtain ⟨pass⟩ := throughBlock_stages (throughOpWithin_spec hw settings n) hw (.start hw) .refl
    (hf.enters hw) (fun h => by cases h)
    ((AtBlocks.body hw (hf.enters hw)).untouched b (by simp)) h
  -- the block begins with nothing, since its arguments belong to the caller
  obtain ⟨howned, hopened⟩ := Pass.pure_eq_ok.mp pass.opens
  have hbody := (List.append_inj' (pass.original.symm.trans hf.list) rfl).1
  have hstart : Tracks f .start ⟨pass.owned, ∅⟩ pass.opened := by
    rw [← howned, ← hopened]
    exact .start f
  have hend := hstart.run hw (hf.withoutConstructs hw) pass.atOps
    (fun o ho => (hf.flat o (hbody ▸ ho)).1) pass.walks
  rw [hbody] at hend
  rw [pass.released]
  cases hwalk : body.foldlM f.book .start with
  | some k =>
    rw [hwalk] at hend
    simp [hend.released]
  | none =>
    rw [hwalk] at hend
    have hpassed : pass.held.released ≠ ∅ := hend
    simp [hpassed]

/-- No operation of the body is rejected. -/
theorem not_rejected :
    Pass.throughBlock settings (Pass.throughOpWithin settings n) b false (.start f) ≠
      .error (.rejected reason) := by
  intro h
  have hat := AtBlocks.body hw (hf.enters hw)
  cases throughBlock_rejects h with
  | openEnded hnone _ => cases terminator?_eq_of hf.list hf.ends hnone
  | @inOp _ q owned opened mid pre post held hfound hopens hbody hpre hq =>
    have hstart := openBlock_start hw (.start hw) .refl (hf.enters hw)
      (fun h => by cases h) (hat.untouched b (by simp)) hfound hopens hbody
    obtain ⟨front, hatq, -⟩ := hstart.atOps.walk (throughOpWithin_spec hw settings n) hw hpre
    have hatq := hatq.first
    cases n with
    | zero => cases hq
    | succ n =>
      obtain ⟨d, hd, -⟩ := exists_op?_of_parent? hatq.parent
      have hmem : q ∈ body := by
        rcases hf.visited hw hatq.visited with rfl | hmem
        · cases hw.root_unlinked.symm.trans hatq.parent
        · exact hmem
      obtain ⟨hregions, hcons⟩ := hf.flat q hmem
      rw [regionsOf_of hd] at hregions
      have hcons : d.kind.construct? = none := by simpa [isConstruct_of hd] using hcons
      have hclass := Op.classify_flat hcons hregions (hatq.not_routine hw hd)
      -- neither class has an objection of its own, and there is no block to be rejected in
      cases throughOp_rejects (throughOpWithin_spec hw settings n) hw hd hatq hq with
      | atOnce _ hobjection =>
        rw [hclass] at hobjection
        split at hobjection <;> cases hobjection
      | inside _ _ hhalt =>
        rw [hregions] at hhalt
        cases hhalt with
        | inBlock hbs => simp at hbs
        | afterBlock hbs => simp at hbs
      | reconciles _ _ _ _ _ _ hkind => cases hcons.symm.trans hkind

end Routine.StraightLine

/-- **Counting decides about routines without control flow.** Ownership can be threaded through such
a routine if and only if, from left to right, no operation frees more of a class than is owned of
it. Otherwise the routine is rejected at its root. -/
theorem threadOwnership_straightLine (hw : f.WellFormed) (hf : f.StraightLine b body t)
    (settings : Settings) (hverify : settings.verify = false) :
    ((∃ answer, f.threadOwnership settings = .ok answer) ↔
        (body.foldlM f.book .start).isSome) ∧
      (body.foldlM f.book .start = none → ∃ name, f.name = .ok name ∧
        f.threadOwnership settings = .error (.rejected (.invalidRealloc f.root name))) := by
  rcases (threadOwnership_agree hw.coherent (Eq.refl settings.transfer)
    (Eq.refl settings.verify)).symm with ⟨report, r, -, hok, -⟩ | ⟨reason, herror, -⟩
  · -- in a run with an answer the body has passed nothing on
    obtain ⟨out, final, hroot, -⟩ := threadOwnership_eq_ok hok
    obtain ⟨c, outcome, henters, hgoes, hreleased, -⟩ := threadFromRoot_block hw hroot
    obtain rfl := hw.root_block_unique henters (hf.enters hw)
    have hsome := (hf.released_iff hw hgoes).mp hreleased
    exact ⟨⟨fun _ => hsome, fun _ => ⟨_, hok⟩⟩, fun hnone => by simp [hnone] at hsome⟩
  · -- otherwise the body is there and is not rejected, so it has passed something on
    cases threadFromRoot_rejects hw (threadFromRoot_of_unchecked hverify herror) with
    | noBody hbody => exact absurd hbody hf.bodyBlock?_ne_none
    | inBody _ henters hblock =>
      obtain rfl := hw.root_block_unique henters (hf.enters hw)
      exact absurd hblock (hf.not_rejected hw)
    | @afterBody c out last name _ henters hgoes hreleased hname hreason =>
      obtain rfl := hw.root_block_unique henters (hf.enters hw)
      have hnone := mt (hf.released_iff hw hgoes).mpr hreleased
      refine ⟨⟨fun ⟨answer, hok⟩ => ?_, fun hsome => absurd hsome hnone⟩, fun _ =>
        ⟨name, hname, hreason ▸ herror⟩⟩
      rw [herror] at hok
      cases hok

/-- One of two buffers is chosen. The choice is freed, and then given up for a new buffer. After
that the first of the two is freed again, as often as asked for. -/
def chosen (again : Nat) : Edit Unit := do
  let entry : InsertPoint := .atEnd ⟨0⟩
  let ty : Ty := .buffer .f32 1
  let first ← Emit.alloc entry ty
  let second ← Emit.alloc entry ty
  let _ ← Emit.generic entry "select" [first, second] [ty] []
  let _ ← Emit.dealloc entry ⟨2⟩
  let new ← Emit.realloc entry ⟨2⟩ ty
  for _ in List.range again do
    let _ ← Emit.dealloc entry first
  let _ ← Emit.ret entry [new]

def chosenRoutine (again : Nat) : Routine := (chosen again).build "chosen" []

/-- The two buffers cover both frees of the choice, and no more. -/
theorem threadOwnership_straightLine_chosen :
    ((chosenRoutine 0).WellFormed ∧
        (chosenRoutine 0).StraightLine ⟨0⟩ [⟨1⟩, ⟨2⟩, ⟨3⟩, ⟨4⟩, ⟨5⟩] ⟨6⟩ ∧
        ∃ answer, (chosenRoutine 0).threadOwnership { verify := false } = .ok answer) ∧
      (chosenRoutine 1).WellFormed ∧
      (chosenRoutine 1).StraightLine ⟨0⟩ [⟨1⟩, ⟨2⟩, ⟨3⟩, ⟨4⟩, ⟨5⟩, ⟨6⟩] ⟨7⟩ ∧
      ∃ name, (chosenRoutine 1).name = .ok name ∧
        (chosenRoutine 1).threadOwnership { verify := false } =
          .error (.rejected (.invalidRealloc (chosenRoutine 1).root name)) := by
  have hw₀ : (chosenRoutine 0).WellFormed := wellFormed_of_check (by decide +kernel)
  have hf₀ : (chosenRoutine 0).StraightLine ⟨0⟩ [⟨1⟩, ⟨2⟩, ⟨3⟩, ⟨4⟩, ⟨5⟩] ⟨6⟩ :=
    ⟨⟨⟨0⟩, by decide +kernel⟩, by decide +kernel, by decide +kernel, by decide +kernel⟩
  have hw₁ : (chosenRoutine 1).WellFormed := wellFormed_of_check (by decide +kernel)
  have hf₁ : (chosenRoutine 1).StraightLine ⟨0⟩ [⟨1⟩, ⟨2⟩, ⟨3⟩, ⟨4⟩, ⟨5⟩, ⟨6⟩] ⟨7⟩ :=
    ⟨⟨⟨0⟩, by decide +kernel⟩, by decide +kernel, by decide +kernel, by decide +kernel⟩
  have hrefused : ([⟨1⟩, ⟨2⟩, ⟨3⟩, ⟨4⟩, ⟨5⟩, ⟨6⟩].foldlM (chosenRoutine 1).book .start).isNone :=
    by decide +kernel
  exact ⟨⟨hw₀, hf₀,
      (threadOwnership_straightLine hw₀ hf₀ { verify := false } rfl).1.mpr (by decide +kernel)⟩,
    hw₁, hf₁, (threadOwnership_straightLine hw₁ hf₁ { verify := false } rfl).2
      (Option.isNone_iff_eq_none.mp hrefused)⟩

/-- A buffer is allocated in the body of the routine, which has a second block. -/
def detour : Edit Unit := do
  let entry : InsertPoint := .atEnd ⟨0⟩
  let _ ← Emit.alloc entry (.buffer .f32 1)
  let _ ← Emit.ret entry []
  let other ← fun r => r.createBlock ⟨0⟩ []
  let _ ← Emit.ret (.atEnd other) []

def detourRoutine : Routine := detour.build "detour" []

/-- The result of a loop without regions is freed. -/
def hollow : Edit Unit := do
  let entry : InsertPoint := .atEnd ⟨0⟩
  let _ ← Emit.operation entry .whileLoop [] [.buffer .f32 1] 0
  let _ ← Emit.dealloc entry ⟨0⟩
  let _ ← Emit.ret entry []

def hollowRoutine : Routine := hollow.build "hollow" []

/-- Without a second block the first routine would be accepted, since nothing is refused in it. And
in the second one a debit is refused, but the loop is given an indicator that makes up for it. -/
theorem straightLine_conditions_needed :
    (detourRoutine.WellFormed ∧ detourRoutine.opsOf ⟨0⟩ = [⟨1⟩] ++ [⟨2⟩] ∧
        detourRoutine.isTerminator ⟨2⟩ = true ∧
        (∀ o ∈ detourRoutine.opsOf ⟨0⟩, detourRoutine.regionsOf o = []) ∧
        ([⟨1⟩].foldlM detourRoutine.book .start).isSome ∧
        detourRoutine.threadOwnership { verify := false } =
          .error (.rejected (.multiBlockRegion ⟨0⟩ "detour"))) ∧
      hollowRoutine.WellFormed ∧ hollowRoutine.blocksOf ⟨0⟩ = [⟨0⟩] ∧
      hollowRoutine.opsOf ⟨0⟩ = [⟨1⟩, ⟨2⟩] ++ [⟨3⟩] ∧ hollowRoutine.isTerminator ⟨3⟩ = true ∧
      (∀ o ∈ hollowRoutine.opsOf ⟨0⟩, hollowRoutine.regionsOf o = []) ∧
      ([⟨1⟩, ⟨2⟩].foldlM hollowRoutine.book .start).isNone ∧
      ∃ answer, hollowRoutine.threadOwnership { verify := false } = .ok answer :=
  ⟨⟨wellFormed_of_check (by decide +kernel), by decide +kernel, by decide +kernel,
      by decide +kernel, by decide +kernel, eq_error_of_failsWith (by decide +kernel)⟩,
    wellFormed_of_check (by decide +kernel), by decide +kernel, by decide +kernel,
    by decide +kernel, by decide +kernel, by decide +kernel, exists_of_toBool (by decide +kernel)⟩

end BufferOwnership
