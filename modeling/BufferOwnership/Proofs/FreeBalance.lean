import BufferOwnership.Proofs.Cancellation
import BufferOwnership.Proofs.Conservation
import BufferOwnership.Proofs.Visits

/-!
# Frees and owns in a block

Without structured control flow nothing is handed from block to block, so the books of a block
balance on their own. Each own that is inserted has its indicator consumed at most once, and the
indicators that are not consumed are as many as the values that are freed in the block: each of
these strikes off one that the block owns (`Holdings.length_absorb`), and what the block owns when
it closes is consumed once (`Transits.settled`).
-/

namespace BufferOwnership

open Routine

namespace Routine

def freedOf (r : Routine) (o : OpId) : List ValueId := (r.op? o).elim [] Op.freed

/-- The owns in a block of `r` that the routine `f` it comes from has not. -/
def insertedOwns (f r : Routine) (b : BlockId) : List OpId :=
  (r.opsOf b).filter fun x => f.op? x = none ∧ r.kind? x = some .own

/-- The indicators that were made in a block. -/
def madeIn (f r : Routine) (b : BlockId) : List ValueId :=
  (f.insertedOwns r b).flatMap r.resultsOf

/-- How often an indicator is consumed, by operands of live operations and by what is returned. -/
def consumption (r : Routine) (returned : List ValueId) (i : ValueId) : Nat :=
  (r.uses i).length + returned.count i

/-- No structured control flow is treated. -/
def WithoutConstructs (f : Routine) : Prop := ∀ o, f.Visited o → f.isConstruct o = false

end Routine

variable {f r r' : Routine} {s s' final : Session} {b c : BlockId} {o x t : OpId}
variable {front rest pre post l : List OpId} {i v : ValueId} {d : Op} {settings : Settings}
variable {fuel : Nat} {out : Outcome} {k : Transit} {indicators : List ValueId} {owned : ValueSet}
variable {treat : OpPass}

/-- Of a list without repetition, as many are missing from a part as it is longer. -/
theorem countP_not_mem_add {α : Type} [DecidableEq α] {l a : List α} (hl : l.Nodup) (ha : a.Nodup)
    (hsub : ∀ x ∈ a, x ∈ l) : l.countP (fun x => x ∉ a) + a.length = l.length := by
  -- the members of the list that are in the part are the part, in another order
  have hperm : (l.filter fun x => x ∈ a).Perm a := by
    refine (List.perm_ext_iff_of_nodup (hl.filter _) ha).mpr fun x => ?_
    simpa using hsub x
  have hsplit := List.length_eq_countP_add_countP (fun x => decide (x ∈ a)) (l := l)
  rw [List.countP_eq_length_filter, hperm.length_eq] at hsplit
  simp only [decide_not, decide_eq_true_eq] at hsplit ⊢
  omega

/-! ## What is made in a block -/

theorem Routine.mem_insertedOwns : x ∈ f.insertedOwns r b ↔
    x ∈ r.opsOf b ∧ f.op? x = none ∧ r.kind? x = some .own := by
  simp [insertedOwns]

theorem Routine.mem_madeIn : i ∈ f.madeIn r b ↔ ∃ x ∈ f.insertedOwns r b, i ∈ r.resultsOf x :=
  List.mem_flatMap

theorem Routine.introduced_of_mem (h : i ∈ f.madeIn r b) : Introduced f r i := by
  obtain ⟨x, hx, hi⟩ := mem_madeIn.mp h
  obtain ⟨-, hnone, hown⟩ := mem_insertedOwns.mp hx
  exact .own hnone hown hi

/-- The last operation of a block frees nothing. -/
theorem Routine.freedOf_of_terminator (h : f.isTerminator t = true) : f.freedOf t = [] := by
  cases hd : f.op? t with
  | none => simp [freedOf, hd]
  | some d =>
    by_contra hne
    have hfreed : d.freed ≠ [] := by simpa [freedOf, hd] using hne
    have hnot := (Op.kind_of_effects (.inr hfreed)).2.1
    simp [isTerminator_of hd, hnot] at h

/-- Every own that was inserted in a block has one result. -/
def Single (f r : Routine) (b : BlockId) : Prop :=
  ∀ x ∈ f.insertedOwns r b, ∃ i, r.resultsOf x = [i]

section Kept

variable (h : Kept r r') (hl : r.Linked) (hops : r'.opsOf b = r.opsOf b)
include h hl hops

/-- Where a block keeps its operations, it keeps its owns. -/
theorem Kept.insertedOwns : f.insertedOwns r' b = f.insertedOwns r b := by
  unfold Routine.insertedOwns
  rw [hops]
  exact List.filter_congr fun x hx => by rw [h.kind?_eq (hl.op?_of_listed hx)]

theorem Kept.madeIn : f.madeIn r' b = f.madeIn r b := by
  unfold Routine.madeIn
  rw [h.insertedOwns hl hops]
  exact List.flatMap_congr fun x hx => h.resultsOf (hl.op?_of_listed (mem_insertedOwns.mp hx).1)

theorem Kept.single (hs : Single f r b) : Single f r' b := by
  intro x hx
  rw [h.insertedOwns hl hops] at hx
  rw [h.resultsOf (hl.op?_of_listed (mem_insertedOwns.mp hx).1)]
  exact hs x hx

end Kept

section Emitted

variable {kind : OpKind} {operands : List ValueId} {types : List Ty}
variable (h : Emitted r r' b pre post kind operands types) (hl : r.Linked)
  (hsize : f.ops.size ≤ r.ops.size)
include h hl hsize

/-- An emission adds an own to a block if it puts one there. -/
theorem Emitted.insertedOwns_perm (c : BlockId) : (f.insertedOwns r' c).Perm
    ((if c = b ∧ kind = .own then [r.freshOp] else []) ++ f.insertedOwns r c) := by
  have hfresh : f.op? r.freshOp = none := by
    rw [op?, Array.getElem?_eq_none]
    exact hsize
  have hkind : r'.kind? r.freshOp = some kind := kind?_of h.op?_fresh
  have hold : ∀ x ∈ r.opsOf c, r'.kind? x = r.kind? x := fun x hx =>
    h.kept.kind?_eq (hl.op?_of_listed hx)
  -- what was in the block counts as before
  have hfilter : ∀ l : List OpId, (∀ x ∈ l, x ∈ r.opsOf c) →
      l.filter (fun x => f.op? x = none ∧ r'.kind? x = some .own) =
        l.filter fun x => f.op? x = none ∧ r.kind? x = some .own := fun l hl =>
    List.filter_congr fun x hx => by rw [hold x (hl x hx)]
  unfold Routine.insertedOwns
  rw [h.opsOf_eq]
  by_cases hc : c = b
  · subst hc
    have hlist := h.opsOf_old
    rw [if_pos rfl, hlist, List.filter_append, List.filter_cons,
      hfilter pre (fun x hx => by simp [hlist, hx]), hfilter post (fun x hx => by simp [hlist, hx]),
      List.filter_append]
    by_cases hown : kind = .own
    · simp only [hfresh, hkind, hown, and_self, decide_true, if_true]
      exact List.perm_middle
    · simp [hfresh, hkind, hown]
  · rw [if_neg hc, hfilter _ fun x hx => hx]
    simp [hc]

/-- The indicators made in a block grow by the results of an own that is put there. -/
theorem Emitted.madeIn_perm (c : BlockId) : (f.madeIn r' c).Perm
    ((if c = b ∧ kind = .own then r.freshValues types.length else []) ++ f.madeIn r c) := by
  have hold : ∀ x ∈ f.insertedOwns r c, r'.resultsOf x = r.resultsOf x := fun x hx =>
    h.kept.resultsOf (hl.op?_of_listed (mem_insertedOwns.mp hx).1)
  have hresults : r'.resultsOf r.freshOp = r.freshValues types.length := resultsOf_of h.op?_fresh
  have hperm := (h.insertedOwns_perm hl hsize c).flatMap_right r'.resultsOf
  rw [List.flatMap_append, List.flatMap_congr hold] at hperm
  split <;> rename_i hown <;> simpa [hown, hresults, Routine.madeIn] using hperm

theorem Emitted.single (htypes : kind = .own → types.length = 1) (hs : Single f r c) :
    Single f r' c := by
  intro x hx
  rcases List.mem_append.mp ((h.insertedOwns_perm hl hsize c).mem_iff.mp hx) with hx | hx
  · obtain ⟨⟨-, hown⟩, rfl⟩ : (c = b ∧ kind = .own) ∧ x = r.freshOp := by
      split at hx
      · rename_i hown
        exact ⟨hown, List.mem_singleton.mp hx⟩
      · cases hx
    rw [resultsOf_of h.op?_fresh, htypes hown]
    exact ⟨_, rfl⟩
  · rw [h.kept.resultsOf (hl.op?_of_listed (mem_insertedOwns.mp hx).1)]
    exact hs x hx

end Emitted

/-- Operations that allocate make an own for each buffer, next to one another in their block. -/
theorem ownAll_madeIn {next : OpId} {buffers : List ValueId} (hl : s.routine.Linked)
    (hsize : f.ops.size ≤ s.routine.ops.size) (hlist : s.routine.opsOf b = pre ++ next :: post)
    (h : Pass.ownAll (.before next) buffers s = .ok (indicators, s')) :
    (f.madeIn s'.routine b).Perm (indicators ++ f.madeIn s.routine b) ∧
      (Single f s.routine b → Single f s'.routine b) := by
  induction buffers generalizing s pre indicators with
  | nil =>
    cases h
    exact ⟨.refl _, id⟩
  | cons v buffers ih =>
    obtain ⟨i, others, mid, rfl, hown, hothers⟩ := Pass.ownAll_cons h
    obtain ⟨rfl, -, x, hemit⟩ := Pass.own_eq_ok hown
    obtain ⟨rfl, hem⟩ := Emit.operation_before hl hlist hemit
    have hlist' : mid.routine.opsOf b = (pre ++ [s.routine.freshOp]) ++ next :: post := by
      simp [hem.opsOf_eq]
    obtain ⟨hperm, hsingle⟩ :=
      ih (hl.operation hemit) (by rw [hem.size_ops]; omega) hlist' hothers
    have hfirst := hem.madeIn_perm hl hsize b
    rw [if_pos ⟨rfl, rfl⟩] at hfirst
    refine ⟨?_, fun hs => hsingle (hem.single hl hsize (fun _ => rfl) hs)⟩
    exact (hperm.trans (hfirst.append_left _)).trans List.perm_middle

/-- Between two routines no own is put into a block. -/
structure OwnsKept (f : Routine) (b : BlockId) (r r' : Routine) : Prop where
  linked : r'.Linked
  size : f.ops.size ≤ r'.ops.size
  madeIn : (f.madeIn r' b).Perm (f.madeIn r b)
  single : Single f r b → Single f r' b

theorem OwnsKept.refl (hl : r.Linked) (hsize : f.ops.size ≤ r.ops.size) : OwnsKept f b r r :=
  ⟨hl, hsize, .refl _, id⟩

theorem OwnsKept.trans {r'' : Routine}
    (h : r.Linked → f.ops.size ≤ r.ops.size → OwnsKept f b r r')
    (h' : r'.Linked → f.ops.size ≤ r'.ops.size → OwnsKept f b r' r'') (hl : r.Linked)
    (hsize : f.ops.size ≤ r.ops.size) : OwnsKept f b r r'' := by
  obtain ⟨hl', hsize', hmade, hsingle⟩ := h hl hsize
  obtain ⟨hl'', hsize'', hmade', hsingle'⟩ := h' hl' hsize'
  exact ⟨hl'', hsize'', hmade'.trans hmade, fun hs => hsingle' (hsingle hs)⟩

theorem retain_ownsKept {point : InsertPoint} {retained owned : List ValueId}
    (h : Pass.retain point retained owned s = .ok (x, s')) (hl : s.routine.Linked)
    (hsize : f.ops.size ≤ s.routine.ops.size) :
    OwnsKept f b s.routine s'.routine := by
  obtain ⟨hemit, -⟩ := Pass.retain_eq_ok h
  obtain ⟨-, c, pre, post, -, hem⟩ := Emit.operation_emitted hemit
  refine ⟨hl.operation hemit, by rw [hem.size_ops]; omega, ?_, hem.single hl hsize (by simp)⟩
  simpa using hem.madeIn_perm hl hsize b

/-- Closing a block inserts retains only. -/
theorem closeBlock_ownsKept {acquired : List ValueId} (hb : Booked f s.routine)
    (hsize : f.ops.size ≤ s.routine.ops.size)
    (howned : ∀ i ∈ owned, i.index < s.routine.values.size)
    (h : Pass.closeBlock settings t owned s = .ok (acquired, s')) :
    OwnsKept f b s.routine s'.routine := by
  obtain ⟨escaping, mid, settled, -, hrelease, hsettle, -⟩ := closeBlock_settled hb howned h
  have hreleased := Pass.releaseUnescaped_chain
    (R := fun s s' => s.routine.Linked → f.ops.size ≤ s.routine.ops.size →
      OwnsKept f b s.routine s'.routine)
    (fun _ => .refl) .trans (fun _ _ _ => retain_ownsKept) hrelease
  refine .trans hreleased (Pass.settleGroups_chain
    (R := fun s s' => s.routine.Linked → f.ops.size ≤ s.routine.ops.size →
      OwnsKept f b s.routine s'.routine)
    (fun _ => .refl) .trans (fun _ hgroup => ?_) hsettle) hb.linked hsize
  rcases Pass.settleGroup_eq_ok hgroup with ⟨-, -, rfl⟩ | ⟨y, s₁, hretain, hroutine, -⟩
  · exact .refl
  · rw [hroutine]
    exact retain_ownsKept hretain

/-! ## What is struck off -/

namespace Holdings

variable {aliases : AliasClasses} {h : Holdings}

/-- Each value that is released strikes off an owned indicator, if nothing is passed on. -/
theorem length_foldl_release {l : List ValueId}
    (hnone : (l.foldl (release aliases) h).released = ∅) :
    (l.foldl (release aliases) h).owned.toList.length + l.length = h.owned.toList.length := by
  induction l generalizing h with
  | nil => rfl
  | cons v l ih =>
    have hrest := ih hnone
    cases hfind : h.owned.toList.find? (aliases.same v) with
    | some j =>
      -- one indicator goes for one value
      have hrelease : h.release aliases v = { h with owned := h.owned.erase j } := by
        simp [release, hfind]
      have hlength := length_erase (List.mem_of_find?_eq_some hfind : j ∈ h.owned)
      rw [hrelease] at hrest
      simp only [List.foldl_cons, List.length_cons, hrelease] at hrest ⊢
      omega
    | none =>
      -- the value would be passed on
      have hpassed : v ∈ (l.foldl (release aliases) (h.release aliases v)).released := by
        apply released_foldl
        simp [release, hfind]
      rw [List.foldl_cons] at hnone
      rw [hnone] at hpassed
      exact absurd hpassed ValueSet.not_mem_empty

/-- What a block owns is what it has acquired, with what was left of the rest. -/
theorem perm_absorb (aliases : AliasClasses) (hnodup : out.acquired.Nodup)
    (hnew : ∀ i ∈ out.acquired, i ∉ h.owned) :
    (h.absorb aliases out).owned.toList.Perm
      (out.acquired ++ (out.released.toList.foldl (release aliases) h).owned.toList) :=
  List.perm_iff_count.mpr
    (ValueSet.count_insertMany hnodup fun i hi hmem => hnew i hi (mem_owned_foldl hmem))

/-- What a block owns changes by what is released and acquired, if nothing is passed on. -/
theorem length_absorb (hnone : (h.absorb aliases out).released = ∅) (hnodup : out.acquired.Nodup)
    (hnew : ∀ i ∈ out.acquired, i ∉ h.owned) :
    (h.absorb aliases out).owned.toList.length + out.released.toList.length =
      h.owned.toList.length + out.acquired.length := by
  have hstruck := length_foldl_release hnone
  rw [(perm_absorb aliases hnodup hnew).length_eq, List.length_append]
  omega

end Holdings

/-! ## What is used -/

/-- The uses of an older indicator are its later uses and the times that it is handed on. -/
def UseBalance (f : Routine) (s : Session) (left : List ValueId) (s' : Session) : Prop :=
  ∀ v, Introduced f s.routine v →
    s'.routine.useCount v + left.count v = s.routine.useCount v

theorem BlocksPassed.useBalance {bs : List BlockId} {outs : List Outcome}
    (h : BlocksPassed settings treat false bs s outs s') (hw : f.WellFormed)
    (htreat : OpSpec f treat) (hat : AtBlocks f s o bs) (hnone : ∀ out ∈ outs, out.acquired = [])
    (hblocks : ∀ k, BlockCalls settings treat false bs s k → UseBalance f k.before k.out.acquired
      k.after) : UseBalance f s [] s' := by
  induction h with
  | nil => exact fun _ _ => rfl
  | @cons b rest s mid s' out outs hgoes _ ih =>
    obtain ⟨hrun, hat', -⟩ := hat.goes htreat hw (by simp) hgoes
    intro v hv
    have hfirst := hblocks _ (.first hgoes) v hv
    simp only [hnone out (by simp), List.count_nil, Nat.add_zero] at hfirst
    rw [← hfirst]
    apply ih hat' (fun out hout => hnone out (by simp [hout]))
      fun k hk => hblocks k (.later hgoes hk)
    exact hrun.keeps.introduced hat.threaded.wellFormed.linked hv

/-- If each operation moves two numbers apart by so much, then all of them do so by the sum. -/
theorem throughOps_apart {held held' : Holdings} {μ ν : Holdings → Session → Nat} {w : OpId → Nat}
    (hstep : ∀ c, OpCalls treat l held s c → μ c.heldAfter c.after + ν c.held c.before =
      μ c.held c.before + ν c.heldAfter c.after + w c.op)
    (h : Pass.throughOps treat l held s = .ok (held', s')) :
    μ held' s' + ν held s = μ held s + ν held' s' + (l.map w).sum := by
  induction l generalizing s held with
  | nil =>
    cases h
    rfl
  | cons o rest ih =>
    obtain ⟨out, mid, hout, h⟩ := throughOps_cons h
    have hfirst := hstep _ (.first hout)
    have hrest := ih (fun c hc => hstep c (.later hout hc)) h
    simp only [Call.heldAfter, List.map_cons, List.sum_cons] at hfirst ⊢
    omega

section Plain

variable {c : Call} (hw : f.WellFormed) (hplain : f.WithoutConstructs)
include hw

/-- A block hands on, of what was there before it, nothing that is not used less for it. -/
theorem Transit.Placed.useBalance (h : k.Placed f settings final fuel o)
    (hcalls : ∀ c front rest, Call.Placed f settings final fuel c k.block front rest →
      UseBalance f c.before [] c.after) : UseBalance f k.before k.out.acquired k.after := by
  intro v hv
  obtain ⟨pass⟩ := h.pass hw
  have hl := h.threaded.wellFormed.linked
  have hknown := hv.known hl
  obtain ⟨hopens, hfresh⟩ := openBlock_ledger (h.threaded.booked hw) pass.opens
  have hnot : ∀ {owned : ValueSet}, (∀ i ∈ owned, k.before.routine.values.size ≤ i.index) →
      owned.toList.count v = 0 := fun howned =>
    List.count_eq_zero.mpr fun hmem => Nat.not_lt.mpr (howned v hmem) hknown
  -- the operations of the block leave it alone, and the block does not own it
  have hwalk := Transit.Placed.walk pass (P := fun _ s => Introduced f s.routine v ∧
      s.routine.useCount v = k.before.routine.useCount v) ?_ ?_
  · obtain ⟨⟨hv', huses⟩, -⟩ := hwalk
    have hcloses := closeBlock_ledger (pass.threaded.booked hw)
      (fun i hi => (pass.tokens i hi).known) pass.closes
    have hwithin := (h.within_walk hw pass).1
    rw [hcloses.carried v hv', huses, hnot fun i hi => (hwithin i hi).2, Nat.add_zero]
  · rintro c hc ⟨hv', huses⟩
    obtain ⟨front, rest, hcall⟩ := h.call hw hc
    have hstep := hcalls c front rest hcall v hv'
    refine ⟨(hcall.run hw).keeps.introduced hcall.atOp.threaded.wellFormed.linked hv', ?_⟩
    rw [← huses, ← hstep]
    rfl
  · refine ⟨hopens.kept.introduced hl hv, ?_⟩
    have hcarried := hopens.carried v hv
    rwa [hnot fun i hi => (hfresh i hi).2] at hcarried

include hplain

omit hw in
/-- A treated operation is no construct. -/
theorem Call.Placed.not_construct {kind : ConstructKind}
    (h : c.Placed f settings final fuel b front rest) (hd : f.op? c.op = some d) :
    d.kind.construct? ≠ some kind := by
  intro hkind
  have hnot := hplain c.op h.atOp.visited
  simp [isConstruct_of hd, hkind] at hnot

/-- An operation consumes nothing that was there before it. The induction is on the fuel, which is
less for the operations inside. -/
theorem Call.Placed.useBalance (h : c.Placed f settings final fuel b front rest) :
    UseBalance f c.before [] c.after := by
  induction fuel generalizing c b front rest with
  | zero =>
    obtain ⟨n, d, hfuel, -⟩ := h.cases hw
    cases hfuel
  | succ fuel ih =>
    obtain ⟨_, d, hfuel, hd, hcase⟩ := h.cases hw
    obtain rfl := Nat.succ.inj hfuel
    have ht := h.atOp.threaded
    cases hcase with
    | effects next post _ _ hown _ =>
      -- all that is acquired here is new
      obtain ⟨hledger, hacquired⟩ := ownAll_ledger (ht.booked hw) (by simp [hd])
        (h.atOp.allocated_results hw hd) hown
      intro v hv
      have hnot : v ∉ c.out.acquired := fun hmem =>
        Nat.not_lt.mpr (hacquired.fresh v hmem) (hv.known ht.wellFormed.linked)
      have hcarried := hledger.carried v hv
      rwa [List.count_eq_zero.mpr hnot] at hcarried
    | plain _ _ _ hroutine =>
      intro v _
      rw [hroutine]
      rfl
    | unknown outs hclass _ hat hpassed houts =>
      refine hpassed.useBalance hw (throughOpWithin_spec hw settings fuel) hat
        (fun out hout => (houts out hout).2) fun k hk => ?_
      have hk : BlockCalls settings (Pass.throughOpWithin settings fuel) (f.isConstruct c.op)
          (d.regions.flatMap f.blocksOf) c.before k := isConstruct_of_unknown hd hclass ▸ hk
      have hplaced := h.into hw hd (hat.enters k.block hk.mem) hk
      exact hplaced.useBalance hw fun c' front rest hc' => ih hc'
    | construct kind _ _ _ _ hkind => exact absurd hkind (h.not_construct hplain hd)

/-! ## The books of a block -/

/-- What an operation acquires is what is made in its block meanwhile. -/
theorem Call.Placed.madeIn (h : c.Placed f settings final fuel b front rest) :
    (f.madeIn c.after.routine b).Perm (c.out.acquired ++ f.madeIn c.before.routine b) ∧
      (Single f c.before.routine b → Single f c.after.routine b) := by
  obtain ⟨n, d, rfl, hd, hcase⟩ := h.cases hw
  have ht := h.atOp.threaded
  have hl := ht.wellFormed.linked
  cases hcase with
  | effects next post _ hrest hown _ =>
    subst hrest
    have hlist : c.before.routine.opsOf b = (front ++ [c.op]) ++ next :: post := by
      simp [h.atOp.list]
    exact ownAll_madeIn hl ht.size_ops_le hlist hown
  | plain _ _ hnone hroutine =>
    rw [hroutine, hnone]
    exact ⟨.refl _, id⟩
  | unknown outs _ hnone hat hpassed _ =>
    have hrun := hpassed.run (throughOpWithin_spec hw settings n) hw hat (by simp)
    have hops := hrun.opsOf_parent hw h.atOp.visited h.atOp.parent (hat.holder? hw.linked)
    rw [hrun.keeps.madeIn hl hops, hnone]
    exact ⟨.refl _, hrun.keeps.single hl hops⟩
  | construct kind _ _ _ _ hkind => exact absurd hkind (h.not_construct hplain hd)

omit hw in
/-- Without constructs values keep their names, so an operation to be treated has its old entry. -/
theorem AtOp.entry_eq (hat : AtOp f s o owned b front rest) (hd : f.op? o = some d) :
    s.routine.op? o = some d := by
  obtain ⟨δ, hδ⟩ := hat.threaded.embedded
  have hvalue : δ.value = id := by
    funext v
    by_contra hne
    obtain ⟨p, hp, -⟩ := hδ.change.moved v hne
    obtain ⟨hvisited, hcons⟩ := hδ.renamed p hp
    rw [hplain p hvisited] at hcons
    cases hcons
  obtain ⟨hentry, -⟩ := hδ.intact_entry hd (hat.untouched.ops o .refl)
  rwa [hvalue, List.map_id] at hentry

/-- What an operation releases are the values that it frees. -/
theorem Call.Placed.length_released (h : c.Placed f settings final fuel b front rest) :
    c.out.released.toList.length = (f.freedOf c.op).toFinset.card := by
  obtain ⟨n, d, rfl, hd, hcase⟩ := h.cases hw
  have hfreed : f.freedOf c.op = d.freed := by simp [freedOf, hd]
  have hentry := h.atOp.entry_eq hplain hd
  -- an operation of another class frees nothing
  have hnone : d.classify ≠ .effects d.allocated d.freed → d.freed = [] := fun hclass => by
    by_contra hne
    exact hclass (Op.classify_of_effects (.inr hne))
  rw [hfreed]
  cases hcase with
  | effects next post _ _ _ hreleased =>
    rw [← List.toFinset_card_of_nodup c.out.released.nodup_toList]
    congr 1
    ext v
    rw [List.mem_toFinset, List.mem_toFinset]
    refine (hreleased v).trans ⟨fun ⟨e, he, hv⟩ => ?_, fun hv => ⟨d, hentry, hv⟩⟩
    rwa [Option.mem_unique hentry he]
  | plain _ hclass hout | unknown _ hclass hout =>
    rw [hnone (by simp [hclass]), hout]
    rfl
  | construct kind _ _ _ _ hkind => exact absurd hkind (h.not_construct hplain hd)

/-- What an operation acquires, it acquires once. -/
theorem Call.Placed.nodup_acquired (h : c.Placed f settings final fuel b front rest) :
    c.out.acquired.Nodup := by
  obtain ⟨n, d, rfl, hd, hcase⟩ := h.cases hw
  cases hcase with
  | effects next post _ _ hown _ =>
    obtain ⟨-, hacquired⟩ := ownAll_ledger (h.atOp.threaded.booked hw) (by simp [hd])
      (h.atOp.allocated_results hw hd) hown
    exact hacquired.nodup
  | plain _ _ hnone | unknown _ _ hnone =>
    rw [hnone]
    exact .nil
  | construct kind _ _ _ _ hkind => exact absurd hkind (h.not_construct hplain hd)

/-- What a block has made, since there were `n` values, is unused, and it owns a part of it. -/
structure Stocked (f : Routine) (b : BlockId) (n : Nat) (held : Holdings) (s : Session) :
    Prop where
  single : Single f s.routine b
  nodup : (f.madeIn s.routine b).Nodup
  made : ∀ i ∈ f.madeIn s.routine b, s.routine.useCount i = 0 ∧ n ≤ i.index
  owned : ∀ i ∈ held.owned, i ∈ f.madeIn s.routine b

/-- The stock after an operation: what is acquired is new and unused, the rest is left alone. -/
theorem Call.Placed.stocked {n : Nat} (h : c.Placed f settings final fuel b front rest)
    (hn : n ≤ c.before.routine.values.size) (hs : Stocked f b n c.held c.before) :
    Stocked f b n c.heldAfter c.after := by
  obtain ⟨hperm, hsingle⟩ := h.madeIn hw hplain
  have hl := h.atOp.threaded.wellFormed.linked
  have hmem : ∀ i, i ∈ f.madeIn c.after.routine b ↔
      i ∈ c.out.acquired ∨ i ∈ f.madeIn c.before.routine b := fun i => by
    rw [hperm.mem_iff, List.mem_append]
  refine ⟨hsingle hs.single, hperm.nodup_iff.mpr ?_, fun i hi => ?_, fun i hi => ?_⟩
  · refine List.nodup_append.mpr ⟨h.nodup_acquired hw hplain, hs.nodup, ?_⟩
    rintro i hi j hj rfl
    exact Nat.not_lt.mpr (h.acquired hw hi).2 ((introduced_of_mem hj).known hl)
  · rcases (hmem i).mp hi with hi | hi
    · exact ⟨(h.idle_acquired hw hi).unused, Nat.le_trans hn (h.acquired hw hi).2⟩
    · have hkept := h.useBalance hw hplain i (introduced_of_mem hi)
      exact ⟨hkept.trans (hs.made i hi).1, (hs.made i hi).2⟩
  · rcases Holdings.mem_owned_absorb hi with hi | hi
    · exact (hmem i).mpr (.inr (hs.owned i hi))
    · exact (hmem i).mpr (.inl hi)

section

variable (h : k.Placed f settings final fuel o)
variable (pass : k.Passage f settings (Pass.throughOpWithin settings fuel))
include h pass

/-- A block that is opened owns nothing, and nothing has been made in it. -/
theorem Transit.Placed.opened :
    pass.owned = ∅ ∧ f.insertedOwns pass.opened.routine k.block = [] := by
  have howns : k.ownsInputs = false := h.owns.trans (hplain o h.visited)
  have hopens := pass.opens
  rw [Pass.openBlock, if_neg (by simp [howns])] at hopens
  obtain ⟨hnone, -⟩ := Pass.pure_eq_ok.mp hopens
  refine ⟨hnone.symm, List.filter_eq_nil_iff.mpr fun x hx => ?_⟩
  rw [pass.run_opens.opsOf id, h.untouched.list] at hx
  simp [hw.linked.op?_of_listed hx]

/-- The stock of a block when it closes. -/
theorem Transit.Placed.stocked :
    Stocked f k.block k.before.routine.values.size pass.held pass.walked := by
  obtain ⟨howned, hnone⟩ := h.opened hw hplain pass
  have hmade : f.madeIn pass.opened.routine k.block = [] := by simp [madeIn, hnone]
  have hwalk := walk pass (P := fun held s =>
    Stocked f k.block k.before.routine.values.size held s ∧
      k.before.routine.values.size ≤ s.routine.values.size) ?_ ?_
  · exact hwalk.1.1
  · rintro c hc ⟨hs, hle⟩
    obtain ⟨front, rest, hcall⟩ := h.call hw hc
    exact ⟨hcall.stocked hw hplain hle hs, Nat.le_trans hle (hcall.run hw).keeps.size_values⟩
  · refine ⟨⟨?_, ?_, ?_, ?_⟩, pass.run_opens.keeps.size_values⟩ <;>
      simp [Single, hnone, hmade, howned]

end

/-- Of the indicators that a block makes, it owns all but as many as values are freed in it. -/
theorem Transit.Placed.length_madeIn (h : k.Placed f settings final fuel o)
    (hreleased : k.out.released = ∅)
    (pass : k.Passage f settings (Pass.throughOpWithin settings fuel)) :
    (f.madeIn pass.walked.routine k.block).length = pass.held.owned.toList.length +
      (pass.body.map fun p => (f.freedOf p).toFinset.card).sum := by
  obtain ⟨howned, hnone⟩ := h.opened hw hplain pass
  have hsum := throughOps_apart (μ := fun _ s => (f.madeIn s.routine k.block).length)
    (ν := fun held _ => held.owned.toList.length)
    (w := fun p => (f.freedOf p).toFinset.card) (fun c hc => ?_) pass.walks
  · simpa [madeIn, hnone, howned] using hsum
  have hc := pass.calls hc
  obtain ⟨front, rest, hcall⟩ := h.call hw hc
  -- nothing is passed on by an operation, since the block passes nothing on in the end
  have hpassed : c.heldAfter.released = ∅ := by
    refine ValueSet.ext_mem fun v => ⟨fun hv => ?_, fun hv => absurd hv ValueSet.not_mem_empty⟩
    have hend : v ∈ pass.held.released :=
      walk_from hw pass (P := fun held _ => v ∈ held.released)
        (fun c' _ hv' => Holdings.released_absorb hv') hc hv
    rwa [← pass.released, hreleased] at hend
  have hlength := Holdings.length_absorb hpassed (hcall.nodup_acquired hw hplain) fun i hi hmem =>
    Nat.not_lt.mpr (hcall.acquired hw hi).2 (hcall.atOp.owned i hmem).known
  have hmade := (hcall.madeIn hw hplain).1.length_eq
  rw [hcall.length_released hw hplain] at hlength
  rw [List.length_append] at hmade
  rw [Call.heldAfter]
  omega

/-! ## The rest of a run -/

/-- From one operation of a block on, what the block does not own is left alone. -/
theorem Transit.Placed.useBalance_from (h : k.Placed f settings final fuel o)
    (hc : k.Calls (Pass.throughOpWithin settings fuel) c) (hv : Introduced f c.after.routine v)
    (hnot : v ∉ c.heldAfter.owned) :
    Introduced f k.after.routine v ∧
      k.after.routine.useCount v + k.out.acquired.count v = c.after.routine.useCount v := by
  obtain ⟨pass⟩ := h.pass hw
  have hend := walk_from hw pass (P := fun held s => Introduced f s.routine v ∧
    s.routine.useCount v = c.after.routine.useCount v ∧ v ∉ held.owned) ?_ hc ⟨hv, rfl, hnot⟩
  · obtain ⟨hv', huses, hnot'⟩ := hend
    have hcloses := closeBlock_ledger (pass.threaded.booked hw)
      (fun i hi => (pass.tokens i hi).known) pass.closes
    refine ⟨hcloses.kept.introduced pass.threaded.wellFormed.linked hv', ?_⟩
    rw [hcloses.carried v hv', huses, List.count_eq_zero.mpr hnot', Nat.add_zero]
  · rintro c' hc' ⟨hv', huses, hnot'⟩
    obtain ⟨front, rest, hcall⟩ := h.call hw hc'
    have hl := hcall.atOp.threaded.wellFormed.linked
    refine ⟨(hcall.run hw).keeps.introduced hl hv', ?_, fun hmem => ?_⟩
    · rw [← huses, ← hcall.useBalance hw hplain v hv']
      rfl
    · rcases Holdings.mem_owned_absorb hmem with hmem | hmem
      · exact hnot' hmem
      · exact Nat.not_lt.mpr (hcall.acquired hw hmem).2 (hv'.known hl)

/-- A block inside hands nothing on, and what comes after it leaves it and all indicators alone. -/
theorem Call.Placed.behind (h : c.Placed f settings final (fuel + 1) b front rest)
    (hd : f.op? c.op = some d) (henters : f.Enters c.op k.block)
    (hk : BlockCalls settings (Pass.throughOpWithin settings fuel) (f.isConstruct c.op)
      (d.regions.flatMap f.blocksOf) c.before k) :
    c.out = .none ∧ k.out.released = ∅ ∧ k.out.acquired = [] ∧
      Kept k.after.routine c.after.routine ∧
      c.after.routine.opsOf k.block = k.after.routine.opsOf k.block ∧
      UseBalance f k.after [] c.after := by
  have htreat : OpSpec f _ := throughOpWithin_spec hw settings fuel
  cases throughOp_cases htreat hw hd h.atOp h.treats with
  | effects _ _ hclass => exact absurd hclass ((henters.classify hd).2 _ _)
  | plain _ hclass => exact absurd hclass (henters.classify hd).1
  | construct kind _ _ _ _ hkind => exact absurd hkind (h.not_construct hplain hd)
  | unknown outs hclass hnone hat hpassed houts =>
    have hcons := isConstruct_of_unknown hd hclass
    rw [hcons] at hk
    obtain ⟨howned, hgoes, bs₁, bs₂, outs₁, outs₂, hbs, rfl, hbefore, hafter, hlater⟩ :=
      hk.split hpassed
    obtain ⟨hreleased, hacquired⟩ := houts k.out (by simp)
    -- the blocks after this one
    have hat₁ : AtBlocks f k.before c.op ([k.block] ++ bs₂) :=
      (hbs ▸ hat).next hw (hbefore.run htreat hw (hbs ▸ hat).first (by simp))
    obtain ⟨-, hat₂, -⟩ := AtBlocks.goes hat₁ htreat hw (by simp [howned]) hgoes
    have hrun := hafter.run htreat hw hat₂ (by simp)
    refine ⟨hnone, hreleased, hacquired, hrun.keeps, ?_, ?_⟩
    · exact hrun.opsOf (((hat₁.avoids hw).2 k.block (by simp)).blocks k.block (.inl rfl))
    · apply hafter.useBalance hw htreat hat₂ fun out hout => (houts out (by simp [hout])).2
      intro k' hk'
      have hk' := hlater k' hk'
      have hin := hat.enters k'.block hk'.mem
      rw [← hcons] at hk'
      exact (h.into hw hd hin hk').useBalance hw fun c' _ _ hc' => hc'.useBalance hw hplain

/-- A block that has been gone through is settled in a run with an answer: it passes no release on,
keeps its operations, and what it has made keeps its balance. -/
structure Transit.Settled (f : Routine) (final : Session) (returned : List ValueId) (k : Transit) :
    Prop where
  released : k.out.released = ∅
  list : final.routine.opsOf k.block = k.after.routine.opsOf k.block
  balance : ∀ v, Introduced f k.after.routine v → k.before.routine.values.size ≤ v.index →
    final.routine.useCount v + returned.count v =
      k.after.routine.useCount v + k.out.acquired.count v

theorem Transits.settled (hroot : f.threadFromRoot settings = .ok (out, final))
    (hk : Transits f settings fuel k) : k.Settled f final out.acquired := by
  induction hk with
  | @body k hbefore howns henters hgoes =>
    obtain ⟨hend, hnone, hacquired⟩ := hgoes.ends hw hroot hbefore howns henters
    refine ⟨hnone, by rw [hend], fun v _ _ => ?_⟩
    rw [hend, hacquired]
  | @inner fuel K k c d hK hc hd henters hk ih =>
    obtain ⟨o, hplaced⟩ := hK.placed hw hroot
    obtain ⟨front, rest, hcall⟩ := hplaced.call hw hc
    obtain ⟨hnone, hreleased, hacquired, hkept, hlist, huses⟩ :=
      hcall.behind hw hplain hd henters hk
    have hinto := hcall.into hw hd henters hk
    have hbefore := (hplaced.run_to hw hc).keeps.size_values
    have hwithin := (hcall.run_to hw hd henters hk).keeps.size_values
    refine ⟨hreleased, ?_, fun v hv hge => ?_⟩
    · rw [← hlist]
      apply hcall.later.opsOf
      exact fun hout => hout ⟨c.op, .refl, henters.holder? hw.linked⟩
    · -- the block around it did not own this indicator before and does not acquire it
      have hv' := hkept.introduced ((hinto.threaded.run hw (hinto.run hw)).wellFormed.linked) hv
      have hnot : v ∉ c.heldAfter.owned := fun hmem => by
        rcases Holdings.mem_owned_absorb hmem with hmem | hmem
        · have hlt := (hcall.atOp.owned v hmem).known
          omega
        · rw [hnone] at hmem
          cases hmem
      obtain ⟨hvK, hrest⟩ := hplaced.useBalance_from hw hplain hc hv' hnot
      rw [ih.balance v hvK (by omega), hrest, hacquired]
      exact huses v hv

/-- What a block owns when it closes is consumed once, and the rest of what it has made never. -/
theorem Transit.Settled.consumed {returned : List ValueId}
    (hsettled : k.Settled f final returned) (h : k.Placed f settings final fuel o)
    (pass : k.Passage f settings (Pass.throughOpWithin settings fuel))
    {i : ValueId} (hi : i ∈ f.madeIn pass.walked.routine k.block) :
    final.routine.consumption returned i = if i ∈ pass.held.owned then 1 else 0 := by
  have hb := pass.threaded.booked hw
  have hstock := h.stocked hw hplain pass
  have hcloses := closeBlock_ledger hb (fun i hi => (pass.tokens i hi).known) pass.closes
  have hv := introduced_of_mem hi
  have hbalance := hsettled.balance i (hcloses.kept.introduced hb.linked hv) (hstock.made i hi).2
  rw [hcloses.carried i hv, (hstock.made i hi).1, Nat.zero_add, ValueSet.count_toList] at hbalance
  exact hbalance

/-- What a block has made is consumed at most once, and as much is left as is freed there. -/
theorem Transits.balance (hroot : f.threadFromRoot settings = .ok (out, final))
    (hk : Transits f settings fuel k) : Single f final.routine k.block ∧
      (∀ i ∈ f.madeIn final.routine k.block, final.routine.consumption out.acquired i ≤ 1) ∧
      (f.madeIn final.routine k.block).countP
          (fun i => final.routine.consumption out.acquired i = 0) =
        ((f.opsOf k.block).map fun p => (f.freedOf p).toFinset.card).sum := by
  obtain ⟨o, hplaced⟩ := hk.placed hw hroot
  obtain ⟨pass⟩ := hplaced.pass hw
  have hsettled := hk.settled hw hplain hroot
  have hstock := hplaced.stocked hw hplain pass
  have hlength := hplaced.length_madeIn hw hplain hsettled.released pass
  have hb := pass.threaded.booked hw
  have hknown : ∀ i ∈ pass.held.owned, i.index < pass.walked.routine.values.size := fun i hi =>
    (pass.tokens i hi).known
  have howns : OwnsKept f k.block pass.walked.routine k.after.routine :=
    closeBlock_ownsKept hb pass.threaded.size_ops_le hknown pass.closes
  have hl := howns.linked
  have hmade : (f.madeIn final.routine k.block).Perm (f.madeIn pass.walked.routine k.block) := by
    rw [hplaced.later.keeps.madeIn hl hsettled.list]
    exact howns.madeIn
  have hconsumed : ∀ i ∈ f.madeIn pass.walked.routine k.block,
      final.routine.consumption out.acquired i = if i ∈ pass.held.owned then 1 else 0 :=
    fun i hi => hsettled.consumed hw hplain hplaced pass hi
  refine ⟨hplaced.later.keeps.single hl hsettled.list (howns.single hstock.single), ?_, ?_⟩
  · intro i hi
    rw [hconsumed i (hmade.mem_iff.mp hi)]
    split <;> omega
  · -- what is left over is what the block no longer owns at its end
    have hcount : (f.madeIn pass.walked.routine k.block).countP
          (fun i => final.routine.consumption out.acquired i = 0) =
        (f.madeIn pass.walked.routine k.block).countP (fun i => i ∉ pass.held.owned) :=
      List.countP_congr fun i hi => by simp [hconsumed i hi]
    have hrest : (f.madeIn pass.walked.routine k.block).countP (fun i => i ∉ pass.held.owned) +
        pass.held.owned.toList.length = (f.madeIn pass.walked.routine k.block).length :=
      countP_not_mem_add hstock.nodup pass.held.owned.nodup_toList hstock.owned
    rw [hmade.countP_eq, hcount, pass.original]
    simp only [List.map_append, List.sum_append, List.map_singleton, List.sum_singleton,
      freedOf_of_terminator pass.terminator, List.toFinset_nil, Finset.card_empty, Nat.add_zero]
    omega

end Plain

/-! ## The whole routine -/

/-- Of operations with one result, as many have results that pass a test as results pass it. -/
theorem length_filter_results {p : ValueId → Bool} (hsingle : ∀ x ∈ l, ∃ i, r.resultsOf x = [i]) :
    (l.filter fun x => (r.resultsOf x).all p).length = (l.flatMap r.resultsOf).countP p := by
  induction l with
  | nil => rfl
  | cons x l ih =>
    obtain ⟨i, hi⟩ := hsingle x (by simp)
    have hrest := ih fun y hy => hsingle y (by simp [hy])
    rw [List.flatMap_cons, List.countP_append, ← hrest, hi]
    cases hp : p i <;> simp [hi, hp, Nat.add_comm]

/-- An own that was inserted stands in a block that is gone through. -/
theorem exists_transit_of_own (hw : f.WellFormed)
    (hroot : f.threadFromRoot settings = .ok (out, final)) (hnone : f.op? x = none)
    (hown : final.routine.kind? x = some .own) :
    ∃ fuel k, Transits f settings fuel k ∧ x ∈ f.insertedOwns final.routine k.block := by
  have hrun := (threadFromRoot_stages hw hroot).run hw
  have ht := (Threaded.start hw).run hw hrun
  obtain ⟨δ, hδ⟩ := ht.embedded
  have hmade := hδ.made x hnone (by rintro he; simp [Routine.kind?, he] at hown)
  obtain ⟨b, v, hparent, -, p, d, hvisited, -, hp, -⟩ := hmade.owns hown
  have hne : p ≠ f.root := by
    rintro rfl
    rw [hw.root_unlinked] at hp
    cases hp
  obtain ⟨fuel, k, c, front, rest, hk, -, rfl, hcall⟩ := exists_placed_call hw hroot hvisited hne
  obtain rfl := Option.mem_unique hcall.atOp.parent hp
  refine ⟨fuel, k, hk, mem_insertedOwns.mpr ⟨?_, hnone, hown⟩⟩
  exact (ht.wellFormed.linked.op_listed x k.block).mpr hparent

/-- In a routine without structured control flow, every own that is inserted has its indicator
consumed at most once, and in each block that is gone through there are as many owns whose indicator
is not consumed at all as values are freed by the operations of the block, counted for each of
them. -/
theorem threadOwnership_balances {g : Routine} (hw : f.WellFormed) (hplain : f.WithoutConstructs)
    (settings : Settings) {report : Report}
    (h : f.threadOwnership settings = .ok (report, g)) :
    (∀ x, f.op? x = none → g.kind? x = some .own →
      ∃ i, g.resultsOf x = [i] ∧ g.consumption report.returned i ≤ 1) ∧
    ∀ o b, f.Visited o → f.Enters o b →
      ((f.insertedOwns g b).filter fun x =>
          (g.resultsOf x).all fun i => g.consumption report.returned i = 0).length =
        ((f.opsOf b).map fun p => (f.freedOf p).toFinset.card).sum := by
  obtain ⟨⟨out, final⟩, hroot, h⟩ := bind_eq_ok.mp h
  obtain ⟨_, -, h⟩ := bind_eq_ok.mp h
  cases h
  constructor
  · -- an own stands in a block that is gone through
    intro x hnone hown
    obtain ⟨fuel, k, hk, hx⟩ := exists_transit_of_own hw hroot hnone hown
    obtain ⟨hsingle, honce, -⟩ := hk.balance hw hplain hroot
    obtain ⟨i, hi⟩ := hsingle x hx
    exact ⟨i, hi, honce i (mem_madeIn.mpr ⟨x, hx, by simp [hi]⟩)⟩
  · intro o b hvisited henters
    obtain ⟨fuel, k, hk, rfl⟩ := exists_transit hw hroot hvisited henters
    obtain ⟨hsingle, -, hunused⟩ := hk.balance hw hplain hroot
    rw [← hunused]
    exact length_filter_results hsingle

/-! ## Frees two regions deep -/

theorem Routine.withoutConstructs_of_check
    (h : (f.ops.toList.all fun d => d.kind.construct?.isNone) = true) : f.WithoutConstructs := by
  intro o _
  cases hd : f.op? o with
  | none => simp [isConstruct, kind?, hd]
  | some d =>
    have hmem : d ∈ f.ops.toList := Array.mem_toList_iff.mpr (Array.mem_of_getElem? hd)
    have hnone := List.all_eq_true.mp h d hmem
    simp_all [isConstruct_of hd]

/-- One of two buffers is freed in the body, and one in a region of a region. -/
def layered : Edit Unit := do
  let entry : InsertPoint := .atEnd ⟨0⟩
  let outer : InsertPoint := .atEnd ⟨1⟩
  let inner : InsertPoint := .atEnd ⟨2⟩
  let first ← Emit.alloc entry (.buffer .f32 1)
  let second ← Emit.alloc entry (.buffer .f32 1)
  let _ ← Emit.enclosing entry "scope" [] [] 1
  let _ ← Emit.enclosing outer "scope" [] [] 1
  let third ← Emit.alloc inner (.buffer .f32 1)
  let _ ← Emit.alloc inner (.buffer .f32 1)
  let _ ← Emit.dealloc inner third
  let _ ← Emit.yield inner []
  let _ ← Emit.yield outer []
  let _ ← Emit.dealloc entry first
  let _ ← Emit.ret entry [second]

def layeredRoutine : Routine := layered.build "layered" []

/-- Each of the two blocks gets two owns, one of them with an indicator that is not consumed. -/
theorem layeredRoutine_balances :
    ∃ report g, layeredRoutine.threadOwnership {} = .ok (report, g) ∧
      (∀ x, layeredRoutine.op? x = none → g.kind? x = some .own →
        ∃ i, g.resultsOf x = [i] ∧ g.consumption report.returned i ≤ 1) ∧
      ∀ b ∈ [⟨0⟩, ⟨2⟩], (layeredRoutine.insertedOwns g b).length = 2 ∧
        ((layeredRoutine.insertedOwns g b).filter fun x =>
          (g.resultsOf x).all fun i => g.consumption report.returned i = 0).length = 1 := by
  have hw : layeredRoutine.WellFormed := Routine.wellFormed_of_check (by decide +kernel)
  have hplain : layeredRoutine.WithoutConstructs :=
    Routine.withoutConstructs_of_check (by decide +kernel)
  have hvisited : layeredRoutine.Visited ⟨4⟩ :=
    Routine.visitedFrom_of_mem (n := 3) (by decide +kernel)
  obtain ⟨⟨report, g⟩, h, hbody, hinner⟩ := exists_of_check
    (x := layeredRoutine.threadOwnership {})
    (P := fun answer => (layeredRoutine.insertedOwns answer.2 ⟨0⟩).length = 2 ∧
      (layeredRoutine.insertedOwns answer.2 ⟨2⟩).length = 2) (by decide +kernel)
  obtain ⟨honce, hunused⟩ := threadOwnership_balances hw hplain {} h
  refine ⟨report, g, h, honce, ?_⟩
  simp only [List.forall_mem_cons, List.not_mem_nil, false_imp_iff, implies_true, and_true]
  refine ⟨⟨hbody, ?_⟩, hinner, ?_⟩
  · rw [hunused layeredRoutine.root ⟨0⟩ .refl (by decide +kernel)]
    decide +kernel
  · rw [hunused ⟨4⟩ ⟨2⟩ hvisited (by decide +kernel)]
    decide +kernel

end BufferOwnership
