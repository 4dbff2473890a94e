import BufferOwnership.Proofs.Certify
import BufferOwnership.Proofs.Trace

/-!
# Where indicators are owned

Whatever a block owns was introduced in that block: it is an argument that was appended to it, the
result of an own that was put into it, or an indicator among the results of a construct that was
rebuilt in it. It stays there to the end of the run, so an indicator is owned in one block only.

A release strikes off an owned indicator of its class. If there is none, it is passed on.
-/

namespace BufferOwnership

open Routine

/-- An indicator that can be owned in a block: an argument that was appended to it, the result of
an own that was put into it, or one of the results that a construct in it got when it was
rebuilt. -/
inductive IndicatorOf (f r : Routine) (b : BlockId) (i : ValueId) : Prop
  | argument : i ∈ (r.argsOf b).drop (f.argsOf b).length → IndicatorOf f r b i
  | own {x : OpId} : x ∈ r.opsOf b → f.op? x = none → r.kind? x = some .own →
      i ∈ r.resultsOf x → IndicatorOf f r b i
  | result {x : OpId} : x ∈ r.opsOf b → f.op? x = none → r.isConstruct x = true →
      i ∈ r.indicatorResults x → IndicatorOf f r b i

variable {f r r' : Routine} {F : Footprint} {s s' : Session} {b : BlockId} {o x : OpId}
variable {front rest : List OpId} {i v w : ValueId} {d : Op} {settings : Settings} {treat : OpPass}
variable {owned : ValueSet} {out : Outcome} {final : Session} {fuel : Nat} {k : Transit} {c : Call}
variable {point : InsertPoint} {δ : Delta}

/-- The blocks with a buffer argument or an operation with a result. -/
def Routine.suppliers (f : Routine) : List BlockId :=
  f.blockIds.filter fun b => (f.argsOf b).any f.holdsBuffer || (f.opsOf b).any (f.resultsOf · ≠ [])

theorem Routine.mem_suppliers (h : (∃ v ∈ f.argsOf b, f.holdsBuffer v = true) ∨
    ∃ p ∈ f.opsOf b, f.resultsOf p ≠ []) : b ∈ f.suppliers := by
  refine List.mem_filter.mpr ⟨mem_blockIds fun hnone => ?_, by simpa using h⟩
  simp [argsOf, opsOf, hnone] at h

/-- What was put into a block keeps its place, unless it is a retain. -/
theorem Legal.mem_opsOf (h : Legal f F r r' δ) (hx : x ∈ r.opsOf b) (hf : f.op? x = none)
    (hretain : ∀ n, r.kind? x ≠ some (.retain n)) : x ∈ r'.opsOf b := by
  have hop : δ.op x = x := by
    by_contra hne
    have hcons := (h.renamed x hne).2
    simp [isConstruct, Routine.kind?, hf] at hcons
  have hkept : δ.lost x = false := by
    by_contra hne
    obtain ⟨hkind, -⟩ := h.change.lost x (by simpa using hne)
    exact hretain _ hkind
  have hmem : x ∈ ((r.opsOf b).filter fun p => !δ.lost p).map δ.op :=
    List.mem_map.mpr ⟨x, List.mem_filter.mpr ⟨hx, by simp [hkept]⟩, hop⟩
  rw [← h.change.lists] at hmem
  exact (List.mem_filter.mp hmem).1

namespace IndicatorOf

section

variable (h : IndicatorOf f r b i)
include h

theorem introduced : Introduced f r i := by
  cases h with
  | argument hi => exact .argument hi
  | own _ hx hkind hi => exact .own hx hkind hi
  | result _ hx hcons hi => exact .result hx hcons hi

theorem declared : r.Declares b i := by
  cases h with
  | argument hi => exact .inl (List.mem_of_mem_drop hi)
  | own hx _ _ hi => exact .inr ⟨_, hx, hi⟩
  | result hx _ _ hi => exact .inr ⟨_, hx, mem_resultsOf_of_indicator hi⟩

/-- An indicator belongs to one block. -/
theorem block_unique {a : BlockId} (h' : IndicatorOf f r a i) (hl : r.Linked) : b = a :=
  h.declared.unique h'.declared hl

/-- What can be owned in a block is not the result of a null. -/
theorem not_null (hl : r.Linked) (hi : i ∈ r.resultsOf x) : r.kind? x ≠ some .null := by
  intro hnull
  cases h with
  | argument harg => exact hl.not_arg_of_result hi (List.mem_of_mem_drop harg)
  | own _ _ hkind hres =>
    rw [hl.result_unique hi hres, hkind] at hnull
    cases hnull
  | result _ _ hcons hres =>
    rw [← hl.result_unique hi (mem_resultsOf_of_indicator hres)] at hcons
    simp [isConstruct, hnull, OpKind.construct?] at hcons

theorem step (hl : r.Linked) (hlegal : Legal f F r r' δ) : IndicatorOf f r' b i := by
  have hkept := hlegal.change.keeps
  cases h with
  | argument hi =>
    obtain ⟨extra, hextra⟩ := hkept.args b
    refine .argument ?_
    rw [← hextra, List.drop_append]
    exact List.mem_append_left _ hi
  | @own x hx hf hkind hi =>
    refine .own (hlegal.mem_opsOf hx hf (by simp [hkind])) hf ?_ (hkept.mem_resultsOf hi)
    rw [hkept.kind?_eq (hl.op?_of_listed hx), hkind]
  | @result x hx hf hcons hi =>
    have hop := hl.op?_of_listed hx
    refine .result (hlegal.mem_opsOf hx hf ?_) hf ?_ ?_
    · rintro n hkind
      simp [isConstruct, hkind, OpKind.construct?] at hcons
    · rwa [isConstruct, hkept.kind?_eq hop]
    · rwa [hkept.indicatorResults hl hop]

end

/-- An indicator stays where it is. -/
theorem run (h : IndicatorOf f s.routine b i) (hrun : Run f F s s') (ht : Threaded f s)
    (hw : f.WellFormed) : IndicatorOf f s'.routine b i :=
  hrun.preserves (P := fun r => IndicatorOf f r b i) h fun hrun hlegal _ ih =>
    ih.step (ht.run hw hrun).wellFormed.linked hlegal

/-- In the end an indicator can be owned only in a block that has something to own. -/
theorem supplied (h : IndicatorOf f s.routine b i) (ht : Threaded f s) (hw : f.WellFormed)
    (hdone : Done f s.routine f.root) : b ∈ f.suppliers := by
  have hl := ht.wellFormed.linked
  obtain ⟨δ, hδ⟩ := ht.embedded
  cases h with
  | argument hi =>
    obtain ⟨o, ⟨hvisited, hcons⟩, henters⟩ := hδ.opened b fun hsame => by simp [hsame] at hi
    have hargs := ((hdone o hvisited hcons).2 b henters).args
    have hlen := List.length_pos_of_mem hi
    rw [List.length_drop] at hlen
    exact mem_suppliers (.inl (List.countP_pos_iff.mp (by rw [← bufferCount]; omega)))
  | @own x hx hf hkind _ =>
    obtain ⟨c, v, hparent, -, p, d, -, hd, hp, hv⟩ :=
      (hδ.made x hf (hl.op?_of_listed hx)).owns hkind
    obtain rfl := Option.mem_unique ((hl.op_listed x b).mp hx) hparent
    refine mem_suppliers (.inr ⟨p, (hw.linked.op_listed p b).mpr hp, ?_⟩)
    exact List.ne_nil_of_mem (a := v) <| resultsOf_of hd ▸ Op.mem_results_of_mem_allocated hv
  | @result x hx hf hcons hi =>
    rcases hδ.change.mem_opsOf hx with ⟨p, rfl, hp, -⟩ | hnew
    · -- the construct was rebuilt, with one indicator for each buffer among its results
      have hne : δ.op p ≠ p := fun heq => hw.linked.op?_of_listed hp (heq ▸ hf)
      obtain ⟨d, e, hd, he, hgrown⟩ := hδ.change.image_of_renamed hne
      obtain ⟨extra, hresults, -, -, hcount⟩ := hgrown.results
      refine mem_suppliers (.inr ⟨p, hp, fun hnil => ?_⟩)
      rw [resultsOf_of hd] at hnil
      have hmem := mem_resultsOf_of_indicator hi
      rw [resultsOf_of he, hresults, hnil, List.eq_nil_of_length_eq_zero
        ((hcount hne).trans (by simp [hnil, bufferCount]))] at hmem
      cases hmem
    · obtain ⟨-, e, he, hins⟩ := hδ.change.new x hnew
      rcases hins.kind with hk | hk | ⟨n, hk, -⟩ <;>
        simp [isConstruct_of he, hk, OpKind.construct?] at hcons

end IndicatorOf

/-! ## What is acquired -/

/-- What the arguments of a block are given is appended to them. -/
theorem openBlock_indicators {ownsInputs : Bool} (ht : Threaded f s) (hw : f.WellFormed)
    (hopened : ownsInputs = true → f.Opened b) (hargs : s.routine.argsOf b = f.argsOf b)
    (h : Pass.openBlock b ownsInputs s = .ok (owned, s')) (hi : i ∈ owned) :
    IndicatorOf f s'.routine b i ∧ s.routine.values.size ≤ i.index := by
  obtain ⟨hrun, htokens, -⟩ := openBlock_spec hw hopened ht hargs h
  obtain ⟨-, hfresh⟩ := openBlock_ledger (ht.booked hw) h
  refine ⟨.argument ?_, (hfresh i hi).2⟩
  have hmem : i ∈ s'.routine.argsOf b := by
    rcases (htokens i hi).here with harg | ⟨p, hp, -⟩
    · exact harg
    · cases hp
  obtain ⟨extra, hextra⟩ := hrun.keeps.args b
  rw [hargs] at hextra
  rw [← hextra] at hmem ⊢
  rw [List.drop_left]
  refine (List.mem_append.mp hmem).resolve_left fun hold => ?_
  -- an argument from before is no new value
  have hlt := Visible.known ht.wellFormed.linked
    (.argument (hargs ▸ hold) : s.routine.Visible b [] i)
  exact Nat.not_lt.mpr (hfresh i hi).2 hlt

theorem own_made (h : Pass.own point v s = .ok (i, s')) :
    Kept s.routine s'.routine ∧ ∃ x, s.routine.op? x = none ∧
      s'.routine.kind? x = some .own ∧ i ∈ s'.routine.resultsOf x := by
  obtain ⟨rfl, -, x, hemit⟩ := Pass.own_eq_ok h
  obtain ⟨rfl, c, pre, post, -, hem⟩ := Emit.operation_emitted hemit
  refine ⟨hem.kept, _, op?_freshOp _, kind?_of hem.op?_fresh, ?_⟩
  rw [resultsOf_of hem.op?_fresh]
  simp [mem_freshValues]

/-- Each indicator that is made for a buffer is the result of an own. -/
theorem ownAll_made {buffers indicators : List ValueId}
    (h : Pass.ownAll point buffers s = .ok (indicators, s')) :
    Kept s.routine s'.routine ∧ ∀ i ∈ indicators, ∃ x, s.routine.op? x = none ∧
      s'.routine.kind? x = some .own ∧ i ∈ s'.routine.resultsOf x := by
  induction buffers generalizing s indicators with
  | nil =>
    cases h
    exact ⟨.refl _, by simp⟩
  | cons v buffers ih =>
    obtain ⟨i, others, s₁, rfl, hown, hothers⟩ := Pass.ownAll_cons h
    obtain ⟨hkept₁, x, hx, hkind, hi⟩ := own_made hown
    obtain ⟨hkept₂, hmade⟩ := ih hothers
    refine ⟨hkept₁.trans hkept₂, fun j hj => ?_⟩
    rcases List.mem_cons.mp hj with rfl | hj
    · exact ⟨x, hx, hkept₂.kind? hkind, hkept₂.mem_resultsOf hi⟩
    · obtain ⟨y, hy, hkind, hj⟩ := hmade j hj
      refine ⟨y, ?_, hkind, hj⟩
      by_contra hne
      exact hkept₁.op?_ne_none hne hy

/-- What an operation acquires is owned in its block, and new. -/
theorem OpCase.acquired (h : OpCase f settings treat o d owned b front rest s out s')
    (hw : f.WellFormed) (hd : f.op? o = some d) (htreat : OpSpec f treat)
    (hat : AtOp f s o owned b front rest) (hi : i ∈ out.acquired) :
    IndicatorOf f s'.routine b i ∧ s.routine.values.size ≤ i.index := by
  have ht := hat.threaded
  have hl := ht.wellFormed.linked
  cases h with
  | effects next post hclass hrest hown hreleased =>
    subst hrest
    have hbuffers := hat.allocated_results hw hd
    have hlist : s.routine.opsOf b = front ++ o :: ([] ++ next :: post) := hat.list
    obtain ⟨owns, hrun, hlist', -, htokens⟩ := ownAll_spec hw ht hlist (by simp)
      (fun v hv => ⟨hbuffers v hv, o, d, hat.visited, hd, hat.parent, hv⟩) hown
    obtain ⟨-, hacquired⟩ := ownAll_ledger (ht.booked hw) (by simp [hd]) hbuffers hown
    obtain ⟨x, hx, hkind, hres⟩ := (ownAll_made hown).2 i hi
    have hl' := (ht.run hw hrun).wellFormed.linked
    refine ⟨.own (x := x) ?_ ?_ hkind hres, hacquired.fresh i hi⟩
    · -- the own stands in the block, since a token comes from there
      rcases (htokens i hi).here with harg | ⟨p, hp, hres'⟩
      · exact absurd harg (hl'.not_arg_of_result hres)
      · obtain rfl := hl'.result_unique hres hres'
        rw [hlist']
        simp only [List.mem_append, List.mem_cons] at hp ⊢
        tauto
    · by_contra hf
      exact ht.op? hf hx
  | plain pairs _ hnone => simp [hnone, Outcome.none] at hi
  | unknown outs _ hnone => simp [hnone, Outcome.none] at hi
  | construct kind site outs regions mid hkind hblocks hpassed _ _ _ _ hpass =>
    obtain ⟨pass⟩ := hpass
    have hcons : d.kind.construct?.isSome = true := by simp [hkind]
    obtain ⟨hx, hconstruct, hacquired, hnew⟩ := pass.made hw hcons
    have hrun := hpassed.run htreat hw hblocks fun _ => by simp [isConstruct_of hd, hcons]
    refine ⟨.result (x := pass.x) ?_ ?_ hconstruct (hacquired ▸ hi), ?_⟩
    · rw [pass.routine, pass.list']
      simp
    · rw [hx]
      exact (pass.threaded'.booked hw).op?_fresh
    · exact Nat.le_trans (hrun.keeps.trans (pass.run_inside.keeps.trans
        pass.run_transfers.keeps)).size_values (hnew.fresh i hi)

/-- What an operation that is called for acquires. -/
theorem Call.Placed.acquired (h : c.Placed f settings final fuel b front rest) (hw : f.WellFormed)
    (hi : i ∈ c.out.acquired) :
    IndicatorOf f c.after.routine b i ∧ c.before.routine.values.size ≤ i.index := by
  obtain ⟨n, d, -, hd, hcase⟩ := h.cases hw
  exact hcase.acquired hw hd (throughOpWithin_spec hw settings n) h.atOp hi

/-! ## What a block holds -/

/-- What a block owns was introduced in it since it was opened, when there were fewer values. -/
def Holdings.Within (f : Routine) (b : BlockId) (n : Nat) (h : Holdings) (s : Session) : Prop :=
  ∀ i ∈ h.owned, IndicatorOf f s.routine b i ∧ n ≤ i.index

namespace Transit.Placed

variable (h : k.Placed f settings final fuel o) (hw : f.WellFormed)
include h hw

/-- What a block owns at any time was introduced in it, since what it acquires is. -/
theorem within_walk (pass : k.Passage f settings (Pass.throughOpWithin settings fuel)) :
    pass.held.Within f k.block k.before.routine.values.size pass.walked ∧
      ∀ c, k.Calls (Pass.throughOpWithin settings fuel) c →
        c.held.Within f k.block k.before.routine.values.size c.before := by
  have hopen : Holdings.Within f k.block k.before.routine.values.size ⟨pass.owned, ∅⟩
      pass.opened := by
    intro i hi
    apply openBlock_indicators h.threaded hw _ h.untouched.args pass.opens hi
    exact fun howns => h.enters.opened h.visited (h.owns ▸ howns)
  have hwalk := walk pass (P := fun held s =>
    held.Within f k.block k.before.routine.values.size s ∧
      k.before.routine.values.size ≤ s.routine.values.size) ?_
    ⟨hopen, pass.run_opens.keeps.size_values⟩
  · exact ⟨hwalk.1.1, fun c hc => (hwalk.2 c hc).1⟩
  rintro c hc ⟨hheld, hle⟩
  rcases h.call hw hc with ⟨front, rest, hcall⟩
  have hrun := hcall.run hw
  refine ⟨fun i hi => ?_, Nat.le_trans hle hrun.keeps.size_values⟩
  rcases Holdings.mem_owned_absorb hi with hi | hi
  · exact ⟨(hheld i hi).1.run hrun hcall.atOp.threaded hw, (hheld i hi).2⟩
  · obtain ⟨hplace, hfresh⟩ := hcall.acquired hw hi
    exact ⟨hplace, Nat.le_trans hle hfresh⟩

theorem within (hc : k.Calls (Pass.throughOpWithin settings fuel) c) :
    c.held.Within f k.block k.before.routine.values.size c.before := by
  obtain ⟨pass⟩ := h.pass hw
  exact (h.within_walk hw pass).2 c hc

/-- What a block has struck off does not come back, since all that it acquires is new. -/
theorem gone_stays (hc : k.Calls (Pass.throughOpWithin settings fuel) c)
    (hi : i ∉ c.held.owned ∧ i.index < c.before.routine.values.size) :
    i ∉ c.heldAfter.owned ∧ i.index < c.after.routine.values.size := by
  rcases h.call hw hc with ⟨front, rest, hcall⟩
  refine ⟨fun hmem => ?_, Nat.lt_of_lt_of_le hi.2 (hcall.run hw).keeps.size_values⟩
  rcases Holdings.mem_owned_absorb hmem with hmem | hmem
  · exact hi.1 hmem
  · exact Nat.not_lt.mpr (hcall.acquired hw hmem).2 hi.2

end Transit.Placed

namespace Holdings

variable {aliases : AliasClasses} {h : Holdings}

theorem released_release (hv : v ∈ h.released) : v ∈ (h.release aliases w).released := by
  unfold release
  split
  · exact hv
  · exact ValueSet.mem_insert.mpr (.inr hv)

theorem released_foldl {l : List ValueId} (hv : v ∈ h.released) :
    v ∈ (l.foldl (release aliases) h).released := by
  induction l generalizing h with
  | nil => exact hv
  | cons w l ih => exact ih (released_release hv)

theorem mem_released_release (hv : v ∈ (h.release aliases w).released) :
    v = w ∨ v ∈ h.released := by
  unfold release at hv
  split at hv
  · exact .inr hv
  · exact ValueSet.mem_insert.mp hv

theorem mem_released_foldl {l : List ValueId} (hv : v ∈ (l.foldl (release aliases) h).released) :
    v ∈ l ∨ v ∈ h.released := by
  induction l generalizing h with
  | nil => exact .inr hv
  | cons w l ih =>
    rcases ih hv with hv | hv
    · exact .inl (List.mem_cons_of_mem _ hv)
    · rcases mem_released_release hv with rfl | hv
      · exact .inl List.mem_cons_self
      · exact .inr hv

/-- Each value that is released strikes off an owned indicator of its class or is passed on. -/
theorem foldl_release_cases (aliases : AliasClasses) {l : List ValueId} (hv : v ∈ l) :
    (∃ j ∈ h.owned, aliases.same v j = true ∧ j ∉ (l.foldl (release aliases) h).owned) ∨
      v ∈ (l.foldl (release aliases) h).released := by
  induction l generalizing h with
  | nil => cases hv
  | cons w l ih =>
    rw [List.foldl_cons]
    rcases List.mem_cons.mp hv with rfl | hv
    · cases hfind : h.owned.toList.find? (aliases.same v) with
      | some j =>
        refine .inl ⟨j, List.mem_of_find?_eq_some hfind, List.find?_some hfind, fun hj => ?_⟩
        have hj := mem_owned_foldl hj
        simp [release, hfind] at hj
      | none =>
        refine .inr (released_foldl ?_)
        simp [release, hfind]
    · rcases ih hv (h := h.release aliases w) with ⟨j, hj, hsame, hgone⟩ | hpassed
      · exact .inl ⟨j, mem_owned_release hj, hsame, hgone⟩
      · exact .inr hpassed

/-- What an operation releases strikes off an owned indicator of its class or is passed on. -/
theorem absorb_cases (aliases : AliasClasses) (hv : v ∈ out.released) :
    (∃ j ∈ h.owned, aliases.same v j = true ∧
      (j ∉ out.acquired → j ∉ (h.absorb aliases out).owned)) ∨
      v ∈ (h.absorb aliases out).released := by
  rcases foldl_release_cases aliases (h := h) hv with ⟨j, hj, hsame, hgone⟩ | hpassed
  · refine .inl ⟨j, hj, hsame, fun hnew hmem => ?_⟩
    exact (ValueSet.mem_insertMany.mp hmem).elim hgone hnew
  · exact .inr hpassed

theorem released_absorb (hv : v ∈ h.released) : v ∈ (h.absorb aliases out).released :=
  released_foldl hv

theorem mem_released_absorb (hv : v ∈ (h.absorb aliases out).released) :
    v ∈ out.released ∨ v ∈ h.released :=
  mem_released_foldl hv

end Holdings

end BufferOwnership
