import BufferOwnership.Proofs.Erasure
import BufferOwnership.Proofs.Trace

/-!
# Releases and what is read after them

An indicator that a block owns to its end, and in whose class nothing escapes, is released after all
that reads a value of the class. The class is that of the moment at which the block is closed: the
arguments of a loop are joined with what goes into it only later, so of two arguments that stand for
one buffer one may be read after the other has been released. `Closing` says what the end of a block
inserts, and `Timely` what every such operation keeps.
-/

namespace BufferOwnership

open Routine
open scoped List

/-- An operation reads a value, itself or in an operation nested in it. Of an operation that ends a
block only the operands count. -/
def Routine.Reads (r : Routine) (p : OpId) (v : ValueId) : Prop :=
  ∃ q, r.Inside p q ∧ (q = p ∨ r.isTerminator p = false) ∧ v ∈ r.operandsOf q

/-- In a block nothing reads a value after an indicator has been released. -/
def Timely (r : Routine) (b : BlockId) (a y : ValueId) : Prop :=
  ∀ x p, [x, p] <+ r.opsOf b → r.kind? x = some (.retain 0) → a ∈ r.operandsOf x → ¬ r.Reads p y

/-- In a block an indicator is not released. -/
def Unreleased (r : Routine) (b : BlockId) (a : ValueId) : Prop :=
  ∀ x ∈ r.opsOf b, r.kind? x = some (.retain 0) → a ∉ r.operandsOf x

/-- Two values are in one class when a block is closed. -/
def Routine.AliasesIn (f : Routine) (settings : Settings) (b : BlockId) (v w : ValueId) : Prop :=
  ∃ fuel k body owned opened held walked, Transits f settings fuel k ∧ k.block = b ∧
    k.Walks (Pass.throughOpWithin settings fuel) body owned opened held walked ∧
    walked.aliases.same v w = true

variable {f g r r' : Routine} {F : Footprint} {s s' final : Session} {b : BlockId}
variable {o p q t x : OpId} {front rest pre post : List OpId} {a u v y : ValueId} {d : Op}
variable {settings : Settings} {fuel : Nat} {out : Outcome} {k : Transit} {δ : Delta}
variable {kind : OpKind} {operands indicators : List ValueId} {types : List Ty}
variable {point : InsertPoint} {α : Type} {l₁ l₂ : List α}

theorem Unreleased.timely (h : Unreleased r b a) : Timely r b a y := by
  intro x p hsub hkind ha
  exact absurd ha (h x (hsub.subset (by simp)) hkind)

/-! ## Pairs in a list -/

theorem mem_of_pair_sublist {x p : α} (hnodup : (l₁ ++ x :: l₂).Nodup)
    (h : [x, p] <+ l₁ ++ x :: l₂) : p ∈ l₂ := by
  obtain ⟨m₁, m₂, hm, h₁, h₂⟩ := List.sublist_append_iff.mp h
  obtain ⟨-, -, hdisjoint⟩ := List.nodup_append.mp hnodup
  cases m₁ with
  | nil =>
    rw [List.nil_append] at hm
    rw [← hm, List.cons_sublist_cons] at h₂
    exact List.singleton_sublist.mp h₂
  | cons z m₁ =>
    obtain rfl := (List.cons.inj hm).1
    exact absurd rfl (hdisjoint x (h₁.subset (by simp)) x (by simp))

theorem pair_sublist_of_ne [DecidableEq α] {x p z : α} (h : [x, p] <+ l₁ ++ z :: l₂) (hx : x ≠ z)
    (hp : p ≠ z) : [x, p] <+ l₁ ++ l₂ := by
  have hpair : [x, p].filter (· != z) = [x, p] := by simp [hx, hp]
  have hrest : (l₁ ++ z :: l₂).filter (· != z) = (l₁ ++ l₂).filter (· != z) := by simp
  have hfilter := h.filter (· != z)
  rw [hpair, hrest] at hfilter
  exact hfilter.trans List.filter_sublist

/-! ## Reads under a change -/

namespace Change

variable (h : Change r r' δ) (hl' : r'.Linked)
include h hl'

/-- No value gets the name of an argument. -/
theorem eq_of_value_eq (hv : v ∈ r'.argsOf b) (hu : δ.value u = v) : u = v := by
  by_contra hne
  obtain ⟨p, hp, hres⟩ := h.moved u fun he => hne (he.symm.trans hu)
  obtain ⟨d, e, hd, he, hgrown⟩ := h.image_of_renamed hp
  obtain ⟨extra, hresults, -⟩ := hgrown.results
  refine hl'.not_arg_of_result (o := δ.op p) ?_ hv
  rw [resultsOf_of he, hresults, ← hu]
  exact List.mem_append_left _ (List.mem_map_of_mem (resultsOf_of hd ▸ hres))

/-- An argument that an operation reads afterwards it has read before, or got as an operand. -/
theorem mem_operandsOf (hv : v ∈ r'.argsOf b) (hq : r.op? q ≠ none) (hkept : δ.lost q = false)
    (hmem : v ∈ r'.operandsOf (δ.op q)) : v ∈ r.operandsOf q ∨ v ∈ δ.added q := by
  obtain ⟨d, hd⟩ := Option.ne_none_iff_exists'.mp hq
  cases herased : r.isErased q with
  | true =>
    left
    obtain ⟨e, he, -, -, hsame⟩ := h.kept q d hd
    obtain rfl := hsame (by rwa [isErased_of hd] at herased)
    rw [h.op_of_erased herased, operandsOf_of he] at hmem
    rwa [operandsOf_of hd]
  | false =>
    obtain ⟨e, he, hgrown⟩ := h.image_of_live hd herased hkept
    rw [operandsOf_of he, hgrown.operands] at hmem
    obtain ⟨u, hu, huv⟩ := List.mem_map.mp hmem
    obtain rfl := h.eq_of_value_eq hl' hv huv
    rw [operandsOf_of hd]
    exact List.mem_append.mp hu

/-- What reads an argument afterwards has read it before, unless something new in it does. -/
theorem reads (hl : r.Linked) (hy : y ∈ r'.argsOf b) (hadded : ∀ q, y ∉ δ.added q)
    (hp : r.op? p ≠ none) (hkept : δ.lost p = false) (hreads : r'.Reads (δ.op p) y) :
    r.Reads p y ∨ ∃ x, δ.new x = true ∧ r'.Inside (δ.op p) x ∧ y ∈ r'.operandsOf x := by
  obtain ⟨q, hin, hlast, hmem⟩ := hreads
  rcases h.inside hl hl' hp hkept hin with ⟨q, rfl, hq, hentry, hkept'⟩ | hnew
  · refine .inl ⟨q, hq, ?_, (h.mem_operandsOf hl' hy hentry hkept' hmem).resolve_right (hadded q)⟩
    rcases hlast with he | hlast
    · exact .inl (h.injective q p he hentry hp)
    · obtain ⟨d, hd⟩ := Option.ne_none_iff_exists'.mp hp
      rw [isTerminator, (h.same_image hd hkept).2] at hlast
      exact .inr hlast
  · exact .inr ⟨q, hnew, hin, hmem⟩

end Change

/-! ## After a loop is closed -/

/-- Where a list does not change, what stands in it is neither renamed nor lost. -/
theorem Change.stays_listed (h : Change r r' δ) (hl : r.Linked) (hsame : r'.opsOf b = r.opsOf b)
    (hq : q ∈ r.opsOf b) : δ.op q = q ∧ δ.lost q = false := by
  have hentry := hl.op?_of_listed hq
  rcases h.mem_opsOf (hsame ▸ hq) with ⟨p, rfl, -, hkept⟩ | hnew
  · have hop : δ.op p = p := by
      by_contra hne
      exact hentry (h.renamed p hne).2.2.1
    rw [hop]
    exact ⟨hop, hkept⟩
  · exact absurd (h.new q hnew).1 hentry

/-- Steps that leave alone the lists under a block do not disturb the order in the block. -/
theorem Timely.step (h : Timely r b a y) (hl : r.Linked) (hlegal : Legal f F r r' δ)
    (hunder : ∀ c, r'.Under b c → ¬ F.blocks c) (ha : a ∈ r.argsOf b) (hy : y ∈ r.argsOf b)
    (hbuffer : r.holdsBuffer y = true) : Timely r' b a y := by
  have hl' := hlegal.linked
  have hchange := hlegal.change
  have hsame : ∀ c, r'.Under b c → r'.opsOf c = r.opsOf c := fun c hc =>
    hlegal.blocks c (hunder c hc)
  intro x p hsub hkind hax hreads
  rw [hsame b (.inl rfl)] at hsub
  have hx : x ∈ r.opsOf b := hsub.subset (by simp)
  have hp : p ∈ r.opsOf b := hsub.subset (by simp)
  obtain ⟨hopx, hkeptx⟩ := hchange.stays_listed hl (hsame b (.inl rfl)) hx
  obtain ⟨hopp, hkeptp⟩ := hchange.stays_listed hl (hsame b (.inl rfl)) hp
  have hentry := hl.op?_of_listed hx
  have hkind' : r.kind? x = some (.retain 0) := by rwa [← hchange.keeps.kind?_eq hentry]
  have hargs := hchange.keeps.args b
  refine h x p hsub hkind' ?_ ?_
  · -- a retain gets no operands
    have hadded : δ.added x = [] :=
      hchange.added_eq_nil hentry hopx (by simp [isTerminator, hkind', OpKind.isTerminator])
    rw [← hopx] at hax
    apply (hchange.mem_operandsOf hl' (hargs.subset ha) hentry hkeptx hax).resolve_right
    simp [hadded]
  · have hadded : ∀ q, y ∉ δ.added q := by
      intro q hmem
      have htyped := (hlegal.sound.added q y hmem).2
      simp [Routine.holdsBuffer, htyped, Ty.isBuffer] at hbuffer
    rw [← hopp] at hreads
    refine (hchange.reads hl' hl (hargs.subset hy) hadded (hl.op?_of_listed hp) hkeptp
      hreads).resolve_right ?_
    rintro ⟨z, hnew, hin, -⟩
    have hnone := (hchange.new z hnew).1
    rw [hopp] at hin
    -- what is new would stand in a list that does not change
    rcases hin.cases_tail with rfl | ⟨m, hin, hup⟩
    · exact hl.op?_of_listed hp hnone
    · obtain ⟨c, hparent, hholder⟩ := exists_parent?_of_up? hup
      have hparentp : r'.parent? p = some b := by
        rwa [← hl'.op_listed, hsame b (.inl rfl)]
      have hlisted := (hl'.op_listed z c).mpr hparent
      rw [hsame c (.inr ⟨p, hparentp, m, hin, hholder⟩)] at hlisted
      exact hl.op?_of_listed hlisted hnone

theorem Timely.run (h : Timely s.routine b a y) (hw : f.WellFormed) (ht : Threaded f s)
    (hrun : Run f F s s') (hunder : ∀ c, f.Under b c → ¬ F.blocks c)
    (ha : a ∈ s.routine.argsOf b) (hy : y ∈ s.routine.argsOf b)
    (hbuffer : s.routine.holdsBuffer y = true) : Timely s'.routine b a y := by
  refine hrun.preserves (P := fun r => Timely r b a y) h fun hrun hlegal haliases ih => ?_
  have hkeeps := hrun.keeps
  have ht' := ht.run hw hrun
  obtain ⟨ε, hε⟩ := (ht'.step hw (.edit _ hlegal haliases)).embedded
  refine ih.step ht'.wellFormed.linked hlegal (fun c hc => hunder c ?_)
    ((hkeeps.args b).subset ha) ((hkeeps.args b).subset hy) (hkeeps.holdsBuffer hbuffer)
  exact hε.change.under hw.linked hlegal.linked hc

/-! ## Where a block is closed -/

/-- One operation that the end of a block inserts: a release of an owned indicator in whose class
nothing escapes, a retain for values that escape, or an indicator that owns nothing. -/
inductive Closing (c : AliasClasses) (settings : Settings) (t : OpId)
    (escaping owned : List ValueId) : Routine → Routine → Prop
  | release {r r' : Routine} {i : ValueId} {anchor x : OpId} : i ∈ owned →
      (∀ v ∈ escaping, c.same v i = false) → r.releaseAnchor settings c t i = .ok anchor →
      Emit.operation (.before anchor) (.retain 0) [i] [] 0 r = .ok (x, r') →
      Closing c settings t escaping owned r r'
  | keep {r r' : Routine} {kept indicators : List ValueId} {x : OpId} : kept ≠ [] →
      (∀ v ∈ kept, v ∈ escaping) → (∀ i ∈ indicators, i ∈ owned) →
      Emit.operation (.before t) (.retain kept.length) (kept ++ indicators)
        (kept.map fun _ => .ownership) 0 r = .ok (x, r') →
      Closing c settings t escaping owned r r'
  | null {r r' : Routine} {x : OpId} :
      Emit.operation (.before t) .null [] [.ownership] 0 r = .ok (x, r') →
      Closing c settings t escaping owned r r'

/-- What the end of a block inserts, in order. -/
abbrev Closings (c : AliasClasses) (settings : Settings) (t : OpId)
    (escaping owned : List ValueId) : Routine → Routine → Prop :=
  Relation.ReflTransGen (Closing c settings t escaping owned)

namespace Pass

variable {acquired : List ValueId}

/-- A class from which something escapes has a group, and the group has what escapes. -/
theorem planEscapes_ne_nil {c : AliasClasses} {owned : ValueSet} {group : EscapeGroup}
    (h : group ∈ c.planEscapes escaping owned) : group.escaping ≠ [] := by
  obtain ⟨leader, hleader, rfl⟩ := List.mem_map.mp h
  obtain ⟨v, hv, rfl⟩ := List.mem_map.mp (List.mem_eraseDups.mp hleader)
  obtain ⟨n, hn⟩ := List.mem_iff_getElem?.mp hv
  refine List.ne_nil_of_mem (a := (n, v)) (List.mem_filterMap.mpr ⟨(v, n), ?_, by simp⟩)
  exact List.mk_mem_zipIdx_iff_getElem?.mpr hn

theorem closeBlock_closings {held : ValueSet}
    (h : closeBlock settings t held s = .ok (acquired, s')) :
    Closings s.aliases settings t ((s.routine.operandsOf t).filter s.routine.holdsBuffer)
      held.toList s.routine s'.routine := by
  obtain ⟨escaping, mid₁, settled, mid₂, rfl, hrelease, hsettle, h⟩ := closeBlock_eq_ok h
  -- releasing leaves the classes as they are
  obtain ⟨-, hreleased⟩ := releaseUnescaped_chain (R := fun mid mid' => mid'.aliases = mid.aliases ∧
      (mid.aliases = s.aliases → Closings s.aliases settings t
        ((s.routine.operandsOf t).filter s.routine.holdsBuffer) held.toList
        mid.routine mid'.routine))
    (fun _ => ⟨rfl, fun _ => .refl⟩)
    (fun h h' => ⟨h'.1.trans h.1, fun he => (h.2 he).trans (h'.2 (h.1.trans he))⟩)
    (fun hi hnone hanchor hretain => by
      obtain ⟨hemit, haliases⟩ := retain_eq_ok hretain
      exact ⟨haliases, fun he => .single (.release hi (he ▸ hnone) (he ▸ hanchor) hemit)⟩) hrelease
  refine ((hreleased rfl).trans (settleGroups_chain (R := fun s s' => Closings _ settings t _ _
    s.routine s'.routine) (fun _ => .refl) .trans (fun hgroup hfirst => ?_) hsettle)).trans
    (fillSlots_chain (R := fun s s' => Closings _ settings t _ _ s.routine s'.routine)
      (fun _ => .refl) .trans (fun hnull => ?_) h)
  · obtain ⟨hescaping, howned⟩ := mem_planEscapes hgroup
    rcases settleGroup_eq_ok hfirst with ⟨-, -, rfl⟩ | ⟨x, mid, hretain, hroutine, -⟩
    · exact .refl
    · obtain ⟨hemit, -⟩ := retain_eq_ok hretain
      rw [hroutine]
      have hne := planEscapes_ne_nil hgroup
      refine .single (.keep (by simpa using hne) (fun v hv => ?_) howned hemit)
      obtain ⟨e, he, rfl⟩ := List.mem_map.mp hv
      exact hescaping e he
  · obtain ⟨-, -, x, hemit⟩ := null_eq_ok hnull
    exact .single (.null hemit)

end Pass

section Closing

variable {classes : AliasClasses} {escaping owned : List ValueId} {anchor : OpId}

theorem Unreleased.emit (h : Unreleased r b a)
    (hemit : Emit.operation point kind operands types 0 r = .ok (x, r'))
    (hnot : kind = .retain 0 → a ∉ operands) : Unreleased r' b a := by
  obtain ⟨-, c, pre, post, -, hem⟩ := Emit.operation_emitted hemit
  intro q hq hkind
  by_cases hfresh : q = r.freshOp
  · subst hfresh
    rw [kind?_of hem.op?_fresh] at hkind
    rw [operandsOf_of hem.op?_fresh]
    exact hnot (Option.some.inj hkind)
  · rw [Routine.kind?, hem.op?_of_ne hfresh] at hkind
    rw [Routine.operandsOf, hem.op?_of_ne hfresh]
    exact h q (hem.mem_opsOf_old hq hfresh) hkind

/-- If something in its class escapes, an indicator is not released. -/
theorem Unreleased.closings (h : Unreleased r b a) (hv : v ∈ escaping)
    (hsame : classes.same v a = true) (hrun : Closings classes settings t escaping owned r r') :
    Unreleased r' b a := by
  induction hrun with
  | refl => exact h
  | tail _ hstep ih =>
    cases hstep with
    | release _ hapart _ hemit =>
      refine ih.emit hemit fun _ ha => ?_
      have hnot := hapart v hv
      rw [← List.mem_singleton.mp ha, hsame] at hnot
      cases hnot
    | keep hne _ _ hemit =>
      refine ih.emit hemit fun hkind => ?_
      simp [hne] at hkind
    | null hemit => exact ih.emit hemit fun hkind => by cases hkind

/-- A block that ends in an operation, and an argument that this operation does not send. -/
structure Ending (r : Routine) (b : BlockId) (t : OpId) (y : ValueId) : Prop where
  linked : r.Linked
  list : ∃ front, r.opsOf b = front ++ [t]
  terminator : r.isTerminator t = true
  arg : y ∈ r.argsOf b
  unsent : y ∉ r.operandsOf t

theorem Ending.not_reads (h : Ending r b t y) : ¬ r.Reads t y := by
  rintro ⟨q, -, rfl | hterm, hmem⟩
  · exact h.unsent hmem
  · rw [h.terminator] at hterm
    cases hterm

theorem Ending.emit (h : Ending r b t y) (hlist : r.opsOf b = pre ++ anchor :: post)
    (hemit : Emit.operation (.before anchor) kind operands types 0 r = .ok (x, r'))
    (hinsert : Insertable kind operands types) : Ending r' b t y := by
  have hl := h.linked
  obtain ⟨rfl, hem⟩ := Emit.operation_before hl hlist hemit
  obtain ⟨front, hfront⟩ := h.list
  have ht : t ≠ r.freshOp := by
    rintro rfl
    exact hl.op?_of_listed (b := b) (by simp [hfront]) (op?_freshOp r)
  refine ⟨hl.operation hemit, ?_, ?_, by rw [hem.argsOf_eq]; exact h.arg, ?_⟩
  · have hlast := (hem.change hl (by simp) hinsert).last b
    rw [hfront, List.getLast?_concat] at hlast
    exact List.getLast?_eq_some_iff.mp hlast
  · rw [isTerminator, Routine.kind?, hem.op?_of_ne ht]
    exact h.terminator
  · rw [Routine.operandsOf, hem.op?_of_ne ht]
    exact h.unsent

/-- An operation that does not read the argument is inserted. If it releases the indicator, then
nothing after it reads the argument either. -/
theorem Timely.emit (h : Timely r b a y) (hend : Ending r b t y)
    (hlist : r.opsOf b = pre ++ anchor :: post)
    (hemit : Emit.operation (.before anchor) kind operands types 0 r = .ok (x, r'))
    (hinsert : Insertable kind operands types) (hnot : y ∉ operands)
    (hlast : kind = .retain 0 → a ∈ operands → ∀ p ∈ anchor :: post, ¬ r.Reads p y) :
    Timely r' b a y := by
  have hl := hend.linked
  have hl' := hl.operation hemit
  obtain ⟨rfl, hem⟩ := Emit.operation_before hl hlist hemit
  have hchange := hem.change hl (by simp) hinsert
  have hlist' : r'.opsOf b = pre ++ r.freshOp :: anchor :: post := by simp [hem.opsOf_eq]
  have harg : y ∈ r'.argsOf b := by rw [hem.argsOf_eq]; exact hend.arg
  have hfresh : y ∉ r'.operandsOf r.freshOp := by rwa [operandsOf_of hem.op?_fresh]
  intro q p hsub hkind ha hreads
  -- what reads the argument is not the new operation, so it was there and read it before
  have hp : p ≠ r.freshOp := by
    rintro rfl
    obtain ⟨m, hin, -, hmem⟩ := hreads
    rcases hin.cases_head with rfl | ⟨k, hup, -⟩
    · exact hfresh hmem
    · obtain ⟨c, -, hc⟩ := exists_parent?_of_up? hup
      exact hchange.not_holder_of_new hl' (by simp [Emitted.delta]) hc
  have hold : p ∈ r.opsOf b := hem.mem_opsOf_old (hsub.subset (by simp)) hp
  have hreads' : r.Reads p y := by
    refine (hchange.reads hl' hl harg (by simp [Emitted.delta]) (hl.op?_of_listed hold) rfl
      hreads).resolve_right ?_
    rintro ⟨z, hnew, -, hmem⟩
    obtain rfl : z = r.freshOp := by simpa [Emitted.delta] using hnew
    exact hfresh hmem
  by_cases hq : q = r.freshOp
  · subst hq
    rw [kind?_of hem.op?_fresh] at hkind
    rw [operandsOf_of hem.op?_fresh] at ha
    have hafter := mem_of_pair_sublist (hlist' ▸ hl'.ops_nodup b) (hlist' ▸ hsub)
    exact hlast (Option.some.inj hkind) ha p hafter hreads'
  · rw [Routine.kind?, hem.op?_of_ne hq] at hkind
    rw [Routine.operandsOf, hem.op?_of_ne hq] at ha
    rw [hlist'] at hsub
    exact h q p (hlist ▸ pair_sublist_of_ne hsub hq hp) hkind ha hreads'

/-- Where an indicator is released, nothing reads a value of its class from there on. -/
theorem Ending.release (h : Ending r b t y)
    (hanchor : r.releaseAnchor settings classes t i = .ok anchor) :
    ∃ pre post, r.opsOf b = pre ++ anchor :: post ∧
      (classes.same i y = true → ∀ p ∈ anchor :: post, ¬ r.Reads p y) := by
  obtain ⟨front, hfront⟩ := h.list
  obtain ⟨pre, post, hlist, hpassed⟩ := releaseAnchor_place h.linked hfront hanchor
  refine ⟨pre, post, hlist, fun hsame p hp => ?_⟩
  have hnodup := h.linked.ops_nodup b
  rw [hlist] at hnodup
  have hmem : p ∈ front ++ [t] := by
    rw [← hfront, hlist]
    exact List.mem_append_right _ hp
  rcases List.mem_append.mp hmem with hmem | hmem
  · rintro ⟨q, hin, -, hread⟩
    have hout : p ∉ pre := fun hpre => (List.nodup_append.mp hnodup).2.2 p hpre p hp rfl
    have hnot := operands_of_touches h.linked (hpassed p hmem hout) hin hread
    rw [hsame] at hnot
    cases hnot
  · rw [List.mem_singleton.mp hmem]
    exact h.not_reads

section

variable (h : Timely r b a y) (hend : Ending r b t y) (hsame : classes.same a y = true)
variable (hescaping : y ∉ escaping) (howned : y ∉ owned)
include h hend hsame hescaping howned

/-- One operation that the end of a block inserts. -/
theorem Timely.closing (hstep : Closing classes settings t escaping owned r r') :
    Timely r' b a y ∧ Ending r' b t y := by
  obtain ⟨front, hlist⟩ := hend.list
  cases hstep with
  | @release i _ _ hi _ hanchor hemit =>
    obtain ⟨pre, post, hplace, hafter⟩ := hend.release hanchor
    have hinsert : Insertable (.retain 0) [i] [] := .inr (.inr ⟨0, by simp⟩)
    refine ⟨?_, hend.emit hplace hemit hinsert⟩
    apply h.emit hend hplace hemit hinsert
    · intro hy
      exact howned (List.mem_singleton.mp hy ▸ hi)
    · -- it stands after all that reads something in its class
      intro _ ha
      rw [List.mem_singleton.mp ha] at hsame
      exact hafter hsame
  | @keep kept indicators _ hne hkept hindicators hemit =>
    have hinsert : Insertable (.retain kept.length) (kept ++ indicators)
        (kept.map fun _ => .ownership) := .inr (.inr ⟨_, rfl, by simp, by simp⟩)
    refine ⟨?_, hend.emit hlist hemit hinsert⟩
    apply h.emit hend hlist hemit hinsert
    · -- it reads what escapes and what is owned, and `y` is neither
      intro hy
      rcases List.mem_append.mp hy with hy | hy
      · exact hescaping (hkept y hy)
      · exact howned (hindicators y hy)
    · intro hkind
      simp [hne] at hkind
  | null hemit =>
    refine ⟨?_, hend.emit hlist hemit (.inr (.inl rfl))⟩
    apply h.emit hend hlist hemit (.inr (.inl rfl)) (by simp)
    intro hkind
    cases hkind

theorem Timely.closings (hrun : Closings classes settings t escaping owned r r') :
    Timely r' b a y := by
  have hboth : Timely r' b a y ∧ Ending r' b t y := by
    induction hrun with
    | refl => exact ⟨h, hend⟩
    | tail _ hstep ih => exact ih.1.closing ih.2 hsame hescaping howned hstep
  exact hboth.1

end

end Closing

/-! ## Before a block is closed -/

/-- The retains of a block are those that were there. -/
def NoNewRetains (b : BlockId) (r r' : Routine) : Prop :=
  ∀ x n, x ∈ r'.opsOf b → r'.kind? x = some (.retain n) →
    x ∈ r.opsOf b ∧ r.kind? x = some (.retain n)

namespace NoNewRetains

variable {buffers : List ValueId}

theorem refl (b : BlockId) (r : Routine) : NoNewRetains b r r := fun _ _ hx hkind => ⟨hx, hkind⟩

theorem trans {r'' : Routine} (h : NoNewRetains b r r') (h' : NoNewRetains b r' r'') :
    NoNewRetains b r r'' := by
  intro x n hx hkind
  obtain ⟨hx, hkind⟩ := h' x n hx hkind
  exact h x n hx hkind

theorem of_kept (hkept : Kept r r') (hl : r.Linked)
    (h : ∀ x ∈ r'.opsOf b, x ∈ r.opsOf b ∨ ∀ n, r'.kind? x ≠ some (.retain n)) :
    NoNewRetains b r r' := by
  intro x n hx hkind
  rcases h x hx with hold | hnot
  · exact ⟨hold, by rwa [← hkept.kind?_eq (hl.op?_of_listed hold)]⟩
  · exact absurd hkind (hnot n)

theorem emit (hkind : ∀ n, kind ≠ .retain n)
    (h : Emit.operation point kind operands types 0 r = .ok (x, r')) : NoNewRetains b r r' := by
  obtain ⟨-, c, pre, post, -, hem⟩ := Emit.operation_emitted h
  intro q n hq hretain
  have hne : q ≠ r.freshOp := by
    rintro rfl
    rw [kind?_of hem.op?_fresh] at hretain
    exact hkind n (Option.some.inj hretain)
  rw [Routine.kind?, hem.op?_of_ne hne] at hretain
  exact ⟨hem.mem_opsOf_old hq hne, hretain⟩

theorem ownAll (h : Pass.ownAll point buffers s = .ok (indicators, s')) :
    NoNewRetains b s.routine s'.routine := by
  induction buffers generalizing s indicators with
  | nil =>
    cases h
    exact .refl b _
  | cons v buffers ih =>
    obtain ⟨i, others, s₁, -, hown, hothers⟩ := Pass.ownAll_cons h
    obtain ⟨-, -, x, hemit⟩ := Pass.own_eq_ok hown
    exact (NoNewRetains.emit (by simp) hemit).trans (ih hothers)

theorem transferOperands {owned released released' : ValueSet}
    (h : Pass.transferOperands settings o owned buffers released s = .ok ((indicators, released'),
      s')) : NoNewRetains b s.routine s'.routine := by
  induction buffers generalizing s indicators released with
  | nil =>
    cases h
    exact .refl b _
  | cons v buffers ih =>
    rcases transferOperands_cons h with
      ⟨i, others, mid, -, ⟨hroutine, -, -, hothers⟩ | ⟨hnull, hothers⟩⟩
    · exact hroutine ▸ ih hothers
    · obtain ⟨-, -, x, hemit⟩ := Pass.null_eq_ok hnull
      exact (NoNewRetains.emit (by simp) hemit).trans (ih hothers)

end NoNewRetains

theorem ConstructPass.retains {owned : ValueSet} {site : ConstructSite}
    {regions : List RegionOutcome}
    (pass : ConstructPass f settings o d owned site regions s b front rest out s')
    (hcons : d.kind.construct?.isSome = true) :
    NoNewRetains b pass.inside.routine s'.routine := by
  refine (NoNewRetains.transferOperands pass.transfers).trans ?_
  have hl := pass.threaded'.wellFormed.linked
  obtain ⟨hx, pre, post, types, hreb⟩ := pass.exists_rebuilt
  rw [pass.routine]
  apply NoNewRetains.of_kept pass.run_rebuilds.keeps hl
  intro q hq
  rw [hreb.opsOf_new] at hq
  by_cases hfresh : q = pass.transferred.routine.freshOp
  · -- the new operation is a construct
    right
    intro n hkind
    rw [hfresh, kind?_of hreb.op?_fresh, pass.entry_kind] at hkind
    simp [Option.some.inj hkind, OpKind.construct?] at hcons
  · left
    rw [hreb.opsOf_old]
    simp only [List.mem_append, List.mem_cons] at hq ⊢
    tauto

/-- The treatment of an operation puts no retain into the block of the operation. -/
theorem Call.Placed.retains {c : Call} (h : c.Placed f settings final fuel b front rest)
    (hw : f.WellFormed) : NoNewRetains b c.before.routine c.after.routine := by
  have ht := h.atOp.threaded
  obtain ⟨n, d, rfl, hd, hcase⟩ := h.cases hw
  have htreat : OpSpec f _ := throughOpWithin_spec hw settings n
  -- what happens in the blocks of the operation leaves alone the list in which it stands
  have hblocks : ∀ {s s' : Session} {bs : List BlockId}, Threaded f s →
      (∀ a ∈ bs, f.holder? a = some c.op) → Run f (.ofBlocks f bs) s s' →
      NoNewRetains b s.routine s'.routine := by
    intro s s' bs ht hholder hrun
    apply NoNewRetains.of_kept hrun.keeps ht.wellFormed.linked
    intro x hx
    rw [hrun.opsOf_parent hw h.atOp.visited h.atOp.parent hholder] at hx
    exact .inl hx
  cases hcase with
  | effects next post _ _ hown _ => exact .ownAll hown
  | plain pairs _ _ hroutine _ =>
    rw [hroutine]
    exact .refl b _
  | unknown outs _ _ hat hpassed _ =>
    exact hblocks ht (hat.holder? hw.linked) (hpassed.run htreat hw hat (by simp))
  | construct kind site outs regions mid hkind hat hpassed _ _ _ _ hpass =>
    obtain ⟨pass⟩ := hpass
    have hcons : f.isConstruct c.op = true := by simp [isConstruct_of hd, hkind]
    have hrun := hpassed.run htreat hw hat fun _ => hcons
    have hholder := hat.holder? hw.linked
    exact ((hblocks ht hholder hrun).trans
      (hblocks (ht.run hw hrun) hholder pass.run_inside)).trans (pass.retains (by simp [hkind]))

/-- When a block is closed, an indicator that was made by the run has not been released there. -/
theorem Transit.Placed.unreleased (h : k.Placed f settings final fuel o) (hw : f.WellFormed)
    (pass : k.Passage f settings (Pass.throughOpWithin settings fuel))
    (ha : a ∈ pass.walked.routine.argsOf k.block) (hlater : f.values.size ≤ a.index) :
    Unreleased pass.walked.routine k.block a := by
  have hretains : ∀ x n, x ∈ pass.walked.routine.opsOf k.block →
      pass.walked.routine.kind? x = some (.retain n) → f.op? x ≠ none := by
    apply (Transit.Placed.walk pass (P := fun _ s => ∀ x n, x ∈ s.routine.opsOf k.block →
      s.routine.kind? x = some (.retain n) → f.op? x ≠ none) _ _).1
    · intro c hc hold x n hx hkind
      rcases h.call hw hc with ⟨front, rest, hcall⟩
      obtain ⟨hx, hkind⟩ := hcall.retains hw x n hx hkind
      exact hold x n hx hkind
    · intro x n hx _
      rw [pass.atOps.list, List.nil_append, ← pass.original] at hx
      exact hw.linked.op?_of_listed hx
  intro x hx hkind hmem
  have hentry := hretains x 0 hx hkind
  obtain ⟨δ, hδ⟩ := pass.threaded.embedded
  have hkind' : f.kind? x = some (.retain 0) := by rwa [← hδ.change.keeps.kind?_eq hentry]
  have hop : δ.op x = x :=
    hδ.change.op_eq_self (by simp [isConstruct, hkind', OpKind.construct?])
  have hadded : δ.added x = [] :=
    hδ.change.added_eq_nil hentry hop (by simp [isTerminator, hkind', OpKind.isTerminator])
  rw [← hop] at hmem
  -- a retain of the original routine gets no operands, and so it reads nothing new
  have hl := pass.threaded.wellFormed.linked
  have hold := (hδ.change.mem_operandsOf hl ha hentry (hδ.lossless x) hmem).resolve_right
    (by simp [hadded])
  exact Nat.not_lt.mpr hlater (hw.known x a hold)

/-! ## Loops -/

/-- A block that is closed has released an indicator in time for what is in its class. -/
theorem BlockPass.timely {treat : OpPass} {ownsInputs : Bool}
    (pass : BlockPass f settings treat b ownsInputs s out s') (hw : f.WellFormed)
    (hunreleased : Unreleased pass.walked.routine b a) (hy : y ∈ f.argsOf b)
    (hbuffer : f.holdsBuffer y = true) (hsame : pass.walked.aliases.same a y = true) :
    Timely s'.routine b a y := by
  have ht := pass.threaded
  obtain ⟨δ, hδ⟩ := ht.embedded
  have hknown := Visible.known hw.linked (.argument hy : f.Visible b [] y)
  have hclosings := Pass.closeBlock_closings pass.closes
  by_cases hsent : y ∈ pass.walked.routine.operandsOf pass.t
  · -- then something in the class of the indicator escapes, and the indicator with it
    have hescapes := List.mem_filter.mpr ⟨hsent, hδ.change.keeps.holdsBuffer hbuffer⟩
    exact (hunreleased.closings hescapes (AliasClasses.same_symm hsame) hclosings).timely
  · have hend : Ending pass.walked.routine b pass.t y := by
      refine ⟨ht.wellFormed.linked, ⟨_, pass.list⟩, ?_, (hδ.change.keeps.args b).subset hy, hsent⟩
      rw [isTerminator, ht.kind? (hw.op?_of_reached pass.reached)]
      exact pass.terminator
    apply hunreleased.timely.closings hend hsame _ _ hclosings
    · exact fun hmem => hsent (List.mem_filter.mp hmem).1
    · exact fun hmem => Nat.not_lt.mpr (pass.tokens y hmem).later hknown

/-- A loop that has been closed is not disturbed any more. -/
theorem Transit.Placed.timely (h : k.Placed f settings final fuel o) (hw : f.WellFormed)
    (hloop : f.InLoop k.block) (htimely : Timely k.after.routine k.block a y)
    (ha : a ∈ k.after.routine.argsOf k.block) (hy : y ∈ f.argsOf k.block)
    (hbuffer : f.holdsBuffer y = true) : Timely final.routine k.block a y := by
  have ht := h.threaded.run hw (h.run hw)
  obtain ⟨δ, hδ⟩ := ht.embedded
  apply htimely.run hw ht h.later _ ha ((hδ.change.keeps.args _).subset hy)
    (hδ.change.keeps.holdsBuffer hbuffer)
  rintro c hc (⟨-, hnot⟩ | hnot)
  · exact hnot hloop
  · exact hnot hc

/-- If two buffer arguments of a loop are in one class when their block is closed, then after the
indicator of the one is released nothing reads the other: it is no operand of an operation of the
block, nor of one nested there, except in what ends the block, which threading does not go into. -/
theorem threadOwnership_release_after_reads {report : Report} (hw : f.WellFormed)
    (h : f.threadOwnership settings = .ok (report, g)) (hloop : f.InLoop b)
    (hv : (v, a) ∈ f.accompanied g b) (hy : y ∈ f.argsOf b) (hbuffer : f.holdsBuffer y = true)
    (hclass : f.AliasesIn settings b v y) (hq : [q, p] <+ g.opsOf b)
    (hkind : g.kind? q = some (.retain 0)) (ha : a ∈ g.operandsOf q) :
    y ∉ g.operandsOf p ∧
      (g.isTerminator p = false → ∀ x, g.Inside p x → y ∉ g.operandsOf x) := by
  obtain ⟨out, final, hroot, rfl, -⟩ := threadOwnership_eq_ok h
  obtain ⟨fuel, k, body, owned, opened, held, walked, hk, rfl, ⟨hopens, hbody, hwalks⟩, hsame⟩ :=
    hclass
  rcases hk.placed hw hroot with ⟨o, hplaced⟩
  obtain ⟨pass⟩ := hplaced.pass hw
  cases hopens.symm.trans pass.opens
  cases hbody.symm.trans pass.bodyOps
  cases hwalks.symm.trans pass.walks
  -- the block has its arguments from its beginning on
  have hwalked := pass.argsOf_walked hw
  have hafter : k.after.routine.argsOf k.block = pass.walked.routine.argsOf k.block :=
    (pass.run_closes hw).argsOf id
  have hfinal : final.routine.argsOf k.block = k.after.routine.argsOf k.block :=
    hplaced.later.argsOf fun hnot => hnot (.inl rfl)
  have ha' : a ∈ final.routine.argsOf k.block := List.mem_of_mem_drop (List.of_mem_zip hv).2
  rw [accompanied, hfinal, hafter, hwalked] at hv
  have howns : k.ownsInputs = true := by
    obtain ⟨l, d, hl, hd, hconstruct⟩ := hloop
    obtain rfl := Option.some.inj ((hplaced.holder? hw).symm.trans hl)
    rw [hplaced.owns]
    simp [isConstruct, kind?_of hd, hconstruct]
  -- the indicator is in the class of its argument, and so of the other one
  obtain ⟨hlater, hjoined⟩ := pass.joined howns _ hv
  have hclass : pass.walked.aliases.same a y = true :=
    AliasClasses.same_trans
      (AliasClasses.same_symm (pass.atOps.threaded.same pass.run_walks hjoined)) hsame
  have hunreleased := hplaced.unreleased hw pass (by rwa [← hafter, ← hfinal]) hlater
  have hclosed := pass.timely hw hunreleased hy hbuffer hclass
  have hnot := hplaced.timely hw hloop hclosed (hfinal ▸ ha') hy hbuffer q p hq hkind ha
  exact ⟨fun hmem => hnot ⟨p, .refl, .inl rfl, hmem⟩,
    fun hterm x hin hmem => hnot ⟨x, hin, .inr hterm, hmem⟩⟩

/-- Two values are in one class when an operation is about to be treated. -/
def Routine.AliasesBefore (f : Routine) (settings : Settings) (o : OpId) (v w : ValueId) : Prop :=
  ∃ fuel k c, Transits f settings fuel k ∧ k.Calls (Pass.throughOpWithin settings fuel) c ∧
    c.op = o ∧ c.before.aliases.same v w = true

/-- The call for an operation in the body of a routine, found by going through what is before it. -/
theorem exists_body_call (settings : Settings) {P : Holdings × Session → Prop} [DecidablePred P]
    (henters : f.Enters f.root b)
    (hgoes : (Pass.throughBlock settings (Pass.throughOpWithin settings f.ops.size) b false
      (.start f)).toBool = true)
    (hbody : f.bodyOps b = .ok (pre ++ o :: post))
    (hwalks : (Pass.throughOps (Pass.throughOpWithin settings f.ops.size) (pre ++ o :: post) ⟨∅, ∅⟩
      (.start f)).toBool = true)
    (hpre : ((Pass.throughOps (Pass.throughOpWithin settings f.ops.size) pre ⟨∅, ∅⟩
      (.start f)).toOption.any fun a => decide (
        (Pass.throughOpWithin settings f.ops.size o a.1.owned a.2).toBool = true ∧ P a)) = true) :
    ∃ k c, Transits f settings f.ops.size k ∧
      k.Calls (Pass.throughOpWithin settings f.ops.size) c ∧ c.op = o ∧ P (c.held, c.before) := by
  obtain ⟨⟨out, final⟩, hgoes⟩ := exists_of_toBool hgoes
  obtain ⟨⟨held', walked⟩, hwalks⟩ := exists_of_toBool hwalks
  obtain ⟨⟨held, s⟩, hpre, ho, hP⟩ := exists_of_check hpre
  obtain ⟨⟨outcome, after⟩, ho⟩ := exists_of_toBool ho
  exact ⟨⟨b, false, .start f, out, final⟩, ⟨o, held, s, outcome, after⟩,
    .body rfl rfl henters hgoes,
    ⟨_, ∅, .start f, held', walked, ⟨rfl, hbody, hwalks⟩, .of_split hpre ho⟩, rfl, hP⟩

theorem Routine.InLoop.of_kind {l : OpId} (hholder : f.holder? b = some l)
    (hkind : f.kind? l = some .forLoop) : f.InLoop b := by
  obtain ⟨d, hd, hkind⟩ := exists_op?_of_kind? hkind
  exact ⟨l, d, hholder, hd, by rw [hkind]; rfl⟩

/-- A buffer and a view of it go into a loop. In the body comes an operation on some values, with
some results, and then the second argument is read. -/
def carrying (operands : List ValueId) (results : List Ty) : Edit Unit := do
  let entry : InsertPoint := .atEnd ⟨0⟩
  let buffer ← Emit.alloc entry (.buffer .f32 1)
  let _ ← Emit.generic entry "view" [buffer] [.buffer .f32 1] []
  let loop ← Emit.forLoop entry ⟨0⟩ ⟨0⟩ ⟨0⟩ [buffer, ⟨2⟩]
  let body : InsertPoint := .atEnd loop.body
  let _ ← Emit.generic body "use" operands results []
  let _ ← Emit.generic body "use" [⟨7⟩] [] []
  let first ← Emit.alloc body (.buffer .f32 1)
  let second ← Emit.alloc body (.buffer .f32 1)
  let _ ← Emit.yield body [first, second]
  let _ ← Emit.ret entry []

/-- The first operation of the body mixes the two arguments. -/
def mergedRoutine : Routine :=
  (carrying [⟨6⟩, ⟨7⟩] [.buffer .f32 1]).build "merged" [.scalar .index]

/-- The mixing has joined the two arguments by the end of the body. -/
theorem mergedRoutine_aliasesIn : mergedRoutine.AliasesIn {} ⟨1⟩ ⟨6⟩ ⟨7⟩ := by
  have henters : mergedRoutine.Enters mergedRoutine.root ⟨0⟩ := by decide +kernel
  have hbody : mergedRoutine.bodyOps ⟨0⟩ = .ok ([⟨1⟩, ⟨2⟩] ++ ⟨3⟩ :: []) := by decide +kernel
  -- the run up to the loop, and from there to the end of the body
  obtain ⟨K, c, hK, hc, hop, hblock, hopen⟩ := exists_body_call {}
    (P := fun a => (Pass.throughBlock {} (Pass.throughOpWithin {} 9) ⟨1⟩ true a.2).toBool = true ∧
      ((Pass.openBlock ⟨1⟩ true a.2).toOption.any fun opened => decide (
        ((opened.2.routine.bodyOps ⟨1⟩).toOption.any fun body => decide (
          ((Pass.throughOps (Pass.throughOpWithin {} 9) body ⟨opened.1, ∅⟩
            opened.2).toOption.any fun walked =>
              decide (walked.2.aliases.same ⟨6⟩ ⟨7⟩ = true)) = true)) = true)) = true)
    henters (by decide +kernel) hbody (by decide +kernel) (by decide +kernel)
  obtain ⟨⟨out, after⟩, hblock⟩ := exists_of_toBool hblock
  obtain ⟨⟨owned, opened⟩, hopens, hopen⟩ := exists_of_check hopen
  obtain ⟨body, hbody, hinner⟩ := exists_of_check hopen
  obtain ⟨⟨held, walked⟩, hwalks, hsame⟩ := exists_of_check hinner
  have hsize : mergedRoutine.ops.size = 9 + 1 := by decide +kernel
  rw [hsize] at hK hc
  obtain ⟨d, hd⟩ : ∃ d, mergedRoutine.op? ⟨3⟩ = some d :=
    Option.isSome_iff_exists.mp (by decide +kernel)
  have hblocks : (mergedRoutine.regionsOf ⟨3⟩).flatMap mergedRoutine.blocksOf = [⟨1⟩] := by
    decide +kernel
  have hcons : mergedRoutine.isConstruct ⟨3⟩ = true := by decide +kernel
  have hcalls : BlockCalls {} (Pass.throughOpWithin {} 9) (mergedRoutine.isConstruct c.op)
      (d.regions.flatMap mergedRoutine.blocksOf) c.before ⟨⟨1⟩, true, c.before, out, after⟩ := by
    rw [hop, ← regionsOf_of hd, hblocks, hcons]
    exact .first hblock
  have hinto : mergedRoutine.Enters ⟨3⟩ ⟨1⟩ := by decide +kernel
  exact ⟨9, _, body, owned, opened, held, walked,
    .inner hK hc (hop ▸ hd) (hop ▸ hinto) hcalls, rfl, ⟨hopens, hbody, hwalks⟩, hsame⟩

/-- The indicator of the first argument is released after the second has been read. -/
theorem mergedRoutine_release_after_reads :
    mergedRoutine.InLoop ⟨1⟩ ∧ mergedRoutine.AliasesIn {} ⟨1⟩ ⟨6⟩ ⟨7⟩ ∧
      ∃ report g, mergedRoutine.threadOwnership {} = .ok (report, g) ∧
        (⟨6⟩, ⟨12⟩) ∈ mergedRoutine.accompanied g ⟨1⟩ ∧ g.kind? ⟨13⟩ = some (.retain 0) ∧
        ⟨12⟩ ∈ g.operandsOf ⟨13⟩ ∧ [⟨5⟩, ⟨13⟩] <+ g.opsOf ⟨1⟩ ∧
        ∀ p, [⟨13⟩, p] <+ g.opsOf ⟨1⟩ → ⟨7⟩ ∉ g.operandsOf p ∧
          (g.isTerminator p = false → ∀ x, g.Inside p x → ⟨7⟩ ∉ g.operandsOf x) := by
  have hw : mergedRoutine.WellFormed := Routine.wellFormed_of_check (by decide +kernel)
  have hloop : mergedRoutine.InLoop ⟨1⟩ :=
    .of_kind (l := ⟨3⟩) (by decide +kernel) (by decide +kernel)
  obtain ⟨⟨report, g⟩, h, hx, hkind, ha, hbefore⟩ := exists_of_check
    (x := mergedRoutine.threadOwnership {})
    (P := fun answer => (⟨6⟩, ⟨12⟩) ∈ mergedRoutine.accompanied answer.2 ⟨1⟩ ∧
      answer.2.kind? ⟨13⟩ = some (.retain 0) ∧ ⟨12⟩ ∈ answer.2.operandsOf ⟨13⟩ ∧
      [⟨5⟩, ⟨13⟩] <+ answer.2.opsOf ⟨1⟩) (by decide +kernel)
  refine ⟨hloop, mergedRoutine_aliasesIn, report, g, h, hx, hkind, ha, hbefore, fun p hp => ?_⟩
  exact threadOwnership_release_after_reads hw h hloop hx (by decide +kernel) (by decide +kernel)
    mergedRoutine_aliasesIn hp hkind ha

/-- The first operation of the body reads the first argument only. -/
def carriedRoutine : Routine := (carrying [⟨6⟩] []).build "carried" [.scalar .index]

/-- Both arguments stand for one buffer, and an owned indicator comes in with the first. But in the
body the two are apart, and so the second is read after the indicator has been released. -/
theorem carriedRoutine_read_after_release :
    carriedRoutine.WellFormed ∧ carriedRoutine.InLoop ⟨1⟩ ∧
      carriedRoutine.AliasesBefore {} ⟨3⟩ ⟨1⟩ ⟨2⟩ ∧ ⟨7⟩ ∈ carriedRoutine.argsOf ⟨1⟩ ∧
      carriedRoutine.holdsBuffer ⟨7⟩ = true ∧
      ∃ report g, carriedRoutine.threadOwnership {} = .ok (report, g) ∧
        g.operandsOf ⟨16⟩ = [⟨0⟩, ⟨0⟩, ⟨0⟩, ⟨1⟩, ⟨2⟩, ⟨10⟩, ⟨15⟩] ∧ g.kind? ⟨10⟩ = some .own ∧
        g.resultsOf ⟨10⟩ = [⟨10⟩] ∧ (⟨6⟩, ⟨11⟩) ∈ carriedRoutine.accompanied g ⟨1⟩ ∧
        g.kind? ⟨13⟩ = some (.retain 0) ∧ ⟨11⟩ ∈ g.operandsOf ⟨13⟩ ∧
        [⟨13⟩, ⟨5⟩] <+ g.opsOf ⟨1⟩ ∧ ⟨7⟩ ∈ g.operandsOf ⟨5⟩ := by
  have henters : carriedRoutine.Enters carriedRoutine.root ⟨0⟩ := by decide +kernel
  have hbody : carriedRoutine.bodyOps ⟨0⟩ = .ok ([⟨1⟩, ⟨2⟩] ++ ⟨3⟩ :: []) := by decide +kernel
  obtain ⟨k, c, hk, hc, hop, hsame⟩ := exists_body_call {}
    (P := fun a => a.2.aliases.same ⟨1⟩ ⟨2⟩ = true) henters (by decide +kernel) hbody
    (by decide +kernel) (by decide +kernel)
  obtain ⟨⟨report, g⟩, h, hinits, hown, hresult, hx, hkind, ha, hafter, hread⟩ :=
    exists_of_check (x := carriedRoutine.threadOwnership {})
      (P := fun answer =>
        answer.2.operandsOf ⟨16⟩ = [⟨0⟩, ⟨0⟩, ⟨0⟩, ⟨1⟩, ⟨2⟩, ⟨10⟩, ⟨15⟩] ∧
        answer.2.kind? ⟨10⟩ = some .own ∧ answer.2.resultsOf ⟨10⟩ = [⟨10⟩] ∧
        (⟨6⟩, ⟨11⟩) ∈ carriedRoutine.accompanied answer.2 ⟨1⟩ ∧
        answer.2.kind? ⟨13⟩ = some (.retain 0) ∧ ⟨11⟩ ∈ answer.2.operandsOf ⟨13⟩ ∧
        [⟨13⟩, ⟨5⟩] <+ answer.2.opsOf ⟨1⟩ ∧ ⟨7⟩ ∈ answer.2.operandsOf ⟨5⟩) (by decide +kernel)
  exact ⟨Routine.wellFormed_of_check (by decide +kernel),
    .of_kind (l := ⟨3⟩) (by decide +kernel) (by decide +kernel),
    ⟨_, k, c, hk, hc, hop, hsame⟩, by decide +kernel, by decide +kernel, report, g, h, hinits, hown,
    hresult, hx, hkind, ha, hafter, hread⟩

end BufferOwnership
