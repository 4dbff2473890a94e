import BufferOwnership.Proofs.Trace

/-!
# Names that last

A value gets another name when the construct that it is a result of is rebuilt. What an operation
reads comes from constructs before it, if from a construct at all, and these have been rebuilt when
the operation is called for. So from then on its operands keep their names, and an operation with
effects, which gets no further operands, keeps its whole entry.
-/

namespace BufferOwnership

open Routine

variable {f r r' : Routine} {F : Footprint} {s s' final : Session} {b : BlockId} {o p q : OpId}
variable {front rest : List OpId} {v w : ValueId} {d : Op} {settings : Settings} {fuel : Nat}
variable {δ ε : Delta} {c : Call}

/-- A value keeps its name from now on: it is no result of a construct that is still to be
rebuilt. -/
def Settled (f r : Routine) (v : ValueId) : Prop :=
  ∀ p, v ∈ r.resultsOf p → f.VisitedConstruct p → r.isErased p = true

namespace Settled

theorem value (h : Settled f r v) (hlegal : Legal f F r r' δ) : δ.value v = v := by
  by_contra hne
  obtain ⟨p, hp, hres⟩ := hlegal.change.moved v hne
  have herased := h p hres (hlegal.renamed p hp)
  rw [(hlegal.change.renamed p hp).2.1] at herased
  cases herased

theorem run (h : Settled f s.routine v) (hrun : Run f F s s') (ht : Threaded f s)
    (hw : f.WellFormed) : Settled f s'.routine v := by
  intro p hres hp
  have hold := ht.op? (hw.op?_of_reached (hp.1.reached hw.linked))
  rw [hrun.keeps.resultsOf hold] at hres
  exact hrun.keeps.isErased (h p hres hp)

/-- What the run has made is no result of a construct that is still to be rebuilt. -/
theorem of_later (ht : Threaded f s) (hw : f.WellFormed) (hlater : f.values.size ≤ v.index) :
    Settled f s.routine v := by
  intro p hres hp
  exact absurd (ht.later_op hw.linked hres hlater) (hw.op?_of_reached (hp.1.reached hw.linked))

end Settled

/-- Once the constructs before some place are rebuilt, what can be used there has its last name. -/
theorem Routine.Visible.settled (hvis : f.Visible b front v) (hδ : Embedding f r δ)
    (hw : f.WellFormed) (hl : r.Linked)
    (hfront : ∀ p ∈ front, f.VisitedConstruct p → r.isErased p = true)
    (haround : ∀ o, f.holder? b = some o → Cleared f r o) : Settled f r (δ.value v) := by
  induction hvis with
  | @argument b front v harg =>
    intro p hres
    rw [hδ.change.value_arg hw.linked harg] at hres
    obtain ⟨extra, hargs⟩ := hδ.change.keeps.args b
    exact absurd (hargs ▸ List.mem_append_left _ harg) (hl.not_arg_of_result hres)
  | @earlier b front v p hp hv =>
    intro q hres hq
    have himage := (hδ.change.carries hw.linked).results p (by simp [hδ.lossless]) v hv
    obtain rfl := hl.result_unique himage hres
    by_cases hop : δ.op p = p
    · rw [hop] at hq ⊢
      exact hfront p hp hq
    · -- the new name of a rebuilt construct is none of the original routine
      have hnone := (hδ.change.renamed p hop).2.2.1
      exact absurd hnone (hw.op?_of_reached (hq.1.reached hw.linked))
  | @enclosing b a front before after v o hholder hlist _ ih =>
    have hcleared := haround o hholder
    have hparent := (hw.linked.op_listed o a).mp (by simp [hlist])
    apply ih
    · intro p hp
      exact hcleared o p .refl ⟨a, before, after, hlist, hp⟩
    · intro m hm x p hin
      exact hcleared x p (hin.step ((up?_of_parent? hparent).trans hm))

/-- Where the constructs before an operation are rebuilt, its operands have their last names. -/
theorem Cleared.settled (h : Cleared f r q) (hδ : Embedding f r δ) (hw : f.WellFormed)
    (hl : r.Linked) (hq : f.Reached q) (hv : v ∈ f.operandsOf q) : Settled f r (δ.value v) := by
  obtain ⟨b, front, rest, hlist, hvis⟩ := hw.in_scope q hq v hv
  have hparent := (hw.linked.op_listed q b).mp (by simp [hlist])
  apply hvis.settled hδ hw hl
  · intro p hp
    exact h q p .refl ⟨b, front, rest, hlist, hp⟩
  · intro m hm x p hin
    exact h x p (hin.step ((up?_of_parent? hparent).trans hm))

/-- The same goes for the operands that an operation has under its new name, whatever it got. -/
theorem Cleared.operands_settled (h : Cleared f s.routine q) (hδ : Embedding f s.routine δ)
    (ht : Threaded f s) (hw : f.WellFormed) (hq : f.Reached q) :
    ∀ v ∈ s.routine.operandsOf (δ.op q), Settled f s.routine v := by
  intro v hv
  obtain ⟨d, hd⟩ := Option.ne_none_iff_exists'.mp (hw.op?_of_reached hq)
  obtain ⟨e, he, hgrown⟩ := hδ.change.image_of_live hd (hw.live q hq) (hδ.lossless q)
  rw [operandsOf_of he, hgrown.operands] at hv
  obtain ⟨u, hu, rfl⟩ := List.mem_map.mp hv
  rcases List.mem_append.mp hu with hu | hu
  · exact h.settled hδ hw ht.wellFormed.linked hq (operandsOf_of hd ▸ hu)
  · have hlater := (hδ.typed q u hu).2
    rw [hδ.change.value_of_later hw.linked hlater]
    exact .of_later ht hw hlater

/-! ## New names of operations -/

/-- The new operations of a block are those without an original entry that are no constructs. -/
theorem Embedding.new_iff (hδ : Embedding f r δ) (hl : f.Linked) (hq : q ∈ r.opsOf b) :
    δ.new q = true ↔ f.op? q = none ∧ r.isConstruct q = false := by
  constructor
  · intro hnew
    obtain ⟨hnone, e, he, hins⟩ := hδ.change.new q hnew
    refine ⟨hnone, ?_⟩
    rcases hins.kind with hk | hk | ⟨n, hk, -⟩ <;>
      simp [isConstruct_of he, hk, OpKind.construct?]
  · rintro ⟨hnone, hcons⟩
    rcases hδ.change.mem_opsOf hq with ⟨p, rfl, hp, -⟩ | hnew
    · -- it was there, and so it is a construct with a new name
      exfalso
      by_cases hop : δ.op p = p
      · exact hl.op?_of_listed hp (hop ▸ hnone)
      · obtain ⟨d, e, hd, he, hgrown⟩ := hδ.change.image_of_renamed hop
        have hconstruct := (hδ.change.renamed p hop).1
        rw [isConstruct_of hd] at hconstruct
        rw [isConstruct_of he, hgrown.kind, hconstruct] at hcons
        cases hcons
    · exact hnew

/-- The new name of an operation of a block can be read off the routine. -/
theorem Embedding.op_unique (hδ : Embedding f r δ) (hε : Embedding f r ε) (hl : f.Linked)
    (hp : p ∈ f.opsOf b) : δ.op p = ε.op p := by
  have hlists : ((r.opsOf b).filter fun q => !δ.new q) = (r.opsOf b).filter fun q => !ε.new q :=
    List.filter_congr fun q hq => by
      rw [Bool.eq_iff_iff]
      simp only [Bool.not_eq_true', ← Bool.not_eq_true, hδ.new_iff hl hq, hε.new_iff hl hq]
  rw [hδ.change.lists, hε.change.lists] at hlists
  simp only [hδ.lossless, hε.lossless, Bool.not_false, List.filter_true] at hlists
  exact List.map_inj_left.mp hlists p hp

/-- A new name is the last one. -/
theorem Embedding.op_last (hδ : Embedding f s.routine δ) (ht : Threaded f s) (hw : f.WellFormed)
    (hrun : Run f F s s') (hp : p ∈ f.opsOf b) (hne : δ.op p ≠ p)
    (hε : Embedding f s'.routine ε) : ε.op p = δ.op p := by
  have hkept : ∃ θ, Embedding f s'.routine θ ∧ θ.op p = δ.op p := by
    refine hrun.preserves (P := fun r => ∃ θ, Embedding f r θ ∧ θ.op p = δ.op p) ⟨δ, hδ, rfl⟩
      fun {_ _ η} hrun hlegal _ ih => ?_
    obtain ⟨θ, hθ, hop⟩ := ih
    refine ⟨_, hθ.step hw (ht.run hw hrun).wellFormed.linked hlegal, ?_⟩
    show η.op (θ.op p) = δ.op p
    rw [hop]
    -- only constructs of the original routine are renamed
    by_contra hmoved
    have hvisited := hlegal.renamed _ hmoved
    exact hw.op?_of_reached (hvisited.1.reached hw.linked) (hδ.change.renamed p hne).2.2.1
  obtain ⟨θ, hθ, hop⟩ := hkept
  rw [hε.op_unique hθ hw.linked hp, hop]

/-! ## Operations with effects -/

/-- An operation that is neither structural nor inserted keeps its entry but for operand names. -/
theorem Change.simple_entry (h : Change r r' δ) (hd : r.op? q = some d) (hlive : d.erased = false)
    (hcons : d.kind.construct? = none) (hterm : d.kind.isTerminator = false)
    (hretain : ∀ n, d.kind ≠ .retain n) :
    r'.op? q = some { d with operands := d.operands.map δ.value } := by
  obtain ⟨hop, hkept⟩ := h.stays (kind?_of hd) hcons hretain
  apply h.entry_kept hd hlive hkept hop
  exact h.added_eq_nil (by simp [hd]) hop (by simp [isTerminator_of hd, hterm])

theorem Change.effects_entry (h : Change r r' δ) (hd : r.op? q = some d) (hlive : d.erased = false)
    (heffects : d.allocated ≠ [] ∨ d.freed ≠ []) :
    r'.op? q = some { d with operands := d.operands.map δ.value } := by
  obtain ⟨hcons, hterm, -, -, hretain⟩ := Op.kind_of_effects heffects
  exact h.simple_entry hd hlive hcons hterm hretain

/-- With operands that keep their names, an operation not rebuilt, lost or extended stays. -/
theorem Run.entry_last (hrun : Run f F s s') (ht : Threaded f s) (hw : f.WellFormed)
    (hd : s.routine.op? q = some d) (hlive : d.erased = false) (hnot : ¬ f.VisitedConstruct q)
    (hterm : d.kind.isTerminator = false) (hretain : d.kind ≠ .retain d.operands.length)
    (hoperands : ∀ v ∈ d.operands, Settled f s.routine v) :
    s'.routine.op? q = some d := by
  refine hrun.preserves (P := fun r => r.op? q = some d) hd fun {_ _ δ} hrun hlegal _ ih => ?_
  have hop : δ.op q = q := by
    by_contra hne
    exact hnot (hlegal.renamed q hne)
  have hkept : δ.lost q = false := by
    by_contra hne
    obtain ⟨hkind, -⟩ := hlegal.change.lost q (by simpa using hne)
    rw [kind?_of ih, operandsOf_of ih] at hkind
    exact hretain (Option.some.inj hkind)
  have hadded : δ.added q = [] :=
    hlegal.change.added_eq_nil (by simp [ih]) hop (by simp [isTerminator_of ih, hterm])
  rw [hlegal.change.entry_kept ih hlive hkept hop hadded]
  have hsame : d.operands.map δ.value = d.operands :=
    List.map_congr_left (fun v hv => ((hoperands v hv).run hrun ht hw).value hlegal) |>.trans
      (List.map_id _)
  rw [hsame]

/-- With operands that keep their names, an operation that is not rebuilt only gets operands, and
none if it is no terminator. A retain that is erased keeps its operands. -/
theorem Run.operands_last (hrun : Run f F s s') (ht : Threaded f s) (hw : f.WellFormed)
    (hq : s.routine.op? q ≠ none) (hnot : ¬ f.VisitedConstruct q)
    (hoperands : ∀ v ∈ s.routine.operandsOf q, Settled f s.routine v) :
    ∃ extra, s'.routine.operandsOf q = s.routine.operandsOf q ++ extra ∧
      (s.routine.isTerminator q = false → extra = []) := by
  refine hrun.preserves (P := fun r => ∃ extra, r.operandsOf q = s.routine.operandsOf q ++ extra ∧
      (s.routine.isTerminator q = false → extra = [])) ⟨[], by simp, fun _ => rfl⟩
    fun {mid _ δ} hrun hlegal _ ih => ?_
  obtain ⟨extra, hextra, hnone⟩ := ih
  have hmid : mid.routine.op? q ≠ none := hrun.keeps.op?_ne_none hq
  obtain ⟨d, hd⟩ := Option.ne_none_iff_exists'.mp hmid
  by_cases hlost : δ.lost q = true
  · obtain ⟨-, -, -, hsame⟩ := hlegal.change.lost q hlost
    exact ⟨extra, hsame.trans hextra, hnone⟩
  have hop : δ.op q = q := by
    by_contra hne
    exact hnot (hlegal.renamed q hne)
  by_cases herased : d.erased = true
  · obtain ⟨e, he, -, -, hsame⟩ := hlegal.change.kept q d hd
    rw [hsame herased] at he
    exact ⟨extra, by rw [operandsOf_of he, ← operandsOf_of hd, hextra], hnone⟩
  · obtain ⟨e, he, hgrown⟩ :=
      hlegal.change.image q d hd (by simpa using herased) (by simpa using hlost)
    rw [hop] at he
    -- the operands that were there at first have their last names
    have hsame : (s.routine.operandsOf q).map δ.value = s.routine.operandsOf q :=
      List.map_congr_left (fun v hv => ((hoperands v hv).run hrun ht hw).value hlegal) |>.trans
        (List.map_id _)
    refine ⟨(extra ++ δ.added q).map δ.value, ?_, fun hterm => ?_⟩
    · rw [operandsOf_of he, hgrown.operands, ← operandsOf_of hd, hextra, List.append_assoc,
        List.map_append, hsame]
    · have hterm' : mid.routine.isTerminator q = false := by
        rwa [isTerminator, hrun.keeps.kind?_eq hq]
      rw [hnone hterm, hlegal.change.added_eq_nil hmid hop hterm']
      rfl

theorem Routine.Frees.effects (h : r.Frees o v) :
    ∃ d, r.op? o = some d ∧ (d.allocated ≠ [] ∨ d.freed ≠ []) := by
  obtain ⟨d, hd, hv⟩ := h
  exact ⟨d, hd, .inr (List.ne_nil_of_mem hv)⟩

/-- What is freed is freed under its new name. -/
theorem Routine.FreesAt.image {n : Nat} (h : f.FreesAt o n v) (hδ : Embedding f r δ)
    (hlive : f.isErased o = false) : r.FreesAt o n (δ.value v) := by
  obtain ⟨d, hd, hv⟩ := h
  rw [isErased_of hd] at hlive
  have heffects : d.freed ≠ [] := List.ne_nil_of_mem (List.mem_of_getElem? hv)
  refine ⟨_, hδ.change.effects_entry hd hlive (.inr heffects), ?_⟩
  rw [Op.freed_map, List.getElem?_map, hv]
  rfl

/-- What frees something is an operation of the original routine, and frees the same there. -/
theorem Routine.Frees.preimage (h : r.Frees o v) (hδ : Embedding f r δ)
    (hlive : r.isErased o = false) : ∃ u, f.Frees o u ∧ δ.value u = v := by
  obtain ⟨e, he, hv⟩ := h
  obtain ⟨hcons, hterm, hown, hnull, hretain⟩ :=
    Op.kind_of_effects (.inr (List.ne_nil_of_mem hv) : e.allocated ≠ [] ∨ e.freed ≠ [])
  -- insertions and rebuilt constructs have no effects
  have hf : f.op? o ≠ none := by
    rcases hδ.change.only o (by simp [he]) with hold | hnew | ⟨p, rfl, hne⟩ | ⟨-, n, hkind⟩
    · exact hold
    · obtain ⟨-, e', he', hins⟩ := hδ.change.new o hnew
      obtain rfl := Option.mem_unique he he'
      rcases hins.kind with hk | hk | ⟨n, hk, -⟩
      · exact absurd hk hown
      · exact absurd hk hnull
      · exact absurd hk (hretain n)
    · obtain ⟨d, e', hd, he', hgrown⟩ := hδ.change.image_of_renamed hne
      obtain rfl := Option.mem_unique he he'
      have hconstruct := (hδ.change.renamed p hne).1
      simp [isConstruct_of hd, ← hgrown.kind, hcons] at hconstruct
    · rw [kind?_of he] at hkind
      exact absurd (Option.some.inj hkind) (hretain n)
  obtain ⟨d, hd⟩ := Option.ne_none_iff_exists'.mp hf
  obtain ⟨e', he', hkind, -, hsame⟩ := hδ.change.kept o d hd
  obtain rfl := Option.mem_unique he he'
  have hdlive : d.erased = false := by
    by_contra hne
    rw [isErased_of he, hsame (by simpa using hne)] at hlive
    exact hne hlive
  rw [hkind] at hcons hterm hretain
  have hentry := hδ.change.simple_entry hd hdlive hcons hterm hretain
  obtain rfl := Option.mem_unique he hentry
  rw [Op.freed_map] at hv
  obtain ⟨u, hu, rfl⟩ := List.mem_map.mp hv
  exact ⟨u, ⟨d, hd, hu⟩, rfl⟩

section

variable (h : c.Placed f settings final fuel b front rest) (hw : f.WellFormed)
include h hw

/-- An operation that frees something has its last entry when it is called for. -/
theorem Call.Placed.entry (hv : f.Frees c.op v) :
    final.routine.op? c.op = c.before.routine.op? c.op := by
  have ht := h.atOp.threaded
  have hreached := h.atOp.visited.reached hw.linked
  obtain ⟨d, hd, heffects⟩ := hv.effects
  obtain ⟨δ, hδ⟩ := ht.embedded
  have hlive := hw.live _ hreached
  rw [isErased_of hd] at hlive
  have hentry := hδ.change.effects_entry hd hlive heffects
  rw [hentry]
  obtain ⟨hcons, hterm, -, -, hretain⟩ := Op.kind_of_effects heffects
  apply (h.ahead hw).entry_last ht hw hentry hlive _ hterm (hretain _)
  · intro w hw'
    obtain ⟨u, hu, rfl⟩ := List.mem_map.mp hw'
    exact h.cleared.settled hδ hw ht.wellFormed.linked hreached (operandsOf_of hd ▸ hu)
  · rintro ⟨-, hconstruct⟩
    simp [isConstruct_of hd, hcons] at hconstruct

/-- How an operation that frees something is treated. -/
theorem Call.Placed.effects (hd : f.op? c.op = some d)
    (heffects : d.allocated ≠ [] ∨ d.freed ≠ []) :
    (∃ next, Pass.ownAll (.before next) d.allocated c.before = .ok (c.out.acquired, c.after)) ∧
      ∀ w, w ∈ c.out.released ↔ c.before.routine.Frees c.op w := by
  have hclass := Op.classify_of_effects heffects
  obtain ⟨_, d', -, hd', hcase⟩ := h.cases hw
  obtain rfl := Option.mem_unique hd hd'
  cases hcase with
  | effects next post _ _ hown hreleased => exact ⟨⟨next, hown⟩, hreleased⟩
  | plain pairs hplain => cases hclass.symm.trans hplain
  | unknown outs hunknown => cases hclass.symm.trans hunknown
  | construct kind _ _ _ _ hkind =>
    rw [(Op.kind_of_effects heffects).1] at hkind
    cases hkind

/-- What an operation frees in the end is released when it is called for. -/
theorem Call.Placed.mem_released (hv : f.Frees c.op v) (hfrees : final.routine.Frees c.op w) :
    w ∈ c.out.released := by
  obtain ⟨d, hd, heffects⟩ := hv.effects
  rw [Frees, h.entry hw hv] at hfrees
  exact ((h.effects hw hd heffects).2 w).mpr hfrees

end

end BufferOwnership
