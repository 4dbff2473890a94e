import BufferOwnership.Proofs.Certify
import BufferOwnership.Proofs.Walk

/-!
# Erasing ownership

Threading ownership through a routine adds to it and changes nothing else. Up to a renaming of the
treated constructs and their results, all operations are there with their kinds and regions, in
their places; what they have beyond that is of the type of indicators. So the original routine can
be read off the result by leaving out what was added.
-/

namespace BufferOwnership

open Routine

/-- Is an operation one of the original routine, under its new name? -/
def Routine.covers (f : Routine) (σ : OpId → OpId) (q : OpId) : Bool :=
  (List.range f.ops.size).any fun i => σ ⟨i⟩ = q

/-- An operation that is what it was, but for indicators that were added. Operands are added to
treated constructs and to the terminators of their blocks, results to treated constructs. -/
structure Op.Enriched (f g : Routine) (τ : ValueId → ValueId) (p : OpId) (d e : Op) : Prop where
  live : e.erased = false
  kind : e.kind = d.kind
  regions : e.regions = d.regions
  operands : ∃ extra, e.operands = d.operands.map τ ++ extra ∧
    (∀ v ∈ extra, g.ty? v = some .ownership) ∧ (extra ≠ [] → f.VisitedConstruct p ∨ f.Closes p)
  results : ∃ extra, e.results.map g.ty? = d.results.map f.ty? ++ extra ∧
    (∀ ty ∈ extra, ty = some .ownership) ∧ (extra ≠ [] → f.VisitedConstruct p)

/-- The second routine is the first with ownership added, under new names. -/
structure Enriches (f g : Routine) (σ : OpId → OpId) (τ : ValueId → ValueId) : Prop where
  root : g.root = f.root
  blocksOf : ∀ k, g.blocksOf k = f.blocksOf k
  /-- Treated constructs get new names, and nothing else does. -/
  op_renamed : ∀ p, f.VisitedConstruct p → f.op? (σ p) = none
  op_fixed : ∀ p, ¬ f.VisitedConstruct p → σ p = p
  op_injective : ∀ p q, f.op? p ≠ none → f.op? q ≠ none → σ p = σ q → p = q
  /-- The results of a treated construct are the first results of the new one. -/
  value_renamed : ∀ p, f.VisitedConstruct p → (f.resultsOf p).map τ <+: g.resultsOf (σ p)
  value_fixed : ∀ v, (∀ p, f.VisitedConstruct p → v ∉ f.resultsOf p) → τ v = v
  /-- Every block has its operations, in order. -/
  opsOf : ∀ b, (g.opsOf b).filter (f.covers σ) = (f.opsOf b).map σ
  /-- Every block has its arguments, and only blocks of treated constructs get others. -/
  argsOf : ∀ b, ∃ extra, g.argsOf b = f.argsOf b ++ extra ∧
    (∀ v ∈ extra, g.ty? v = some .ownership) ∧ (extra ≠ [] → f.Opened b)
  op : ∀ p d, f.op? p = some d → d.erased = false →
    ∃ e, g.op? (σ p) = some e ∧ Op.Enriched f g τ p d e
  /-- What else there is handles indicators or is erased. -/
  others : ∀ q e, g.op? q = some e → f.covers σ q = false →
    e.erased = true ∨ e.kind = .own ∨ e.kind = .null ∨ ∃ n, e.kind = .retain n

variable {f g : Routine} {δ : Delta} {p q : OpId}

theorem covers_iff {σ : OpId → OpId} : f.covers σ q = true ↔ ∃ p, f.op? p ≠ none ∧ σ p = q := by
  simp only [covers, List.any_eq_true, List.mem_range, decide_eq_true_eq]
  constructor
  · rintro ⟨i, hi, rfl⟩
    obtain ⟨d, hd⟩ := exists_op? (r := f) (o := ⟨i⟩) hi
    exact ⟨⟨i⟩, by simp [hd], rfl⟩
  · rintro ⟨p, hp, rfl⟩
    obtain ⟨d, hd⟩ := Option.ne_none_iff_exists'.mp hp
    exact ⟨p.index, lt_of_op? hd, rfl⟩

/-- What is new covers nothing. -/
theorem Change.not_covers (h : Change f g δ) (hnew : δ.new q = true) : f.covers δ.op q = false := by
  by_contra hne
  obtain ⟨p, hp, rfl⟩ := covers_iff.mp (by simpa using hne)
  obtain ⟨hfresh, e, he, hins⟩ := h.new _ hnew
  by_cases hop : δ.op p = p
  · exact hp (hop ▸ hfresh)
  · -- a renamed operation is a construct, and a new one is none
    obtain ⟨d, e', hd, he', hgrown⟩ := h.image_of_renamed hop
    obtain rfl := Option.mem_unique he' he
    have hcons := (h.renamed p hop).1
    rw [isConstruct_of hd, ← hgrown.kind] at hcons
    rcases hins.kind with hk | hk | ⟨n, hk, -, -⟩ <;> simp [hk, OpKind.construct?] at hcons

section

variable (h : Embedding f g δ) (hw : f.WellFormed)
include h hw

/-- A treated construct gets a new name, since the old one is erased in the end. -/
theorem Embedding.op_ne (hdone : Done f g f.root) (hp : f.VisitedConstruct p) : δ.op p ≠ p :=
  h.op_ne_of_gone hw (hp.1.reached hw.linked) (hdone p hp.1 hp.2).1

theorem Embedding.op_enriched {d e : Op} (hd : f.op? p = some d) (hgrown : Op.Grown f g δ p d e) :
    Op.Enriched f g δ.value p d e where
  live := hgrown.live
  kind := hgrown.kind
  regions := hgrown.regions
  operands := by
    -- indicators are no results of constructs of the original routine
    have hfix : (δ.added p).map δ.value = δ.added p :=
      (List.map_congr_left fun v hv =>
        h.change.value_of_later hw.linked (h.typed p v hv).2).trans (List.map_id _)
    refine ⟨δ.added p, ?_, fun v hv => (h.typed p v hv).1, h.added p⟩
    rw [hgrown.operands, List.map_append, hfix]
  results := by
    obtain ⟨extra, hres, htyped, hfixed, -⟩ := hgrown.results
    refine ⟨extra.map g.ty?, ?_, ?_, fun hne => ?_⟩
    · have htypes : ∀ v ∈ d.results, g.ty? (δ.value v) = f.ty? v := fun v hv => by
        obtain ⟨V, hV⟩ := exists_value? (hw.linked.result_known (o := p) (by rwa [resultsOf_of hd]))
        rw [h.change.type v V hV, ty?_of hV]
      rw [hres, List.map_append, List.map_map]
      exact congrArg (· ++ _) (List.map_congr_left htypes)
    · intro ty hty
      obtain ⟨v, hv, rfl⟩ := List.mem_map.mp hty
      exact htyped v hv
    · exact h.renamed p fun hop => hne (by simp [hfixed hop])

/-- Once all treated constructs are rebuilt, the routine is the original with ownership added. -/
theorem Embedding.enriches (hdone : Done f g f.root) : Enriches f g δ.op δ.value where
  root := h.change.root
  blocksOf := h.change.blocksOf
  op_renamed p hp := (h.change.renamed p (h.op_ne hw hdone hp)).2.2.1
  op_fixed p hp := by
    by_contra hne
    exact hp (h.renamed p hne)
  op_injective p q hp hq heq := h.change.injective p q heq hp hq
  value_renamed p hp := by
    obtain ⟨d, e, hd, he, hgrown⟩ := h.change.image_of_renamed (h.op_ne hw hdone hp)
    obtain ⟨extra, hres, -⟩ := hgrown.results
    rw [resultsOf_of hd, resultsOf_of he, hres]
    exact List.prefix_append ..
  value_fixed v hv := by
    by_contra hne
    obtain ⟨p, hp, hres⟩ := h.change.moved v hne
    exact hv p (h.renamed p hp) hres
  opsOf b := by
    have hlists := h.change.lists b
    simp only [h.lossless, Bool.not_false, List.filter_true] at hlists
    rw [← hlists]
    refine List.filter_congr fun q hq => ?_
    cases hnew : δ.new q with
    | true => exact h.change.not_covers hnew
    | false =>
      have hmem : q ∈ (g.opsOf b).filter fun p => !δ.new p := by simp [hq, hnew]
      rw [hlists] at hmem
      obtain ⟨p, hp, rfl⟩ := List.mem_map.mp hmem
      exact covers_iff.mpr ⟨p, hw.linked.op?_of_listed hp, rfl⟩
  argsOf b := by
    obtain ⟨extra, hargs, htyped⟩ := h.change.args b
    refine ⟨extra, hargs, htyped, fun hne => h.opened b fun heq => hne ?_⟩
    simpa [hargs] using heq
  op p d hd hlive := by
    obtain ⟨e, he, hgrown⟩ := h.change.image p d hd hlive (h.lossless p)
    exact ⟨e, he, h.op_enriched hw hd hgrown⟩
  others q e he hout := by
    rcases h.change.only q (by simp [he]) with hold | hnew | ⟨p, rfl, hne⟩ | ⟨herased, -⟩
    · -- an operation of the original routine that is not covered has got another name
      have hne : δ.op q ≠ q := fun hop => by
        rw [covers_iff.mpr ⟨q, hold, hop⟩] at hout
        cases hout
      have hgone := (h.change.renamed q hne).2.2.2
      rw [isErased_of he] at hgone
      exact .inl hgone
    · obtain ⟨-, e', he', hins⟩ := h.change.new q hnew
      obtain rfl := Option.mem_unique he' he
      rcases hins.kind with hk | hk | ⟨n, hk, -, -⟩
      · exact .inr (.inl hk)
      · exact .inr (.inr (.inl hk))
      · exact .inr (.inr (.inr ⟨n, hk⟩))
    · obtain ⟨d, -, hd, -⟩ := h.change.image_of_renamed hne
      rw [covers_iff.mpr ⟨p, by simp [hd], rfl⟩] at hout
      cases hout
    · rw [isErased_of he] at herased
      exact .inl herased

end

/-- What threading answers with comes from a run from the root. -/
theorem threadOwnership_eq_ok {settings : Settings} {report : Report}
    (h : f.threadOwnership settings = .ok (report, g)) :
    ∃ out s, f.threadFromRoot settings = .ok (out, s) ∧ g = s.routine ∧
      report.returned = out.acquired := by
  obtain ⟨⟨out, s⟩, hroot, h⟩ := bind_eq_ok.mp h
  obtain ⟨_, -, h⟩ := bind_eq_ok.mp h
  cases h
  exact ⟨out, s, hroot, rfl, rfl⟩

/-- Erasing ownership gives the original routine back. -/
theorem threadOwnership_enriches (hw : f.WellFormed) (settings : Settings) {report : Report}
    (h : f.threadOwnership settings = .ok (report, g)) : ∃ σ τ, Enriches f g σ τ := by
  obtain ⟨out, s, hroot, rfl, -⟩ := threadOwnership_eq_ok h
  obtain ⟨ht, hdone, -⟩ := threadFromRoot_spec hw hroot
  obtain ⟨δ, hδ⟩ := ht.embedded
  exact ⟨δ.op, δ.value, hδ.enriches hw hdone⟩

theorem threadOwnership_enriches_renewal :
    ∃ report g, renewalRoutine.threadOwnership {} = .ok (report, g) ∧
      ∃ σ τ, Enriches renewalRoutine g σ τ := by
  obtain ⟨⟨report, g⟩, h⟩ :=
    exists_of_toBool (x := renewalRoutine.threadOwnership {}) (by decide +kernel)
  exact ⟨report, g, h, threadOwnership_enriches renewalRoutine_wellFormed {} h⟩

end BufferOwnership
