import BufferOwnership.Proofs.Erasure
import BufferOwnership.Proofs.Finished
import BufferOwnership.Proofs.Pairing

/-!
# Aliases as a closure

The alias classes at the end of a run are the smallest equivalence that the result of the run
declares: by plain operations, by inserted ones, and by the control flow of rebuilt constructs. Each
declared pair was joined in a stage of the run. And what a stage joins is declared in the end, since
the values have their last names by then; only a retain that is erased later on leaves results
behind, which may be replaced by what was kept.
-/

namespace BufferOwnership

open Routine

variable {f r g : Routine} {F : Footprint} {s s' final : Session} {b c : BlockId} {o p q t x : OpId}
variable {owned : ValueSet} {source : Option Nat} {front rest : List OpId} {v w : ValueId}
variable {d e : Op} {settings : Settings} {δ : Delta} {σ : OpId → OpId}
variable {pairs : List (ValueId × ValueId)} {edge : FlowEdge}

/-- Two values alias by what `g` says, which comes from `f` with its constructs renamed. -/
inductive Declared (f g : Routine) (σ : OpId → OpId) : ValueId → ValueId → Prop
  /-- A plain operation may give a view of a buffer with the same elements. -/
  | plain {o : OpId} {d : Op} {v w : ValueId} : f.Visited o → f.op? o = some d →
      d.classify = .plain → v ∈ g.resultsOf o → g.holdsBuffer v = true → w ∈ g.operandsOf o →
      g.holdsBuffer w = true → g.elemOf? w = g.elemOf? v → Declared f g σ v w
  /-- A buffer aliases the indicator that was made for it. -/
  | own {x : OpId} {v w : ValueId} : f.op? x = none → g.kind? x = some .own →
      (v, w) ∈ (g.operandsOf x).zip (g.resultsOf x) → Declared f g σ v w
  /-- What is retained aliases the indicator in its place. -/
  | retain {x : OpId} {n : Nat} {v w : ValueId} : f.op? x = none → g.kind? x = some (.retain n) →
      g.isErased x = false → (v, w) ∈ (g.operandsOf x).zip (g.resultsOf x) → Declared f g σ v w
  /-- What is sent along an edge aliases what receives it. -/
  | edge {o : OpId} {source : Option Nat} {edges : List FlowEdge} {edge : FlowEdge}
      {v w : ValueId} : f.VisitedConstruct o → g.flowEdges (σ o) source = .ok edges →
      edge ∈ edges → (v, w) ∈ edge.sent.zip edge.received → Declared f g σ v w
  /-- A buffer argument aliases the argument for its indicator. -/
  | argument {b : BlockId} {v w : ValueId} : f.Opened b → (v, w) ∈ f.accompanied g b →
      Declared f g σ v w
  /-- A buffer result of a construct aliases the result for its indicator. -/
  | result {o : OpId} {v w : ValueId} : f.VisitedConstruct o →
      (v, w) ∈ (((g.resultsOf (σ o)).take (f.resultsOf o).length).filter g.holdsBuffer).zip
        ((g.resultsOf (σ o)).drop (f.resultsOf o).length) → Declared f g σ v w

/-! ## Values that are there -/

/-- A value is an argument of a block, or a result of an operation that is not erased. -/
def Routine.Present (g : Routine) (v : ValueId) : Prop :=
  (∃ b, v ∈ g.argsOf b) ∨ ∃ p, v ∈ g.resultsOf p ∧ g.isErased p = false

/-- What stands in a block with something that is reached is reached. -/
theorem Routine.WellFormed.reached_block (hw : g.WellFormed) (ho : g.Reached o)
    {before after : List OpId} (hlist : g.opsOf c = before ++ o :: after) :
    (∀ p ∈ before, g.Reached p) ∧ ∀ m, g.holder? c = some m → g.Reached m := by
  have hparent : ∀ p ∈ before ++ [o], g.parent? p = some c := fun p hp =>
    (hw.linked.op_listed p c).mp (by rw [hlist]; grind)
  obtain ⟨m, hholder, hm⟩ := ho.exists_holder hw.root_unlinked (hparent o (by simp))
  refine ⟨fun p hp => ?_, fun m' hm' => ?_⟩
  · exact hm.step ((up?_of_parent? (hparent p (by simp [hp]))).trans hholder)
  · rw [hholder] at hm'
    exact Option.some.inj hm' ▸ hm

theorem Routine.Visible.present (hvis : g.Visible b front v) (hw : g.WellFormed)
    (hfront : ∀ p ∈ front, g.Reached p) (haround : ∀ m, g.holder? b = some m → g.Reached m) :
    g.Present v := by
  induction hvis with
  | argument harg => exact .inl ⟨_, harg⟩
  | earlier hp hv => exact .inr ⟨_, hv, hw.live _ (hfront _ hp)⟩
  | enclosing hholder hlist _ ih =>
    obtain ⟨hbefore, hout⟩ := hw.reached_block (haround _ hholder) hlist
    exact ih hbefore hout

theorem Routine.WellFormed.operand_present (hw : g.WellFormed) (ho : g.Reached o)
    (hv : v ∈ g.operandsOf o) : g.Present v := by
  obtain ⟨b, front, rest, hlist, hvis⟩ := hw.in_scope o ho v hv
  obtain ⟨hfront, haround⟩ := hw.reached_block ho hlist
  exact hvis.present hw hfront haround

/-- The results of what is neither erased nor a construct stay there. -/
theorem Embedding.result_present (hδ : Embedding f g δ) (hlive : f.isErased p = false)
    (hcons : f.isConstruct p = false) (hv : v ∈ f.resultsOf p) : g.Present v := by
  obtain ⟨d, hd, -⟩ := exists_op?_of_mem_resultsOf hv
  obtain ⟨e, he, hgrown⟩ := hδ.change.image_of_live hd hlive (hδ.lossless p)
  rw [hδ.change.op_eq_self hcons] at he
  refine .inr ⟨p, ?_, by rw [isErased_of he, hgrown.live]⟩
  rwa [hδ.change.keeps.resultsOf (by simp [hd])]

/-! ## Results of what is lost -/

/-- The value that stands in for another one: for a result of an inserted operation that is erased,
the operand in its place, and for all else the value itself. -/
def Routine.standIn (f g : Routine) (v : ValueId) : ValueId :=
  match g.origin? v with
  | some (.result x k) =>
    if (f.op? x).isNone && g.isErased x then (g.operandsOf x)[k]?.getD v else v
  | _ => v

theorem Routine.Present.standIn (h : g.Present v) (hl : g.Linked) : f.standIn g v = v := by
  rcases h with ⟨b, harg⟩ | ⟨p, hres, hlive⟩
  · obtain ⟨k, hk⟩ := hl.origin?_of_arg harg
    simp [Routine.standIn, hk]
  · obtain ⟨k, hk⟩ := hl.origin?_of_result hres
    simp [Routine.standIn, hk, hlive]

theorem standIn_of_gone (hl : g.Linked) (hnone : f.op? x = none) (hgone : g.isErased x = true)
    (hpair : (v, w) ∈ (g.operandsOf x).zip (g.resultsOf x)) : f.standIn g w = v := by
  obtain ⟨k, hk⟩ := List.mem_iff_getElem?.mp hpair
  obtain ⟨hv, hw⟩ := List.getElem?_zip_eq_some.mp hk
  rw [hl.result_listed] at hw
  simp [standIn, hw, hnone, hgone, show (g.operandsOf x)[k]? = some v from hv]

/-- Only retains are erased among the insertions, and they give indicators. -/
theorem Embedding.standIn_of_buffer (hδ : Embedding f g δ) (hl : g.Linked)
    (hv : g.holdsBuffer v = true) : f.standIn g v = v := by
  unfold standIn
  split
  · rename_i x k horigin
    rw [if_neg]
    intro hcond
    obtain ⟨hnone, hgone⟩ : f.op? x = none ∧ g.isErased x = true := by simpa using hcond
    have hres : v ∈ g.resultsOf x := List.mem_of_getElem? ((hl.result_listed v x k).mpr horigin)
    obtain ⟨e, he, -⟩ := exists_op?_of_mem_resultsOf hres
    -- of all that is new, only retains are ever erased
    have hcons : g.isConstruct x = false := by
      rcases hδ.change.only x (by simp [he]) with hold | hnew | ⟨p, hp, hne⟩ | ⟨-, n, hkind⟩
      · exact absurd hnone hold
      · obtain ⟨-, e', he', hins⟩ := hδ.change.new x hnew
        rw [isErased_of he', hins.live] at hgone
        cases hgone
      · obtain ⟨d', e', -, he', hgrown⟩ := hδ.change.image_of_renamed hne
        rw [← hp, isErased_of he', hgrown.live] at hgone
        cases hgone
      · simp [isConstruct, hkind, OpKind.construct?]
    have htyped := (hδ.made x hnone (by simp [he])).typed hcons v hres
    simp [holdsBuffer, htyped, Ty.isBuffer] at hv
  · rfl

/-- Two values are related by what a routine declares, with results of what is lost replaced. -/
def Related (f g : Routine) (σ : OpId → OpId) (v w : ValueId) : Prop :=
  Relation.EqvGen (Declared f g σ) (f.standIn g v) (f.standIn g w)

theorem Related.equivalence (f g : Routine) (σ : OpId → OpId) : Equivalence (Related f g σ) where
  refl _ := .refl _
  symm h := .symm _ _ h
  trans h h' := .trans _ _ _ h h'

theorem Declared.related (h : Declared f g σ v w) (hv : f.standIn g v = v)
    (hw : f.standIn g w = w) : Related f g σ v w := by
  rw [Related, hv, hw]
  exact .rel _ _ h

/-! ## What insertions join -/

theorem Settled.of_result (hl : r.Linked) (hv : v ∈ r.resultsOf q) (hq : ¬ f.VisitedConstruct q) :
    Settled f r v := by
  intro p hp hvisited
  exact absurd (hl.result_unique hv hp ▸ hvisited) hq

/-- What a stage inserts reads values under their last names, and a retain keeps only buffers. -/
abbrev Inserting (f : Routine) (s s' : Session) : Prop :=
  Pairs (Settled f s.routine) (fun v => s.routine.holdsBuffer v = true) s s'

theorem AtOp.ownAll_inserting {point : InsertPoint} {indicators : List ValueId}
    (hat : AtOp f s o owned b front rest) (hw : f.WellFormed) (hd : f.op? o = some d)
    (hclass : d.classify = .effects d.allocated d.freed)
    (h : Pass.ownAll point d.allocated s = .ok (indicators, s')) : Inserting f s s' := by
  apply ownAll_pairs _ h
  intro v hv
  apply Settled.of_result hat.threaded.wellFormed.linked (hat.allocated_results hw hd v hv)
  rintro ⟨-, hcons⟩
  cases (isConstruct_of_classify hd (by simp [hclass])).symm.trans hcons

theorem closeBlock_inserting (hw : f.WellFormed) (ht : Threaded f s)
    {acquired : List ValueId} (hreached : f.Reached t) (hlast : Intact f s.routine t)
    (htokens : ∀ i ∈ owned, Token f s.routine b front i) (hcleared : Cleared f s.routine t)
    (h : Pass.closeBlock settings t owned s = .ok (acquired, s')) : Inserting f s s' := by
  obtain ⟨δ, hδ⟩ := ht.embedded
  have hsettled := hcleared.operands_settled hδ ht hw hreached
  rw [hδ.op_eq_self hlast.live] at hsettled
  apply closeBlock_pairs _ _ h
  · exact fun v hv => ⟨hsettled v hv, id⟩
  · exact fun i hi => .of_later ht hw (htokens i hi).later

section

variable (h : Inserting f s s') (ht : Threaded f s) (hw : f.WellFormed) (hrun : Run f .all s s')
variable (hlater : Run f .all s' final)
include h ht hw hrun hlater

/-- What is inserted keeps operands and results, and is not erased unless it is an empty retain. -/
theorem Pairs.last (hx : s.routine.op? x = none) (hd : s'.routine.op? x = some d) :
    f.op? x = none ∧ final.routine.kind? x = some d.kind ∧
      final.routine.operandsOf x = d.operands ∧ final.routine.resultsOf x = d.results ∧
      (d.kind ≠ .retain d.operands.length → final.routine.isErased x = false) := by
  have ht' := ht.run hw hrun
  have hfit := h.made x d hx hd
  have hnone : f.op? x = none := by
    by_contra hne
    exact ht.op? hne hx
  have hnot : ¬ f.VisitedConstruct x := fun hvisited =>
    hw.op?_of_reached (hvisited.1.reached hw.linked) hnone
  have hsettled : ∀ v ∈ d.operands, Settled f s'.routine v := fun v hv =>
    (hfit.operands v hv).run hrun ht hw
  have hterm : d.kind.isTerminator = false := by
    rcases hfit.kind with hk | ⟨hk, -⟩ | ⟨n, hk, -⟩ <;> simp [hk, OpKind.isTerminator]
  obtain ⟨extra, hextra, hnil⟩ := hlater.operands_last ht' hw (by simp [hd]) hnot
    (by rwa [operandsOf_of hd])
  rw [hnil (by simp [isTerminator_of hd, hterm]), List.append_nil, operandsOf_of hd]
    at hextra
  refine ⟨hnone, hlater.keeps.kind? (kind?_of hd), hextra, ?_, fun hretain => ?_⟩
  · rw [hlater.keeps.resultsOf (by simp [hd]), resultsOf_of hd]
  · have hentry := hlater.entry_last ht' hw hd hfit.live hnot hterm hretain hsettled
    rw [isErased_of hentry, hfit.live]

/-- What insertions join is related in the end. -/
theorem Pairs.related (hδ : Embedding f final.routine δ) :
    ∃ pairs, s.aliases.Joins pairs s'.aliases ∧
      ∀ pair ∈ pairs, Related f final.routine σ pair.1 pair.2 := by
  have hl := ((ht.run hw hrun).run hw hlater).wellFormed.linked
  obtain ⟨pairs, hjoins, hpairs⟩ := h.joins
  refine ⟨pairs, hjoins, fun pair hpair => ?_⟩
  obtain ⟨x, d, hx, hd, hpair⟩ := (hpairs pair).mp hpair
  obtain ⟨hnone, hkind, hoperands, hresults, hlive⟩ := h.last ht hw hrun hlater hx hd
  have hmem : (pair.1, pair.2) ∈ (final.routine.operandsOf x).zip (final.routine.resultsOf x) := by
    rwa [hoperands, hresults]
  have hresult := (List.of_mem_zip hmem).2
  rcases (h.made x d hx hd).kind with hk | ⟨-, hnil⟩ | ⟨n, hk, hbuffers⟩
  · rw [hk] at hkind
    apply (Declared.own hnone hkind hmem).related
    · -- the buffer is a result of the operation that allocates it
      obtain ⟨b, v, -, hv, p, dp, hvisited, hdp, -, hallocated⟩ :=
        (hδ.made x hnone (by intro h; simp [kind?, h] at hkind)).owns hkind
      have hbuffer := (List.of_mem_zip hmem).1
      rw [hv, List.mem_singleton] at hbuffer
      rw [hbuffer]
      apply Present.standIn _ hl
      apply hδ.result_present (hw.live p (hvisited.reached hw.linked)) _
        (resultsOf_of hdp ▸ Op.mem_results_of_mem_allocated hallocated)
      simp [isConstruct_of hdp, (Op.kind_of_effects (.inl (List.ne_nil_of_mem hallocated))).1]
    · exact Present.standIn (.inr ⟨x, hresult, hlive (by simp [hk])⟩) hl
  · simp [hnil] at hpair
  · have hbuffer : f.standIn final.routine pair.1 = pair.1 :=
      hδ.standIn_of_buffer hl
        ((hrun.keeps.trans hlater.keeps).holdsBuffer (hbuffers pair hpair))
    rw [hk] at hkind
    cases hgone : final.routine.isErased x with
    | false =>
      exact (Declared.retain hnone hkind hgone hmem).related hbuffer
        (Present.standIn (.inr ⟨x, hresult, hgone⟩) hl)
    | true =>
      -- the result of a lost retain gives way to what was kept
      rw [Related, hbuffer, standIn_of_gone hl hnone hgone hmem]
      exact .refl _

end

/-! ## What plain operations join -/

theorem Routine.mem_plainAliases (h : r.plainAliases o = .ok pairs) :
    (v, w) ∈ pairs ↔ v ∈ r.resultsOf o ∧ r.holdsBuffer v = true ∧ w ∈ r.operandsOf o ∧
      r.holdsBuffer w = true ∧ r.elemOf? w = r.elemOf? v := by
  obtain ⟨d, hd, h⟩ := bind_eq_ok.mp h
  obtain ⟨operands, hoperands, h⟩ := bind_eq_ok.mp h
  obtain ⟨results, hresults, h⟩ := bind_eq_ok.mp h
  cases h
  rw [resultsOf_of (op_eq_ok.mp hd), operandsOf_of (op_eq_ok.mp hd), buffers_eq_ok hoperands,
    buffers_eq_ok hresults]
  simp only [List.mem_flatMap, List.mem_map, List.mem_filter, Prod.mk.injEq, decide_eq_true_eq]
  constructor
  · rintro ⟨v', ⟨hv, hbuffer⟩, w', ⟨⟨hw, hbuffer'⟩, helem⟩, rfl, rfl⟩
    exact ⟨hv, hbuffer, hw, hbuffer', helem⟩
  · rintro ⟨hv, hbuffer, hw, hbuffer', helem⟩
    exact ⟨v, ⟨hv, hbuffer⟩, w, ⟨⟨hw, hbuffer'⟩, helem⟩, rfl, rfl⟩

theorem Kept.elemOf?_eq (h : Kept r g) (hv : v.index < r.values.size) :
    g.elemOf? v = r.elemOf? v := by
  obtain ⟨V, hV⟩ := exists_value? hv
  show (g.value? v).bind _ = (r.value? v).bind _
  rw [hV, h.value v V hV]

/-- An operation that is called for is not the last of its block. -/
theorem AtOp.not_closes (hat : AtOp f s o owned b front rest) (hl : f.Linked) : ¬ f.Closes o := by
  rintro ⟨c, body, -, hlist⟩
  obtain ⟨δ, hδ⟩ := hat.threaded.embedded
  have hmem : o ∈ f.opsOf c := by simp [hlist]
  obtain rfl := Option.mem_unique hat.parent ((hl.op_listed o c).mp hmem)
  have hlast := hδ.change.last b
  rw [hlist, hat.list] at hlast
  rw [List.getLast?_append_of_ne_nil _ (by simp), List.getLast?_cons_of_ne_nil hat.rest_ne,
    List.getLast?_append_of_ne_nil _ (by simp), List.getLast?_singleton, Option.map_some,
    hδ.op_eq_self (hat.untouched.ops o .refl).live] at hlast
  -- it would stand there twice
  have hrest := List.mem_of_getLast? hlast
  exact (hat.threaded.wellFormed.linked.listed_once hat.list).2 hrest

section

variable (hat : AtOp f s o owned b front rest) (hw : f.WellFormed)
variable (hcleared : Cleared f s.routine o) (hd : f.op? o = some d) (hclass : d.classify = .plain)
variable (hlater : Run f F s final)
include hat hw hcleared hd hclass hlater

/-- A plain operation has its last operands when it is called for. -/
theorem AtOp.plain_last : final.routine.operandsOf o = s.routine.operandsOf o := by
  have ht := hat.threaded
  have hreached := hat.visited.reached hw.linked
  have hintact := hat.untouched.ops o .refl
  obtain ⟨δ, hδ⟩ := ht.embedded
  obtain ⟨ε, hε⟩ := (ht.run hw hlater).embedded
  have hcons := isConstruct_of_classify hd (by simp [hclass])
  have hnot : ¬ f.VisitedConstruct o := fun hvisited => by cases hcons.symm.trans hvisited.2
  have hsettled := hcleared.operands_settled hδ ht hw hreached
  rw [hδ.op_eq_self hintact.live] at hsettled
  obtain ⟨extra, hextra, -⟩ := hlater.operands_last ht hw (ht.op? (by simp [hd])) hnot hsettled
  -- only constructs and the last operations of blocks get operands
  have hadded : ε.added o = [] := by
    by_contra hne
    exact (hε.added o hne).elim hnot (hat.not_closes hw.linked)
  obtain ⟨e, he, hgrown⟩ := hε.change.image_of_live hd (hw.live o hreached) (hε.lossless o)
  rw [hε.change.op_eq_self hcons] at he
  have hlength : (final.routine.operandsOf o).length = (s.routine.operandsOf o).length := by
    rw [hintact.operands, operandsOf_of he, operandsOf_of hd, hgrown.operands, hadded]
    simp
  rw [hextra, List.length_append] at hlength
  rw [hextra, List.eq_nil_of_length_eq_zero (by omega : extra.length = 0), List.append_nil]

/-- What a plain operation makes alias can be read off the result. -/
theorem AtOp.mem_plainAliases (h : s.routine.plainAliases o = .ok pairs) :
    (v, w) ∈ pairs ↔ v ∈ final.routine.resultsOf o ∧ final.routine.holdsBuffer v = true ∧
      w ∈ final.routine.operandsOf o ∧ final.routine.holdsBuffer w = true ∧
      final.routine.elemOf? w = final.routine.elemOf? v := by
  have hwf := hat.threaded.wellFormed
  rw [Routine.mem_plainAliases h, hat.plain_last hw hcleared hd hclass hlater,
    hlater.keeps.resultsOf (hat.threaded.op? (by simp [hd]))]
  -- results and operands are known, so they keep their types
  refine and_congr_right fun hv => ?_
  rw [hlater.keeps.holdsBuffer_eq (hwf.linked.result_known hv),
    hlater.keeps.elemOf?_eq (hwf.linked.result_known hv)]
  refine and_congr_right fun _ => and_congr_right fun hw' => ?_
  rw [hlater.keeps.holdsBuffer_eq (hwf.known o w hw'), hlater.keeps.elemOf?_eq (hwf.known o w hw')]

end

/-! ## What a finished construct joins -/

/-- What is sent along an edge is an operand of the construct, or of the end of a region. What
receives is a result of the construct, or an argument of a region. -/
theorem ends_of_edge (h : edge ∈ r.edgesFrom d source) :
    (∀ v ∈ edge.sent, v ∈ d.operands ∨
      ∃ index sent, r.sentAt? d.regions index = some sent ∧ v ∈ sent) ∧
    ∀ v ∈ edge.received, v ∈ d.results ∨ ∃ index, v ∈ r.argsAt d.regions index := by
  cases source with
  | none =>
    rw [edgesFrom, entriesOf] at h
    cases hkind : d.kind <;> simp only [hkind] at h <;> grind [List.mem_of_mem_drop]
  | some index =>
    rw [edgesFrom] at h
    cases hsent : r.sentAt? d.regions index with
    | none => simp [hsent] at h
    | some sent =>
      rw [hsent, Option.elim_some] at h
      unfold exitsOf at h
      split at h <;> grind [List.mem_of_mem_drop]

theorem exists_of_blockAt? {gs : List RegionId} {index : Nat} (h : r.blockAt? gs index = some b) :
    ∃ k ∈ gs, b ∈ r.blocksOf k := by
  obtain ⟨k, hk, hb⟩ := Option.bind_eq_some_iff.mp h
  exact ⟨k, List.mem_of_getElem? hk, List.mem_of_mem_head? hb⟩

/-- The values at both ends of an edge are there. -/
theorem present_of_edge (hw : g.WellFormed) (hx : g.Reached x) (he : g.op? x = some e)
    (hedge : edge ∈ g.edgesFrom e source) (hpair : (v, w) ∈ edge.sent.zip edge.received) :
    g.Present v ∧ g.Present w := by
  obtain ⟨hv, hw'⟩ := List.of_mem_zip hpair
  constructor
  · rcases (ends_of_edge hedge).1 _ hv with hv | ⟨index, sent, hsent, hv⟩
    · exact hw.operand_present hx (operandsOf_of he ▸ hv)
    · -- the end of a region is reached
      obtain ⟨t, ht, rfl⟩ := Option.map_eq_some_iff.mp hsent
      obtain ⟨b, hb, ht⟩ := Option.bind_eq_some_iff.mp ht
      obtain ⟨k, hk, hb⟩ := exists_of_blockAt? hb
      have hlisted := List.mem_of_getLast? (Option.filter_eq_some_iff.mp ht).1
      have hparent := (hw.linked.op_listed t b).mp hlisted
      have hholder : g.holder? b = some x :=
        hw.linked.holder?_iff.mpr ⟨k, regionsOf_of he ▸ hk, hb⟩
      exact hw.operand_present (hx.step ((up?_of_parent? hparent).trans hholder)) hv
  · rcases (ends_of_edge hedge).2 _ hw' with hres | ⟨index, harg⟩
    · exact .inr ⟨x, resultsOf_of he ▸ hres, hw.live x hx⟩
    · rw [argsAt] at harg
      cases hb : g.blockAt? e.regions index with
      | none => simp [hb] at harg
      | some b =>
        rw [hb] at harg
        exact .inl ⟨b, harg⟩

theorem mem_edgePairs : (v, w) ∈ r.edgePairs d source ↔
      ∃ edge ∈ r.edgesFrom d source, (v, w) ∈ edge.sent.zip edge.received :=
  List.mem_flatMap

/-- The buffer arguments of a block and those for their indicators are there. -/
theorem present_of_accompanied (hkept : Kept f g) (h : (v, w) ∈ f.accompanied g b) :
    g.Present v ∧ g.Present w := by
  obtain ⟨hv, hw⟩ := List.of_mem_zip h
  exact ⟨.inl ⟨b, (hkept.args b).subset (List.mem_filter.mp hv).1⟩,
    .inl ⟨b, List.mem_of_mem_drop hw⟩⟩

/-! ## Nothing is joined by mistake -/

section Ending

variable (hw : f.WellFormed) (hend : Threaded f final) (hδ : Embedding f final.routine δ)
variable (hdone : Done f final.routine f.root)

include hdone in
/-- A block that is opened has all its arguments. -/
theorem openBlock_accompanied (hopened : f.Opened b) (hlater : Run f F s' final)
    (hlength : (s'.routine.argsOf b).length = (f.argsOf b).length + f.bufferCount (f.argsOf b)) :
    f.accompanied s'.routine b = f.accompanied final.routine b := by
  obtain ⟨m, hm, henters⟩ := hopened
  have hsealed := (hdone m hm.1 hm.2).2 b henters
  rw [accompanied, accompanied, hlater.keeps.argsOf_eq (hsealed.args.trans hlength.symm)]

include hw hend hδ hdone

/-- What a stage joins is declared in the end, up to results of what is lost. -/
theorem Stage.related (h : Stage f settings s s') (hlater : Stages f settings s' final) :
    ∃ pairs, s.aliases.Joins pairs s'.aliases ∧
      ∀ pair ∈ pairs, Related f final.routine δ.op pair.1 pair.2 := by
  obtain ⟨ht, hrun⟩ := h.spec hw
  have hlast := hlater.run hw
  have hl := hend.wellFormed.linked
  have hkept : Kept f final.routine := hδ.change.keeps
  cases h with
  | @opens b owned _ hopened hargs hopens =>
    obtain ⟨-, -, hinputs⟩ := openBlock_spec hw (fun _ => hopened) ht hargs hopens
    obtain ⟨hlength, -, hjoins⟩ := hinputs rfl
    refine ⟨_, hjoins, fun pair hpair => ?_⟩
    rw [openBlock_accompanied hdone hopened hlast hlength] at hpair
    obtain ⟨hv, hw'⟩ := present_of_accompanied hkept hpair
    exact (Declared.argument hopened hpair).related (hv.standIn hl) (hw'.standIn hl)
  | effects hat hd hclass hown =>
    exact (hat.ownAll_inserting hw hd hclass hown).related ht hw hrun hlast hδ
  | @plain o d owned b front rest pairs hat hcleared hd hclass hpairs hroutine haliases =>
    have hahead : Run f .all s final := Relation.ReflTransGen.trans hrun hlast
    have hreached := hat.visited.reached hw.linked
    have hcons := isConstruct_of_classify hd (by simp [hclass])
    refine ⟨pairs, haliases ▸ .unionAll _ _, fun pair hpair => ?_⟩
    obtain ⟨hv, hbuffer, hw', hbuffer', helem⟩ :=
      (hat.mem_plainAliases hw hcleared hd hclass hahead hpairs).mp hpair
    apply (Declared.plain hat.visited hd hclass hv hbuffer hw' hbuffer' helem).related
    · apply Present.standIn _ hl
      apply hδ.result_present (hw.live o hreached) hcons
      rwa [hkept.resultsOf (by simp [hd])] at hv
    · apply Present.standIn _ hl
      apply hend.wellFormed.operand_present _ hw'
      have hfinal := hδ.reached hw hreached
      rwa [hδ.change.op_eq_self hcons] at hfinal
  | closes _ _ hreached hlastOp htokens hcleared hcloses =>
    exact (closeBlock_inserting hw ht hreached hlastOp htokens hcleared hcloses).related ht hw hrun
      hlast hδ
  | @finishes o d owned site regions b front rest out _ hvisited hd hcleared hsited pass hdone' =>
    have hcons := (isConstruct_of hd).symm.trans hvisited.2
    obtain ⟨e, pairs, he, hjoins, hpairs⟩ :=
      pass.exists_pairs hw ht hvisited hd hcleared hlast hsited hcons hdone' hdone
    have hname := pass.op_eq hw ht hvisited hlast hδ
    have hreached := hδ.reached hw (hvisited.1.reached hw.linked)
    rw [hname] at hreached
    have hresults : final.routine.resultsOf (δ.op o) = e.results := by rw [hname, resultsOf_of he]
    refine ⟨pairs, hjoins, fun pair hpair => ?_⟩
    -- along an edge of its control flow, at an argument of a block, or at a result
    rcases (hpairs pair).mp hpair with ⟨source, hpair⟩ | ⟨c, henters, hpair⟩ | hpair
    · obtain ⟨edge, hedge, hpair⟩ := mem_edgePairs.mp hpair
      obtain ⟨hv, hw'⟩ := present_of_edge hend.wellFormed hreached he hedge hpair
      have hedges := hl.inRange.flowEdges he source
      rw [← hname] at hedges
      exact (Declared.edge hvisited hedges hedge hpair).related (hv.standIn hl) (hw'.standIn hl)
    · obtain ⟨hv, hw'⟩ := present_of_accompanied hkept hpair
      exact (Declared.argument ⟨o, hvisited, henters⟩ hpair).related (hv.standIn hl)
        (hw'.standIn hl)
    · have hlive := hend.wellFormed.live _ hreached
      have hpresent : ∀ v ∈ e.results, final.routine.Present v := fun v hv =>
        .inr ⟨pass.x, resultsOf_of he ▸ hv, hlive⟩
      obtain ⟨hv, hw'⟩ := List.of_mem_zip hpair
      have hdeclared : Declared f final.routine δ.op pair.1 pair.2 := by
        refine .result hvisited ?_
        rwa [hresults, resultsOf_of hd]
      exact hdeclared.related
        ((hpresent _ (List.mem_of_mem_take (List.mem_filter.mp hv).1)).standIn hl)
        ((hpresent _ (List.mem_of_mem_drop hw')).standIn hl)

/-- What is in one class at the end is related, if it is so for the classes at the beginning. -/
theorem Stages.related (h : Stages f settings s final)
    (hold : ∀ v w, s.aliases.same v w = true → Related f final.routine δ.op v w) :
    ∀ v w, final.aliases.same v w = true → Related f final.routine δ.op v w := by
  induction h using Relation.ReflTransGen.head_induction_on with
  | refl => exact hold
  | @head s mid hstage hrest ih =>
    obtain ⟨pairs, hjoins, hrelated⟩ := hstage.related hw hend hδ hdone hrest
    apply ih
    exact hjoins.least (hstage.spec hw).1.classes _ (Related.equivalence ..) hold hrelated

end Ending

/-! ## Nothing is missing -/

theorem openBlock_op? {ownsInputs : Bool}
    (h : Pass.openBlock b ownsInputs s = .ok (owned, s')) (x : OpId) :
    s'.routine.op? x = s.routine.op? x := by
  -- arguments are all that is made
  have hown : ∀ {args : List ValueId} {owned owned' : ValueSet} {s : Session},
      Pass.ownArguments b args owned s = .ok (owned', s') →
      s'.routine.op? x = s.routine.op? x := by
    intro args
    induction args with
    | nil =>
      intro owned owned' s h
      rw [(Pass.pure_eq_ok.mp h).2]
    | cons v rest ih =>
      intro owned owned' s h
      obtain ⟨arg, mid, hedit, h⟩ := Pass.bind_eq_ok.mp h
      obtain ⟨r', hadd, rfl⟩ := Pass.edit_eq_ok.mp hedit
      obtain ⟨_, mid', hrecord, h⟩ := Pass.bind_eq_ok.mp h
      rw [ih h, (Pass.modifyAliases_eq_ok hrecord).1]
      exact op?_addBlockArg hadd x
  unfold Pass.openBlock at h
  split at h
  · obtain ⟨args, -, h⟩ := Pass.ask_bind_eq_ok.mp h
    exact hown h
  · rw [(Pass.pure_eq_ok.mp h).2]

/-- Where a construct is finished, nothing is made but its new form and what reads nothing. -/
theorem ConstructPass.operands_made {site : ConstructSite}
    {outs : List RegionOutcome} {out : Outcome}
    (pass : ConstructPass f settings o d owned site outs s b front rest out s')
    (hw : f.WellFormed) (ht : Threaded f s) (hbefore : s.routine.op? x = none)
    (hafter : s'.routine.op? x ≠ none) (hne : x ≠ pass.x) (hlater : Run f .all s' final) :
    final.routine.operandsOf x = [] ∧ final.routine.isConstruct x = false := by
  obtain ⟨hfresh, pre, post, types, hrebuilt⟩ := pass.exists_rebuilt
  -- before the operands are looked at, nothing is made at all
  have hreworked : Reworked pass.reconciled pass.inside :=
    (Pass.forM_reworked (fun out => Pass.sendAcquired_reworked out) pass.sends).trans
      (Pass.forM_reworked (fun i => Pass.dropIfDead_reworked i) pass.drops)
  have hinside : pass.inside.routine.op? x = none :=
    hreworked.ops x (by rw [pass.forgets.routine, hbefore])
  obtain ⟨e, he⟩ : ∃ e, pass.transferred.routine.op? x = some e := by
    apply Option.ne_none_iff_exists'.mp
    intro hnone
    rw [pass.routine, hrebuilt.op, if_neg (hfresh ▸ hne)] at hafter
    by_cases hxo : x = o
    · rw [hxo, pass.entry_eq] at hnone
      cases hnone
    · simp [hxo, hnone] at hafter
  have hnulls : Pairs (fun _ => False) (fun _ => False) pass.inside pass.transferred :=
    transferOperands_pairs pass.transfers
  have hfit := hnulls.made x e hinside he
  have hnil : e.operands = [] := List.eq_nil_iff_forall_not_mem.mpr hfit.operands
  have hnot : ¬ f.VisitedConstruct x := fun hvisited =>
    ht.op? (hw.op?_of_reached (hvisited.1.reached hw.linked)) hbefore
  have hterm : pass.transferred.routine.isTerminator x = false := by
    rcases hfit.kind with hk | ⟨hk, -⟩ | ⟨n, hk, -⟩ <;>
      simp [isTerminator_of he, hk, OpKind.isTerminator]
  have hrun : Run f .all pass.transferred final :=
    (pass.run_rebuilds.anywhere.trans (pass.run_aliases _)).trans hlater
  obtain ⟨extra, hextra, hnone⟩ := hrun.operands_last pass.threaded' hw (by simp [he]) hnot
    (by simp [operandsOf_of he, hnil])
  constructor
  · rw [hextra, hnone hterm, operandsOf_of he, hnil, List.append_nil]
  · rcases hfit.kind with hk | ⟨hk, -⟩ | ⟨n, hk, -⟩ <;>
      simp [isConstruct, hrun.keeps.kind? (kind?_of he), hk, OpKind.construct?]

/-- How an operation that the original routine has not came about. -/
inductive MadeBy (f : Routine) (settings : Settings) (final : Session) (x : OpId) : Prop
  /-- It was inserted where a block ends, or behind something that allocates. -/
  | inserted {s s' : Session} {d : Op} : Threaded f s → Run f .all s s' → Run f .all s' final →
      Inserting f s s' → s.routine.op? x = none → s'.routine.op? x = some d →
      MadeBy f settings final x
  /-- It was inserted for an operand of a construct that owns nothing. -/
  | idle : final.routine.operandsOf x = [] → final.routine.isConstruct x = false →
      MadeBy f settings final x
  /-- It is the new form of a construct. -/
  | rebuilt {s s' : Session} {o : OpId} {d : Op} {owned : ValueSet} {site : ConstructSite}
      {outs : List RegionOutcome} {b : BlockId} {front rest : List OpId} {out : Outcome}
      (pass : ConstructPass f settings o d owned site outs s b front rest out s') :
      Threaded f s → Run f .all s' final → f.VisitedConstruct o → f.op? o = some d →
      Cleared f s.routine o → Sited f d.regions outs → Done f s'.routine o → pass.x = x →
      MadeBy f settings final x

theorem Stages.madeBy (hw : f.WellFormed) (h : Stages f settings s final)
    (hbefore : s.routine.op? x = none) (hafter : final.routine.op? x ≠ none) :
    MadeBy f settings final x := by
  obtain ⟨s₁, s₂, hstage, hnone, hmade, hrest⟩ := h.exists_made hbefore hafter
  obtain ⟨ht, hrun⟩ := hstage.spec hw
  have hlater := hrest.run hw
  obtain ⟨e, he⟩ := Option.ne_none_iff_exists'.mp hmade
  cases hstage with
  | opens _ _ _ hopens =>
    rw [openBlock_op? hopens, hnone] at hmade
    exact absurd rfl hmade
  | effects hat hd hclass hown =>
    exact .inserted ht hrun hlater (hat.ownAll_inserting hw hd hclass hown) hnone he
  | plain _ _ _ _ _ hroutine _ =>
    rw [hroutine, hnone] at hmade
    exact absurd rfl hmade
  | closes _ _ hreached hlast htokens hcleared hcloses =>
    have hins := closeBlock_inserting hw ht hreached hlast htokens hcleared hcloses
    exact .inserted ht hrun hlater hins hnone he
  | finishes _ hvisited hd hcleared hsited pass hdone =>
    -- the new form of the construct, or a null made for it
    by_cases hx : x = pass.x
    · exact .rebuilt pass ht hlater hvisited hd hcleared hsited hdone hx.symm
    · obtain ⟨hnil, hcons⟩ := pass.operands_made hw ht hnone hmade hx hlater
      exact .idle hnil hcons

section Ending

variable (hw : f.WellFormed) (hδ : Embedding f final.routine δ)
variable (h : Stages f settings (.start f) final)
include hw hδ h

/-- An inserted operation has its results in the classes of its operands. -/
theorem Stages.same_of_inserted (hnone : f.op? x = none)
    (hcons : final.routine.isConstruct x = false)
    (hpair : (v, w) ∈ (final.routine.operandsOf x).zip (final.routine.resultsOf x)) :
    final.aliases.same v w = true := by
  obtain ⟨e, he, -⟩ := exists_op?_of_mem_resultsOf (List.of_mem_zip hpair).2
  cases h.madeBy hw hnone (by simp [he]) with
  | @inserted s s' d ht hrun hlater hins hx hd =>
    obtain ⟨-, -, hoperands, hresults, -⟩ := hins.last ht hw hrun hlater hx hd
    obtain ⟨pairs, hjoins, hpairs⟩ := hins.joins
    rw [hoperands, hresults] at hpair
    apply (ht.run hw hrun).same hlater
    exact hjoins.joined ht.classes (v, w) ((hpairs _).mpr ⟨x, d, hx, hd, hpair⟩)
  | idle hnil _ =>
    rw [hnil] at hpair
    cases hpair
  | @rebuilt _ _ o _ _ _ _ _ _ _ _ pass ht hlater hvisited hd _ _ _ hx =>
    -- the new form of a construct is one
    have hkind := hδ.change.kind?_image (p := o) (by simp [hd]) (hδ.lossless o)
    have hcons' := hvisited.2
    rw [isConstruct, ← hkind, pass.op_eq hw ht hvisited hlater hδ, hx] at hcons'
    rw [isConstruct, hcons'] at hcons
    cases hcons

/-- What a construct's control flow makes alias is in one class, and results are with indicators. -/
theorem Stages.same_of_construct (hdone : Done f final.routine f.root)
    (hvisited : f.VisitedConstruct o) (hd : f.op? o = some d) :
    ∃ e, final.routine.op? (δ.op o) = some e ∧ ∀ pair,
      (∃ source, pair ∈ final.routine.edgePairs e source) ∨
        pair ∈ final.routine.resultPairs e d.results.length →
      final.aliases.same pair.1 pair.2 = true := by
  have hne := hδ.op_ne hw hdone hvisited
  have hnone := (hδ.change.renamed o hne).2.2.1
  obtain ⟨-, e, -, he, -⟩ := hδ.change.image_of_renamed hne
  have hcons : final.routine.isConstruct (δ.op o) = true := by
    rw [isConstruct, hδ.change.kind?_image (by simp [hd]) (hδ.lossless o)]
    exact hvisited.2
  cases h.madeBy hw hnone (by simp [he]) with
  | @inserted s s' d' ht hrun hlater hins hx hd' =>
    -- what is merely put in is no construct
    have hkind := hlater.keeps.kind? (kind?_of hd')
    rcases (hins.made _ _ hx hd').kind with hk | ⟨hk, -⟩ | ⟨n, hk, -⟩ <;>
      simp [isConstruct, hkind, hk, OpKind.construct?] at hcons
  | idle _ hnot =>
    rw [hnot] at hcons
    cases hcons
  | @rebuilt s s' o' d' _ _ _ _ _ _ _ pass ht hlater hvisited' hd' hcleared hsited hdone' hx =>
    have hname := pass.op_eq hw ht hvisited' hlater hδ
    -- one construct comes from one
    obtain rfl : o = o' := hδ.change.injective o o' (hx.symm.trans hname.symm) (by simp [hd])
      (by simp [hd'])
    obtain rfl := Option.mem_unique hd hd'
    have hcons' := (isConstruct_of hd).symm.trans hvisited.2
    obtain ⟨e', pairs, he', hjoins, hpairs⟩ :=
      pass.exists_pairs hw ht hvisited hd hcleared hlater hsited hcons' hdone' hdone
    refine ⟨e', hx ▸ he', fun pair hpair => ?_⟩
    apply (ht.run hw pass.run).same hlater
    apply hjoins.joined ht.classes
    exact (hpairs pair).mpr (hpair.imp_right .inr)

end Ending

section Root

variable {out : Outcome} (hw : f.WellFormed)
variable (hroot : f.threadFromRoot settings = .ok (out, final))
include hw hroot

/-- A buffer argument is in one class with the argument for its indicator. -/
theorem same_of_accompanied (hopened : f.Opened b)
    (hpair : (v, w) ∈ f.accompanied final.routine b) : final.aliases.same v w = true := by
  obtain ⟨-, hdone, -⟩ := threadFromRoot_spec hw hroot
  obtain ⟨m, hm, henters⟩ := id hopened
  obtain ⟨fuel, k, hk, rfl⟩ := exists_transit hw hroot hm.1 henters
  obtain ⟨m', hplaced⟩ := hk.placed hw hroot
  obtain ⟨pass⟩ := hplaced.pass hw
  have howns : k.ownsInputs = true := by
    obtain rfl : m = m' :=
      Option.mem_unique (henters.holder? hw.linked) (hplaced.holder? hw)
    exact hplaced.owns.trans hm.2
  have hlater : Run f .all pass.opened final :=
    (pass.run_walks.anywhere.trans (pass.run_closes hw).anywhere).trans hplaced.later.anywhere
  rw [← openBlock_accompanied hdone hopened hlater (pass.args howns)] at hpair
  exact pass.atOps.threaded.same hlater (pass.joined howns _ hpair).2

/-- A plain operation has its results in the classes of what they may be views of. -/
theorem same_of_plain (hvisited : f.Visited o) (hd : f.op? o = some d)
    (hclass : d.classify = .plain) (hv : v ∈ final.routine.resultsOf o)
    (hbuffer : final.routine.holdsBuffer v = true) (hw' : w ∈ final.routine.operandsOf o)
    (hbuffer' : final.routine.holdsBuffer w = true)
    (helem : final.routine.elemOf? w = final.routine.elemOf? v) :
    final.aliases.same v w = true := by
  have hne : o ≠ f.root := by
    rintro rfl
    obtain ⟨name, hkind⟩ := hw.root_routine
    rw [kind?_of hd] at hkind
    rw [Op.classify_of_routine (Option.some.inj hkind)] at hclass
    cases hclass
  -- the classes are joined when it is called for, and nothing parts them later
  obtain ⟨fuel, k, c, front, rest, -, -, rfl, hplaced⟩ :=
    exists_placed_call hw hroot hvisited hne
  obtain ⟨n, d', -, hd', hcase⟩ := hplaced.cases hw
  obtain rfl := Option.mem_unique hd hd'
  have hat := hplaced.atOp
  have hahead := hplaced.ahead hw
  cases hcase with
  | plain pairs _ _ hroutine haliases hpairs =>
    have hmem := (hat.mem_plainAliases hw hplaced.cleared hd hclass hahead hpairs).mpr
      ⟨hv, hbuffer, hw', hbuffer', helem⟩
    have hjoins := AliasClasses.Joins.unionAll c.before.aliases pairs
    rw [← haliases] at hjoins
    apply (hat.threaded.run hw (hplaced.run hw)).same hplaced.later
    exact hjoins.joined hat.threaded.classes _ hmem
  | effects _ _ hclass' | unknown _ hclass' => cases hclass.symm.trans hclass'
  | construct kind _ _ _ _ hkind => simp [Op.classify, hkind] at hclass

/-- What is declared is in one class. -/
theorem Declared.same (hδ : Embedding f final.routine δ)
    (h : Declared f final.routine δ.op v w) : final.aliases.same v w = true := by
  obtain ⟨ht, hdone, -⟩ := threadFromRoot_spec hw hroot
  have hstages := threadFromRoot_stages hw hroot
  cases h with
  | plain hvisited hd hclass hv hbuffer hw' hbuffer' helem =>
    exact same_of_plain hw hroot hvisited hd hclass hv hbuffer hw' hbuffer' helem
  | own hnone hkind hpair | retain hnone hkind _ hpair =>
    apply hstages.same_of_inserted hw hδ hnone _ hpair
    simp [isConstruct, hkind, OpKind.construct?]
  | @edge o source edges edge _ _ hvisited hedges hedge hpair =>
    obtain ⟨d, hd⟩ := Option.ne_none_iff_exists'.mp
      (hw.op?_of_reached (hvisited.1.reached hw.linked))
    obtain ⟨e, he, hsame⟩ := hstages.same_of_construct hw hδ hdone hvisited hd
    rw [ht.wellFormed.linked.inRange.flowEdges he source] at hedges
    cases hedges
    exact hsame (v, w) (.inl ⟨source, mem_edgePairs.mpr ⟨edge, hedge, hpair⟩⟩)
  | argument hopened hpair => exact same_of_accompanied hw hroot hopened hpair
  | @result o _ _ hvisited hpair =>
    obtain ⟨d, hd⟩ := Option.ne_none_iff_exists'.mp
      (hw.op?_of_reached (hvisited.1.reached hw.linked))
    obtain ⟨e, he, hsame⟩ := hstages.same_of_construct hw hδ hdone hvisited hd
    rw [resultsOf_of he, resultsOf_of hd] at hpair
    exact hsame (v, w) (.inr hpair)

/-- The classes at the end of a run are the closure of what its result declares. -/
theorem threadFromRoot_same_iff : ∃ σ τ, Enriches f final.routine σ τ ∧
    ∀ v w, final.routine.Present v → final.routine.Present w →
      (final.aliases.same v w = true ↔ Relation.EqvGen (Declared f final.routine σ) v w) := by
  obtain ⟨ht, hdone, -⟩ := threadFromRoot_spec hw hroot
  obtain ⟨δ, hδ⟩ := ht.embedded
  have hl := ht.wellFormed.linked
  -- at the beginning every value is in a class of its own
  have hstart : ∀ v w, (Session.start f).aliases.same v w = true →
      Related f final.routine δ.op v w := by
    intro v w hsame
    rw [AliasClasses.same_empty_iff.mp hsame]
    exact .refl _
  have hrelated := (threadFromRoot_stages hw hroot).related hw ht hδ hdone hstart
  have hclosed : ∀ {v w}, Relation.EqvGen (Declared f final.routine δ.op) v w →
      final.aliases.same v w = true := by
    intro v w hclosure
    induction hclosure with
    | rel v w hdeclared => exact hdeclared.same hw hroot hδ
    | refl v => exact AliasClasses.same_self _ _
    | symm v w _ ih => exact AliasClasses.same_symm ih
    | trans u v w _ _ ih ih' => exact AliasClasses.same_trans ih ih'
  refine ⟨δ.op, δ.value, hδ.enriches hw hdone, fun v w hv hw' => ⟨fun hsame => ?_, hclosed⟩⟩
  have hvw := hrelated v w hsame
  rwa [Related, hv.standIn hl, hw'.standIn hl] at hvw

end Root

/-- The buffer that is given up and the one that is there instead are related, since either may be
what the conditional chooses. The test that it makes is not related to them. -/
theorem threadFromRoot_same_iff_renewal : ∃ out s σ τ,
    renewalRoutine.threadFromRoot {} = .ok (out, s) ∧ Enriches renewalRoutine s.routine σ τ ∧
      Relation.EqvGen (Declared renewalRoutine s.routine σ) ⟨2⟩ ⟨4⟩ ∧
      ¬ Relation.EqvGen (Declared renewalRoutine s.routine σ) ⟨0⟩ ⟨2⟩ := by
  obtain ⟨⟨out, s⟩, hroot, hold, hnew, htest, hsame, hother⟩ :=
    exists_of_check (x := renewalRoutine.threadFromRoot {})
      (P := fun a => (⟨2⟩ ∈ a.2.routine.resultsOf ⟨1⟩ ∧ a.2.routine.isErased ⟨1⟩ = false) ∧
        (⟨4⟩ ∈ a.2.routine.resultsOf ⟨4⟩ ∧ a.2.routine.isErased ⟨4⟩ = false) ∧
        ⟨0⟩ ∈ a.2.routine.argsOf ⟨0⟩ ∧ a.2.aliases.same ⟨2⟩ ⟨4⟩ = true ∧
        a.2.aliases.same ⟨0⟩ ⟨2⟩ = false) (by decide +kernel)
  obtain ⟨σ, τ, henriches, hiff⟩ := threadFromRoot_same_iff renewalRoutine_wellFormed hroot
  refine ⟨out, s, σ, τ, hroot, henriches, (hiff _ _ (.inr ⟨_, hold⟩) (.inr ⟨_, hnew⟩)).mp hsame, ?_⟩
  intro hclosure
  have hjoined := (hiff _ _ (.inl ⟨_, htest⟩) (.inr ⟨_, hold⟩)).mpr hclosure
  rw [hother] at hjoined
  cases hjoined

end BufferOwnership
