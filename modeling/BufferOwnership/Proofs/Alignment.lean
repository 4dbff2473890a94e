import BufferOwnership.Proofs.Departures

/-!
# Indicators stand where their buffers stand

The last operation of a construct's block gets one indicator for each buffer that it sends, in
order, and so does the answer for what is returned. They are different, none comes from a null, and
each is in the class of its buffer. There is one exception: a branch may send a value that is no
buffer and that another branch frees, and what is recorded for it takes the slot of the next buffer.
If the branch matches the results of the conditional, the two are in one class after all.
-/

namespace BufferOwnership

open Routine

variable {f g : Routine} {mid final : Session} {b : BlockId} {o t x : OpId} {body : List OpId}
variable {i v : ValueId} {d : Op} {settings : Settings} {fuel n m : Nat} {out : Outcome}
variable {k : Transit} {e : Call} {sent indicators : List ValueId} {δ : Delta} {α β : Type}
variable {P : α → Bool} {l : List α} {l' : List β}

/-- Indicators for the buffers among some values, slot by slot; `Other` tells of exceptions. -/
structure Aligned (s : Session) (sent indicators : List ValueId) (Other : Nat → ValueId → Prop) :
    Prop where
  count : indicators.length = s.routine.bufferCount sent
  typed : ∀ i ∈ indicators, s.routine.ty? i = some .ownership
  owning : ∀ i ∈ indicators, ∀ x, i ∈ s.routine.resultsOf x → s.routine.kind? x ≠ some .null
  nodup : indicators.Nodup
  classes : ∀ (n : Nat) v i, (sent.filter s.routine.holdsBuffer)[n]? = some v →
    indicators[n]? = some i → s.aliases.same v i = true ∨ Other n i

/-- The indicator in a slot of a branch belongs to a value that is no buffer. The branch sends the
value right before the buffer of the slot, and another branch frees it. -/
def Misplaced (f : Routine) (s : Session) (o : OpId) (b : BlockId) (sent : List ValueId) (n : Nat)
    (i : ValueId) : Prop :=
  f.isConditional o = true ∧ ∃ before w after, sent = before ++ w :: after ∧
    s.routine.bufferCount before = n ∧ s.routine.holdsBuffer w = false ∧
    s.aliases.same w i = true ∧ FreedBeside f s.routine o b w

/-- What an operation sends and the results of another one agree on being buffers. -/
def Routine.Matches (f : Routine) (o t : OpId) : Prop :=
  (f.operandsOf t).map f.holdsBuffer = (f.resultsOf o).map f.holdsBuffer

instance Routine.Matches.decidable (f : Routine) (o t : OpId) : Decidable (f.Matches o t) :=
  inferInstanceAs (Decidable (_ = _))

/-! ## Where a block closes -/

section Transit

variable (h : k.Placed f settings final fuel o) (hw : f.WellFormed)
variable (pass : k.Passage f settings (Pass.throughOpWithin settings fuel))
include hw

/-- What a block sends is known when it closes. -/
theorem BlockPass.known (hv : v ∈ pass.walked.routine.operandsOf pass.t) :
    v.index < pass.walked.routine.values.size :=
  (pass.threaded.visible_operand hw pass.list pass.reached pass.last.live hv).known
    pass.threaded.wellFormed.linked

include h

/-- The indicator with which a buffer leaves a block is in its class, and no result of a null. -/
theorem Transit.Placed.leaves {escaping : List ValueId}
    (hleaves : Leaves pass.walked k.after escaping pass.held.owned v i) :
    final.aliases.same v i = true ∧
      ∀ x, i ∈ final.routine.resultsOf x → final.routine.kind? x ≠ some .null := by
  have hcloses : Run f .all pass.walked k.after := (pass.run_closes hw).anywhere
  have hlater : Run f .all pass.walked final := hcloses.trans h.later.anywhere
  have hl := (pass.threaded.run hw hlater).wellFormed.linked
  cases hleaves with
  | directly hi hsame _ _ =>
    -- what a block owns is never the result of a null
    have howned := ((h.within_walk hw pass).1 i hi).1.run hlater pass.threaded hw
    exact ⟨pass.threaded.same hlater hsame, fun x => howned.not_null hl⟩
  | @retained x d n hnone hd hkind hpair _ =>
    have hins := closeBlock_inserting hw pass.threaded pass.reached pass.last pass.tokens
      (h.cleared_last hw pass) pass.closes
    obtain ⟨pairs, hjoins, hpairs⟩ := hins.joins
    constructor
    · apply (pass.threaded.run hw hcloses).same h.later
      exact hjoins.joined pass.threaded.classes (v, i) ((hpairs _).mpr ⟨x, d, hnone, hd, hpair⟩)
    · intro y hy hnull
      have hres : i ∈ k.after.routine.resultsOf x := by
        rw [resultsOf_of hd]
        exact (List.of_mem_zip hpair).2
      rw [hl.result_unique hy (h.later.keeps.mem_resultsOf hres),
        h.later.keeps.kind? (kind?_of hd), hkind] at hnull
      cases hnull

/-- What a block prepares fits what it sends, until the end of the run. -/
theorem Transit.Placed.aligned :
    Aligned final (pass.walked.routine.operandsOf pass.t) k.out.acquired fun _ _ => False := by
  have hlater : Run f .all pass.walked final :=
    (pass.run_closes hw).anywhere.trans h.later.anywhere
  have hfilter : (pass.walked.routine.operandsOf pass.t).filter final.routine.holdsBuffer =
      (pass.walked.routine.operandsOf pass.t).filter pass.walked.routine.holdsBuffer :=
    List.filter_congr fun v hv => hlater.keeps.holdsBuffer_eq (pass.known hw hv)
  obtain ⟨hlength, hnodup, hleaves⟩ := closeBlock_leaves (pass.threaded.booked hw)
    (fun i hi => (pass.tokens i hi).known) pass.closes
  obtain ⟨-, _, _, _, -, -, htokens⟩ :=
    throughBlock_spec (throughOpWithin_spec hw settings fuel) hw h.threaded h.visited h.enters
      (fun howns => h.enters.opened h.visited (h.owns ▸ howns)) h.untouched h.goes
  refine ⟨?_, fun i hi => h.later.keeps.ty? (htokens i hi).typed, fun i hi => ?_, hnodup, ?_⟩
  · rw [bufferCount, List.countP_eq_length_filter, hfilter, hlength]
  · -- each slot is that of a buffer
    obtain ⟨n, hn⟩ := List.mem_iff_getElem?.mp hi
    have hlt := (List.getElem?_eq_some_iff.mp hn).1
    obtain ⟨i', hi', hleave⟩ := hleaves n _ (List.getElem?_eq_getElem (hlength ▸ hlt))
    obtain rfl := Option.mem_unique hn hi'
    exact (h.leaves hw pass hleave).2
  · intro n v i hv hi
    rw [hfilter] at hv
    obtain ⟨i', hi', hleave⟩ := hleaves n v hv
    obtain rfl := Option.mem_unique hi hi'
    exact .inl (h.leaves hw pass hleave).1

end Transit

/-! ## Where a construct's block is left -/

/-- A value stands in the place that the count of those before it gives. -/
theorem getElem?_filter_of_split {pre post : List α} {x : α} (hx : P x = true) :
    ((pre ++ x :: post).filter P)[pre.countP P]? = some x := by
  rw [List.filter_append, List.filter_cons_of_pos hx, List.countP_eq_length_filter,
    List.getElem?_append_right (Nat.le_refl _), Nat.sub_self]
  rfl

section Departs

variable {values acquired displaced : List ValueId}
variable (h : Departs f settings final e n k mid t values acquired displaced) (hw : f.WellFormed)
include h hw

/-- What a capture puts into a slot is in the class of the slot's value, and no result of a null. -/
theorem Departs.fills (hv : v ∈ values) (hfills : Fills mid (mid.routine.operandsOf t) m v i) :
    final.routine.ty? i = some .ownership ∧
      (∀ x, i ∈ final.routine.resultsOf x → final.routine.kind? x ≠ some .null) ∧
      (((mid.routine.operandsOf t).filter final.routine.holdsBuffer)[m]? = some v ∧
          final.aliases.same v i = true ∨
        Misplaced f final e.op k.block (mid.routine.operandsOf t) m i) := by
  have hrec := h.threaded.recorded v i hfills.recorded
  have hl := (h.threaded.run hw h.later).wellFormed.linked
  refine ⟨h.later.keeps.ty? hrec.typed, fun y hy hnull => ?_, ?_⟩
  · cases hrec.companion with
    | arguments _ harg =>
      exact hl.not_arg_of_result hy ((h.later.keeps.args _).subset harg)
    | results _ hres hkind _ =>
      rw [hl.result_unique hy (h.later.keeps.mem_resultsOf hres), h.later.keeps.kind? hkind]
        at hnull
      cases hnull
  · obtain ⟨before, after, hsent, hcount⟩ := hfills.place
    have hsame := h.threaded.same h.later (h.threaded.joined v i hfills.recorded)
    -- the buffers before the value are the same ones in the end
    have hbefore : final.routine.bufferCount before = m := by
      rw [← hcount]
      apply h.later.keeps.bufferCount
      intro w hw'
      obtain ⟨-, -, -, front, hclosed⟩ := h.exists_pass hw
      apply (h.threaded.visible_operand hw hclosed.list hclosed.reached hclosed.last.live _).known
        h.threaded.wellFormed.linked
      simp [hsent, hw']
    cases hbuffer : final.routine.holdsBuffer v with
    | true =>
      refine .inl ⟨?_, hsame⟩
      rw [hsent, ← hbefore]
      exact getElem?_filter_of_split hbuffer
    | false =>
      obtain ⟨hconditional, hfreed⟩ := h.freed hw hv hfills
      exact .inr ⟨hconditional, before, v, after, hsent, hbefore, hbuffer, hsame, hfreed⟩

/-- What a block of a construct sends in the end fits the buffers that it sends. -/
theorem Departs.aligned : Aligned final (mid.routine.operandsOf t) acquired
    (Misplaced f final e.op k.block (mid.routine.operandsOf t)) := by
  obtain ⟨pass, rfl, hoperands, -⟩ := h.exists_pass hw
  have hplain := h.placed_last.aligned hw pass
  rw [← hoperands] at hplain
  refine ⟨?_, fun i hi => ?_, fun i hi => ?_, ?_, fun m v i hv hi => ?_⟩
  · rw [h.patched.length, hplain.count]
  · obtain ⟨m, hm⟩ := List.mem_iff_getElem?.mp hi
    rcases h.patched.slots m i hm with hi | ⟨v, hv, hfills⟩
    · exact hplain.typed i (List.mem_of_getElem? hi)
    · exact (h.fills hw hv hfills).1
  · obtain ⟨m, hm⟩ := List.mem_iff_getElem?.mp hi
    rcases h.patched.slots m i hm with hi | ⟨v, hv, hfills⟩
    · exact hplain.owning i (List.mem_of_getElem? hi)
    · exact (h.fills hw hv hfills).2.1
  · exact h.patched.nodup (fun v hv m i hfills => h.fresh hw hv hfills) hplain.nodup
  · rcases h.patched.slots m i hi with hi | ⟨w, hw', hfills⟩
    · exact .inl ((hplain.classes m v i hv hi).resolve_right id)
    · rcases (h.fills hw hw' hfills).2.2 with ⟨hslot, hsame⟩ | hmisplaced
      · obtain rfl := Option.mem_unique hslot hv
        exact .inl hsame
      · exact .inr hmisplaced

end Departs

/-! ## Along the edges of a conditional -/

/-- Lists that agree on a test position by position agree on it in the same order. -/
theorem exists_filter_zip {Q : β → Bool} (h : l.map P = l'.map Q) {n : Nat} {x : α}
    (hx : (l.filter P)[n]? = some x) : ∃ y, (l'.filter Q)[n]? = some y ∧ (x, y) ∈ l.zip l' := by
  induction l generalizing l' n with
  | nil => simp at hx
  | cons a l ih =>
    cases l' with
    | nil => cases h
    | cons b l' =>
      obtain ⟨hab, h⟩ := List.cons.inj h
      cases ha : P a with
      | false =>
        rw [List.filter_cons_of_neg (by simp [ha])] at hx
        obtain ⟨y, hy, hzip⟩ := ih h hx
        refine ⟨y, ?_, List.mem_cons_of_mem _ hzip⟩
        rwa [List.filter_cons_of_neg (by simp [← hab, ha])]
      | true =>
        rw [List.filter_cons_of_pos ha] at hx
        rw [List.filter_cons_of_pos (by rw [← hab, ha])]
        cases n with
        | zero =>
          cases hx
          exact ⟨b, rfl, List.mem_cons_self⟩
        | succ n =>
          obtain ⟨y, hy, hzip⟩ := ih h hx
          exact ⟨y, hy, List.mem_cons_of_mem _ hzip⟩

theorem mem_zip_of_getElem? {n : Nat} {x : α} {y : β} (hx : l[n]? = some x) (hy : l'[n]? = some y) :
    (x, y) ∈ l.zip l' := by
  apply List.mem_of_getElem? (i := n)
  rw [List.getElem?_zip_eq_some]
  exact ⟨hx, hy⟩

section Edges

variable (hw : f.WellFormed) (ht : Threaded f final)
include hw ht

/-- A branch that is left passes what it sends on to the results of the conditional. -/
theorem Threaded.edgePairs_conditional (ho : f.isConditional o = true) (hd : f.op? o = some d)
    (henters : f.Enters o b) (hlist : f.opsOf b = body ++ [t]) (hterm : f.isTerminator t = true)
    {e : Op} (hkind : e.kind = d.kind) (hregions : e.regions = d.regions) :
    ∃ index, final.routine.edgePairs e (some index) =
      (final.routine.operandsOf t).zip e.results := by
  have hcond : d.kind = .conditional := by
    simp only [isConditional, kind?_of hd, Option.any_some, decide_eq_true_eq] at ho
    cases hk : d.kind <;> simp_all [OpKind.construct?]
  obtain ⟨k, hk, hblock⟩ :=
    exists_region_of_enters hd (by simp [hcond, OpKind.construct?]) henters
  obtain ⟨index, hindex⟩ := List.mem_iff_getElem?.mp hk
  have hsent : final.routine.sentAt? e.regions index = some (final.routine.operandsOf t) := by
    rw [sentAt?, blockAt?, hregions, hindex, Option.bind_some, ht.blocksOf, hblock,
      List.head?_cons, Option.bind_some, ht.lastTerminator? hw.linked hlist hterm]
    rfl
  refine ⟨index, ?_⟩
  simp [edgePairs, edgesFrom, hsent, exitsOf, hkind, hcond]

/-- Where a branch matches the results, a buffer that it sends is in its indicator's class. -/
theorem Stages.same_of_matches (h : Stages f settings (.start f) final)
    (hδ : Embedding f final.routine δ) (hdone : Done f final.routine f.root)
    (ho : f.VisitedConstruct o) (hcond : f.isConditional o = true) (henters : f.Enters o b)
    (hlist : f.opsOf b = body ++ [t]) (hterm : f.isTerminator t = true) (hmatch : f.Matches o t)
    (hsent : final.routine.operandsOf t = (f.operandsOf t).map δ.value ++ indicators)
    (hv : (((f.operandsOf t).map δ.value).filter final.routine.holdsBuffer)[n]? = some v)
    (hi : indicators[n]? = some i) : final.aliases.same v i = true := by
  have hreached := ho.1.reached hw.linked
  obtain ⟨d, hd⟩ := Option.ne_none_iff_exists'.mp (hw.op?_of_reached hreached)
  obtain ⟨e, he, hsame⟩ := h.same_of_construct hw hδ hdone ho hd
  obtain ⟨e', he', hgrown⟩ := hδ.change.image_of_live hd (hw.live o hreached) (hδ.lossless o)
  obtain rfl := Option.mem_unique he he'
  obtain ⟨extra, hresults, -, -, hextra⟩ := hgrown.results
  have hextra := hextra (hδ.op_ne hw hdone ho)
  obtain ⟨index, hpairs⟩ := ht.edgePairs_conditional hw hcond hd henters hlist hterm hgrown.kind
    hgrown.regions
  rw [Routine.Matches, resultsOf_of hd] at hmatch
  have hlength : ((f.operandsOf t).map δ.value).length = (d.results.map δ.value).length := by
    simpa using congrArg List.length hmatch
  rw [hsent, hresults, List.zip_append hlength] at hpairs
  have hjoined : ∀ {u w}, (u, w) ∈ ((f.operandsOf t).map δ.value).zip (d.results.map δ.value) ++
      indicators.zip extra → final.aliases.same u w = true := by
    intro u w hpair
    exact hsame (u, w) (.inl ⟨some index, hpairs ▸ hpair⟩)
  -- new names make no difference to being a buffer
  have hmatch' : ((f.operandsOf t).map δ.value).map final.routine.holdsBuffer =
      (d.results.map δ.value).map final.routine.holdsBuffer := by
    rw [List.map_map, List.map_map]
    refine (List.map_congr_left fun u hu => ?_).trans (hmatch.trans (List.map_congr_left
      fun u hu => ?_).symm)
    · exact hδ.change.holdsBuffer_value (hw.known t u hu)
    · exact hδ.change.holdsBuffer_value (hw.linked.result_known (resultsOf_of hd ▸ hu))
  obtain ⟨u, hu, hvu⟩ := exists_filter_zip hmatch' hv
  have hlt : n < extra.length := by
    rw [hextra, ← hδ.change.bufferCount_map fun w hw' =>
      hw.linked.result_known (resultsOf_of hd ▸ hw'), bufferCount, List.countP_eq_length_filter]
    exact (List.getElem?_eq_some_iff.mp hu).1
  have hj := List.getElem?_eq_getElem hlt
  have hresult : (u, extra[n]) ∈ final.routine.resultPairs e d.results.length := by
    have hcount : d.results.length = (d.results.map δ.value).length := by simp
    rw [resultPairs, hresults, hcount, List.take_left, List.drop_left]
    exact mem_zip_of_getElem? hu hj
  apply AliasClasses.same_trans (hjoined (List.mem_append_left _ hvu))
  apply AliasClasses.same_trans (hsame (u, extra[n]) (.inr hresult))
  exact AliasClasses.same_symm (hjoined (List.mem_append_right _ (mem_zip_of_getElem? hi hj)))

end Edges

/-! ## The whole run -/

section Root

variable {report : Report} (hw : f.WellFormed)
include hw

/-- The last operation of a block keeps its first operands, renamed, before those that it gets. -/
theorem Embedding.operands_sent (hδ : Embedding f g δ) (ht : f.Reached t)
    (hlive : g.isErased t = false) (hoperands : g.operandsOf t = sent ++ indicators)
    (hlength : sent.length = (f.operandsOf t).length) : sent = (f.operandsOf t).map δ.value := by
  obtain ⟨d, hd⟩ := Option.ne_none_iff_exists'.mp (hw.op?_of_reached ht)
  obtain ⟨e, he, hgrown⟩ := hδ.change.image_of_live hd (hw.live t ht) (hδ.lossless t)
  rw [hδ.op_eq_self hlive] at he
  rw [operandsOf_of he, hgrown.operands, List.map_append] at hoperands
  rw [operandsOf_of hd] at hlength ⊢
  exact (List.append_inj hoperands.symm (by simpa using hlength)).1

variable (hroot : f.threadFromRoot settings = .ok (out, final))
include hroot

/-- The blocks of a construct. -/
theorem threadFromRoot_sends (hδ : Embedding f final.routine δ) (ho : f.VisitedConstruct o)
    (henters : f.Enters o b) (hlist : f.opsOf b = body ++ [t]) :
    ∃ added, final.routine.operandsOf t = (f.operandsOf t).map δ.value ++ added ∧
      Aligned final ((f.operandsOf t).map δ.value) added fun n i =>
        ¬ f.Matches o t ∧ Misplaced f final o b ((f.operandsOf t).map δ.value) n i := by
  obtain ⟨ht, hdone, -⟩ := threadFromRoot_spec hw hroot
  have hne : o ≠ f.root := by
    rintro rfl
    cases ho.2.symm.trans hw.isConstruct_root
  obtain ⟨fuel, K, e, front, rest, -, -, rfl, hcall⟩ := exists_placed_call hw hroot ho.1 hne
  obtain ⟨n, -, rfl, -⟩ := hcall.cases hw
  obtain ⟨k, mid, values, acquired, displaced, rfl, hdeparts, hsends⟩ :=
    hcall.departs hw hdone ho.2 henters hlist
  obtain ⟨pass, rfl, -, front', hclosed⟩ := hdeparts.exists_pass hw
  have haligned := hdeparts.aligned hw
  have hsent := hδ.operands_sent hw hclosed.reached hdeparts.live hsends hclosed.last.operands
  rw [hsent] at hsends haligned
  refine ⟨acquired, hsends, { haligned with classes := fun m v i hv hi => ?_ }⟩
  rcases haligned.classes m v i hv hi with hsame | hmisplaced
  · exact .inl hsame
  · -- in a matching place the classes are joined when the construct is finished
    by_cases hmatch : f.Matches e.op pass.t
    · exact .inl ((threadFromRoot_stages hw hroot).same_of_matches hw ht hδ hdone ho hmisplaced.1
        henters hlist pass.terminator hmatch hsends hv hi)
    · exact .inr ⟨hmatch, hmisplaced⟩

/-- The body of the routine. -/
theorem threadFromRoot_returns (hδ : Embedding f final.routine δ) (henters : f.Enters f.root b)
    (hlist : f.opsOf b = body ++ [t]) :
    final.routine.operandsOf t = (f.operandsOf t).map δ.value ∧
      Aligned final ((f.operandsOf t).map δ.value) out.acquired fun _ _ => False := by
  obtain ⟨b', outcome, henters', hgoes, -, rfl⟩ := threadFromRoot_block hw hroot
  obtain rfl := hw.root_block_unique henters henters'
  have htransit : Transits f settings f.ops.size ⟨b, false, .start f, outcome, final⟩ :=
    .body rfl rfl henters hgoes
  obtain ⟨m, hplaced⟩ := htransit.placed hw hroot
  obtain ⟨pass⟩ := hplaced.pass hw
  obtain ⟨-, hlast⟩ := List.append_inj' (hlist.symm.trans pass.original) rfl
  obtain rfl : t = pass.t := List.singleton_inj.mp hlast
  -- nothing comes after the body
  have hrun : Run f .none final final := .refl
  obtain ⟨⟨front, hclosed⟩, hoperands⟩ := hplaced.closed hw pass hrun
    ⟨fun _ _ => id, fun _ _ => id, fun _ _ _ _ => id⟩
  have hsent := hδ.operands_sent hw hclosed.reached hclosed.last.live (List.append_nil _).symm
    hclosed.last.operands
  refine ⟨hsent, ?_⟩
  rw [← hsent, hoperands]
  exact hplaced.aligned hw pass

omit hroot

/-- The indicators that are sent, and those that are returned, stand where their buffers stand. -/
theorem threadOwnership_aligned (h : f.threadOwnership settings = .ok (report, g)) :
    ∃ out s σ τ, f.threadFromRoot settings = .ok (out, s) ∧ s.routine = g ∧ Enriches f g σ τ ∧
      (∀ o b body t, f.VisitedConstruct o → f.Enters o b → f.opsOf b = body ++ [t] →
        g.holder? b = some (σ o) ∧ ∃ added, g.operandsOf t = (f.operandsOf t).map τ ++ added ∧
          Aligned s ((f.operandsOf t).map τ) added fun n i =>
            ¬ f.Matches o t ∧ Misplaced f s o b ((f.operandsOf t).map τ) n i) ∧
      ∀ b body t, f.Enters f.root b → f.opsOf b = body ++ [t] →
        g.operandsOf t = (f.operandsOf t).map τ ∧
          Aligned s ((f.operandsOf t).map τ) report.returned fun _ _ => False := by
  obtain ⟨out, s, hroot, rfl, hreturned⟩ := threadOwnership_eq_ok h
  obtain ⟨ht, hdone, -⟩ := threadFromRoot_spec hw hroot
  obtain ⟨δ, hδ⟩ := ht.embedded
  refine ⟨out, s, δ.op, δ.value, hroot, rfl, hδ.enriches hw hdone, ?_, ?_⟩
  · intro o b body t ho henters hlist
    refine ⟨?_, threadFromRoot_sends hw hroot hδ ho henters hlist⟩
    rw [hδ.change.holder?, henters.holder? hw.linked]
    rfl
  · intro b body t henters hlist
    rw [hreturned]
    exact threadFromRoot_returns hw hroot hδ henters hlist

end Root

/-- The branch that keeps the buffer captures its indicator, and sends it in the slot of the
buffer. What the loop leaves behind is returned. -/
theorem threadOwnership_aligned_renewal :
    ∃ report g s τ, renewalRoutine.threadOwnership {} = .ok (report, g) ∧ s.routine = g ∧
      renewalRoutine.VisitedConstruct ⟨2⟩ ∧ renewalRoutine.Enters ⟨2⟩ ⟨2⟩ ∧
      renewalRoutine.opsOf ⟨2⟩ = [] ++ [⟨6⟩] ∧
      (∃ added, g.operandsOf ⟨6⟩ = (renewalRoutine.operandsOf ⟨6⟩).map τ ++ added ∧
        Aligned s ((renewalRoutine.operandsOf ⟨6⟩).map τ) added fun _ _ => False) ∧
      g.operandsOf ⟨9⟩ = (renewalRoutine.operandsOf ⟨9⟩).map τ ∧
      Aligned s ((renewalRoutine.operandsOf ⟨9⟩).map τ) report.returned fun _ _ => False := by
  obtain ⟨⟨report, g⟩, h⟩ :=
    exists_of_toBool (x := renewalRoutine.threadOwnership {}) (by decide +kernel)
  have hleads : renewalRoutine.Leads renewalRoutine.root ⟨2⟩ := by decide +kernel
  have hvisited : renewalRoutine.VisitedConstruct ⟨2⟩ := ⟨.single hleads, by decide +kernel⟩
  have henters : renewalRoutine.Enters ⟨2⟩ ⟨2⟩ := by decide +kernel
  have hlist : renewalRoutine.opsOf ⟨2⟩ = [] ++ [⟨6⟩] := by decide +kernel
  have hbody : renewalRoutine.Enters renewalRoutine.root ⟨0⟩ := by decide +kernel
  have hlist' : renewalRoutine.opsOf ⟨0⟩ = [⟨1⟩, ⟨2⟩, ⟨7⟩] ++ [⟨9⟩] := by decide +kernel
  have hmatch : renewalRoutine.Matches ⟨2⟩ ⟨6⟩ := by decide +kernel
  obtain ⟨_, s, _, τ, -, hs, -, hsends, hreturns⟩ :=
    threadOwnership_aligned renewalRoutine_wellFormed h
  obtain ⟨-, added, hadded, haligned⟩ := hsends _ _ _ _ hvisited henters hlist
  refine ⟨report, g, s, τ, h, hs, hvisited, henters, hlist, ⟨added, hadded, ?_⟩,
    hreturns _ _ _ hbody hlist'⟩
  exact { haligned with
    classes := fun n v i hv hi =>
      .inl ((haligned.classes n v i hv hi).resolve_right fun hother => hother.1 hmatch) }

/-- Each branch closes one of two handles and sends the other one, with a buffer behind it. The
results of the conditional are the other way round. -/
def swapped : Edit Unit := do
  let entry : InsertPoint := .atEnd ⟨0⟩
  let ty : Ty := .buffer .f32 1
  let opens ← Emit.generic entry "open" [] [.scalar .f32] [.allocatesResult 0]
  let handle ← Edit.ask fun r => return (← r.op opens).results
  let opens' ← Emit.generic entry "open" [] [.scalar .f32] [.allocatesResult 0]
  let handle' ← Edit.ask fun r => return (← r.op opens').results
  let buffer ← Emit.alloc entry ty
  let choice ← Emit.conditional entry ⟨0⟩ [ty, .scalar .f32] true
  let otherwise := choice.elseBlock?.getD ⟨0⟩
  let _ ← Emit.generic (.atEnd choice.thenBlock) "close" handle [] [.freesOperand 0]
  let _ ← Emit.yield (.atEnd choice.thenBlock) (handle' ++ [buffer])
  let _ ← Emit.generic (.atEnd otherwise) "close" handle' [] [.freesOperand 0]
  let _ ← Emit.yield (.atEnd otherwise) (handle ++ [buffer])
  let _ ← Emit.ret entry []

def swappedRoutine : Routine := swapped.build "swapped" [.scalar .i1]

/-- The indicator of the handle is sent in the slot of the buffer. -/
theorem swappedRoutine_not_aligned :
    swappedRoutine.WellFormed ∧ swappedRoutine.VisitedConstruct ⟨4⟩ ∧
      swappedRoutine.Enters ⟨4⟩ ⟨2⟩ ∧ swappedRoutine.opsOf ⟨2⟩ = [⟨7⟩] ++ [⟨8⟩] ∧
      (∃ answer, swappedRoutine.threadOwnership {} = .ok answer) ∧
      ∃ out s, swappedRoutine.threadFromRoot {} = .ok (out, s) ∧
        s.routine.operandsOf ⟨8⟩ = [⟨1⟩, ⟨3⟩] ++ [⟨6⟩] ∧
        [⟨1⟩, ⟨3⟩].filter s.routine.holdsBuffer = [⟨3⟩] ∧ s.aliases.same ⟨3⟩ ⟨6⟩ = false := by
  have hleads : swappedRoutine.Leads swappedRoutine.root ⟨4⟩ := by decide +kernel
  obtain ⟨⟨out, s⟩, hroot, hsent, hbuffer, hother⟩ :=
    exists_of_check (x := swappedRoutine.threadFromRoot {})
      (P := fun a => a.2.routine.operandsOf ⟨8⟩ = [⟨1⟩, ⟨3⟩] ++ [⟨6⟩] ∧
        [⟨1⟩, ⟨3⟩].filter a.2.routine.holdsBuffer = [⟨3⟩] ∧ a.2.aliases.same ⟨3⟩ ⟨6⟩ = false)
      (by decide +kernel)
  exact ⟨Routine.wellFormed_of_check (by decide +kernel), ⟨.single hleads, by decide +kernel⟩,
    by decide +kernel, by decide +kernel, exists_of_toBool (by decide +kernel), out, s, hroot,
    hsent, hbuffer, hother⟩

end BufferOwnership
