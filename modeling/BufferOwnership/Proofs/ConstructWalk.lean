import BufferOwnership.Proofs.RegionWalk
import BufferOwnership.Proofs.UseCounts

/-!
# Threading through a construct

First the regions of a construct are gone through and brought to agree, and their terminators get
the indicators that they send. Then each buffer operand gets an indicator, and a new construct takes
the place of the old one; its last results are the indicators that it leaves behind. Each of these
stages is a run that stays in the construct or in its place: `ConstructPass` lists them, and
`throughConstruct_spec` puts them together.
-/

namespace BufferOwnership

open Routine

variable {f r r' : Routine} {F : Footprint} {s s' : Session} {b c : BlockId} {o p q t x : OpId}
variable {u : Unit} {indicators : List ValueId} {front rest : List OpId} {i j v : ValueId}
variable {g : RegionId} {d : Op} {outs : List RegionOutcome} {β : Type}

/-! ## Terminators get what they send -/

def Footprint.operands (P : OpId → Prop) : Footprint where
  ops := P
  blocks _ := False
  args _ := False

/-- Operations in the blocks of some regions may get operands. -/
def Footprint.inRegions (f : Routine) (gs : List RegionId) : Footprint :=
  .operands fun p => ∃ g ∈ gs, ∃ b, f.blocksOf g = [b] ∧ f.parent? p = some b

theorem Footprint.inRegions_mono {gs gs' : List RegionId} (h : ∀ g ∈ gs, g ∈ gs') :
    (Footprint.inRegions f gs).Within (.inRegions f gs') where
  ops _ := fun ⟨g, hg, hp⟩ => ⟨g, h g hg, hp⟩
  blocks _ := id
  args _ := id

/-- Of two operations with the same one around them, neither is inside the other. -/
theorem not_inside_sibling (hw : f.WellFormed) (ho : f.Reached o) (hq : f.up? q = some o)
    (hp : f.up? p = some o) (hne : q ≠ p) : ¬ f.Inside q p := fun hin =>
  hne (hin.eq_of_up? hw.root_unlinked (ho.step hq) (hq.trans hp.symm))

/-- A region after its terminator has got what it sends. -/
def Sent (f r : Routine) (g : RegionId) : Prop :=
  ∀ b, f.blocksOf g = [b] →
    Sealed f r b ∧ ∀ body t, f.opsOf b = body ++ [t] → ∀ q ∈ body, Done f r q

theorem Sent.run (h : Sent f s.routine g) (hrun : Run f F s s') (ht : Threaded f s)
    (hl : f.Linked)
    (hops : ∀ b, f.blocksOf g = [b] → ∀ q, f.parent? q = some b → ∀ p, f.Inside q p → ¬ F.ops p)
    (hargs : ∀ b, f.blocksOf g = [b] → ∀ c, f.Under b c → ¬ F.args c) :
    Sent f s'.routine g := by
  intro b hb
  obtain ⟨hsealed, hdone⟩ := h b hb
  refine ⟨hsealed.run hrun ht hl (hargs b hb b (.inl rfl)) fun t ht => hops b hb t ht t .refl, ?_⟩
  intro body t hlist q hq
  have hparent := (hl.op_listed q b).mp (by simp [hlist, hq])
  exact (hdone body t hlist q hq).run hrun ht hl (hops b hb q hparent)
    fun c hc => hargs b hb c (.inr ⟨q, hparent, hc⟩)

theorem Handed.inScope (h : Handed f r b front t i) (hlist : r.opsOf b = front ++ [t]) :
    r.InScope t i ∧ r.ty? i = some .ownership ∧ f.values.size ≤ i.index := by
  rcases h with htoken | ⟨⟨v, hrec⟩, hscope⟩
  · exact ⟨⟨b, front, [], hlist, htoken.visible⟩, htoken.typed, htoken.later⟩
  · exact ⟨hscope, hrec.typed, hrec.later⟩

/-- Operands for the terminator of a treated construct are a step. -/
theorem Threaded.send {vs : List ValueId} (ht : Threaded f s) (s' : Session)
    (hterm : s.routine.isTerminator t = true) (hlive : s.routine.isErased t = false)
    (hcloses : f.Closes t)
    (hvs : ∀ v ∈ vs, s.routine.InScope t v ∧ s.routine.ty? v = some .ownership ∧
      f.values.size ≤ v.index)
    (h : s.routine.appendOperands t vs = .ok s'.routine) (haliases : s'.aliases = s.aliases) :
    Run f (.operands (· = t)) s s' ∧ s'.routine.isErased t = false ∧
      (s'.routine.operandsOf t).length = (s.routine.operandsOf t).length + vs.length := by
  obtain ⟨d, hd, hr⟩ := appendOperands_eq_ok h
  have hentry := op?_appendOperands_self h hd
  -- the terminator is the only operation that gains anything, and no list changes
  have hlegal : Legal f (.operands (· = t)) s.routine s'.routine (extension t vs) :=
    { change := change_appendOperands h hterm hlive
      sound := sound_appendOperands h ht.wellFormed fun v hv => ⟨(hvs v hv).1, (hvs v hv).2.1⟩
      linked := ht.wellFormed.linked.appendOperands h
      later :=
        { lost := fun _ hx => by cases hx
          renamed := fun _ hx => absurd rfl hx
          added := fun p v hv => by
            by_cases hp : p = t
            · exact (hvs v (by simpa [extension, hp] using hv)).2.2
            · simp [extension, hp] at hv }
      ops := fun p hp => by
        rcases hp with hp | hp
        · exact absurd rfl hp
        · by_contra hne
          exact hp (if_neg hne)
      blocks := fun c _ => hr ▸ rfl
      args := fun c _ => hr ▸ rfl
      renamed := fun p hp => absurd rfl hp
      added := fun p hp => by
        by_cases hpt : p = t
        · exact .inr (hpt ▸ hcloses)
        · exact absurd (if_neg hpt) hp
      opened := fun c hc => by
        rw [hr] at hc
        exact absurd rfl hc
      made := fun x hx hx' => by
        by_cases hxt : x = t
        · rw [hxt, hd] at hx
          cases hx
        · exact absurd ((op?_appendOperands_of_ne h hxt).trans hx) hx' }
  refine ⟨.single (.edit _ hlegal haliases), ?_, ?_⟩
  · rwa [isErased_of hentry, ← isErased_of hd]
  · rw [operandsOf_of hentry, operandsOf_of hd, List.length_append]

/-- A region with one block makes the last operation of that block send what it hands on. -/
theorem sendAcquired_eq_ok {out : RegionOutcome}
    (hblock : s.routine.blocksOf out.region = [b]) (hlist : s.routine.opsOf b = front ++ [t])
    (hterm : s.routine.isTerminator t = true) (h : Pass.sendAcquired out s = .ok (u, s')) :
    s.routine.appendOperands t out.outcome.acquired = .ok s'.routine ∧ s'.aliases = s.aliases := by
  obtain ⟨b?, hb, h⟩ := Pass.ask_bind_eq_ok.mp h
  have hb := singleBlock?_eq_ok hb
  rw [hblock] at hb
  subst hb
  obtain ⟨t?, ht?, h⟩ := Pass.ask_bind_eq_ok.mp h
  obtain rfl := terminator?_eq_of hlist hterm ht?
  obtain ⟨r', hedit, rfl⟩ := Pass.edit_eq_ok.mp h
  exact ⟨Edit.change_eq_ok.mp hedit, rfl⟩

/-- A region without a block sends nothing. -/
theorem sendAcquired_of_empty {out : RegionOutcome}
    (hnone : s.routine.blocksOf out.region = []) (h : Pass.sendAcquired out s = .ok (u, s')) :
    s' = s := by
  obtain ⟨b?, hb, h⟩ := Pass.ask_bind_eq_ok.mp h
  have hb := singleBlock?_eq_ok hb
  rw [hnone] at hb
  subst hb
  exact (Pass.pure_eq_ok.mp h).2.symm

section Sends

variable (hw : f.WellFormed) (hreached : f.Reached o)
include hw hreached

theorem sendAcquired_spec {out : RegionOutcome} (ht : Threaded f s)
    (hopened : ∀ b, f.blocksOf out.region = [b] → f.Opened b ∧ f.holder? b = some o)
    (hready : Ready f s.routine out.region out.outcome.acquired)
    (h : Pass.sendAcquired out s = .ok (u, s')) :
    Run f (.inRegions f [out.region]) s s' ∧ Sent f s'.routine out.region := by
  rcases hready with ⟨hnone, -⟩ | ⟨b, body, t, front, hp⟩
  · obtain rfl := sendAcquired_of_empty ((ht.blocksOf _).trans hnone) h
    exact ⟨.refl, fun c hc => by simp [hnone] at hc⟩
  · have hlist := hp.walked.original
    have htf := hw.linked.op?_of_listed (o := t) (b := b) (by simp [hlist])
    have hterm : s.routine.isTerminator t = true := by
      rw [isTerminator, ht.kind? htf]
      exact hp.walked.terminator
    obtain ⟨hopened, hholder⟩ := hopened b hp.block
    obtain ⟨hedit, haliases⟩ :=
      sendAcquired_eq_ok ((ht.blocksOf _).trans hp.block) hp.walked.list hterm h
    obtain ⟨hrun, hlive, hlen⟩ := ht.send s' hterm hp.walked.last.live ⟨b, body, hopened, hlist⟩
      (fun v hv => (hp.handed v hv).inScope hp.walked.list) hedit haliases
    have hparent : ∀ q ∈ body ++ [t], f.parent? q = some b := by
      intro q hq
      rwa [← hw.linked.op_listed, hlist]
    refine ⟨hrun.mono ⟨?_, fun _ => id, fun _ => id⟩, fun c hc => ?_⟩
    · rintro _ rfl
      exact ⟨out.region, by simp, b, hp.block, hparent _ (by simp)⟩
    · obtain rfl : b = c := by simpa [hp.block] using hc
      refine ⟨⟨?_, fun body' t' hlist' => ?_⟩, fun body' t' hlist' q hq => ?_⟩
      · rw [hrun.argsOf id, hp.walked.args rfl]
      · rw [hlist] at hlist'
        obtain ⟨rfl, hlast⟩ := List.append_inj' hlist' rfl
        obtain rfl : t = t' := by simpa using hlast
        refine ⟨hlive, ?_⟩
        rw [hlen, hp.walked.last.operands, hp.count]
      · rw [hlist] at hlist'
        obtain ⟨rfl, -⟩ := List.append_inj' hlist' rfl
        refine (hp.walked.done q hq).run hrun ht hw.linked ?_ fun _ _ => id
        -- the last operation is not inside another one of the block
        rintro p hin rfl
        have hup : ∀ q ∈ body ++ [p], f.up? q = some o := fun q hq =>
          (up?_of_parent? (hparent q hq)).trans hholder
        refine not_inside_sibling hw hreached (hup q (by simp [hq])) (hup p (by simp)) ?_ hin
        rintro rfl
        exact (hw.linked.toNested.listed_once hlist).1 hq

/-- What is done in one region does not concern another one. -/
theorem operands_avoids (gs : List RegionId)
    (hregions : ∀ b, f.blocksOf g = [b] → f.holder? b = some o)
    (hgs : ∀ g' ∈ gs, ∀ b, f.blocksOf g' = [b] → f.holder? b = some o)
    (hout : g ∉ gs) (hb : f.blocksOf g = [b]) : (Footprint.inRegions f gs).Avoids f b := by
  refine ⟨fun _ _ => id, fun _ _ => id, ?_⟩
  rintro q hq p hin ⟨g', hg', c, hc, hp⟩
  have hup : f.up? q = some o := (up?_of_parent? hq).trans (hregions b hb)
  have hup' : f.up? p = some o := (up?_of_parent? hp).trans (hgs g' hg' c hc)
  refine not_inside_sibling hw hreached hup hup' ?_ hin
  rintro rfl
  obtain rfl := Option.mem_unique hq hp
  have hhome := (hw.linked.block_listed b g).mp (by simp [hb])
  have hhome' := (hw.linked.block_listed b g').mp (by simp [hc])
  exact hout (Option.mem_unique hhome hhome' ▸ hg')

theorem sendAll_spec (ht : Threaded f s) (hnodup : (outs.map (·.region)).Nodup)
    (hopened : ∀ out ∈ outs, ∀ b, f.blocksOf out.region = [b] → f.Opened b ∧ f.holder? b = some o)
    (hready : ∀ out ∈ outs, Ready f s.routine out.region out.outcome.acquired)
    (h : outs.forM Pass.sendAcquired s = .ok (u, s')) :
    Run f (.inRegions f (outs.map (·.region))) s s' ∧
      ∀ out ∈ outs, Sent f s'.routine out.region := by
  induction outs generalizing s with
  | nil =>
    cases h
    exact ⟨.refl, by simp⟩
  | cons out rest ih =>
    obtain ⟨_, mid, hsend, h⟩ := Pass.bind_eq_ok.mp h
    obtain ⟨hout, hnodup'⟩ := List.nodup_cons.mp hnodup
    obtain ⟨hrun₁, hsent⟩ := sendAcquired_spec hw hreached ht (hopened out (by simp))
      (hready out (by simp)) hsend
    have ht₁ := ht.run hw hrun₁
    have hready₁ : ∀ out' ∈ rest, Ready f mid.routine out'.region out'.outcome.acquired := by
      intro out' hout'
      refine (hready out' (by simp [hout'])).run hrun₁ ht hw fun b hb => ?_
      refine operands_avoids hw hreached _
        (fun b hb => (hopened out' (by simp [hout']) b hb).2) ?_ ?_ hb
      · simpa using fun b hb => (hopened out (by simp) b hb).2
      · intro hmem
        exact hout (List.mem_map.mpr ⟨out', hout', List.mem_singleton.mp hmem⟩)
    obtain ⟨hrun₂, hsent₂⟩ := ih ht₁ hnodup' (fun out' ho => hopened out' (by simp [ho])) hready₁ h
    refine ⟨(hrun₁.mono (Footprint.inRegions_mono (by simp))).trans
      (hrun₂.mono (Footprint.inRegions_mono fun g => List.mem_cons_of_mem _)),
      fun out' hout' => ?_⟩
    rcases List.mem_cons.mp hout' with rfl | hout'
    · -- regions differ, so what the others send does not concern the first
      have ha := fun b hb => operands_avoids hw hreached (b := b) (rest.map (·.region))
        (fun b hb => (hopened out' (by simp) b hb).2) (fun g hg b hb => by
          obtain ⟨out, ho, rfl⟩ := List.mem_map.mp hg
          exact (hopened out (by simp [ho]) b hb).2) hout hb
      exact hsent.run hrun₂ ht₁ hw.linked (fun b hb => (ha b hb).ops) fun b hb => (ha b hb).args
    · exact hsent₂ out' hout'

end Sends

/-! ## Retains that nobody uses -/

/-- The operations in the blocks of one operation may change. -/
def Footprint.lists (f : Routine) (o : OpId) : Footprint where
  ops _ := False
  blocks c := f.holder? c = some o
  args _ := False

theorem Displaced.keep (h : Displaced f r o i) (hkept : Kept r r')
    (hlists : ∀ b, f.holder? b = some o → r'.opsOf b = r.opsOf b) : Displaced f r' o i := by
  cases h with
  | argument hi => exact .argument ((hkept.args _).subset hi)
  | own hi hkind => exact .own (hkept.mem_resultsOf hi) (hkept.kind? hkind)
  | gone hi herased => exact .gone (hkept.mem_resultsOf hi) (hkept.isErased herased)
  | placed hi hlater hholder hlist hq =>
    exact .placed (hkept.mem_resultsOf hi) hlater hholder ((hlists _ hholder).trans hlist) hq

/-- What comes from the run and is a retain has no regions. -/
theorem Threaded.leaf (ht : Threaded f s) (hf : f.op? x = none) (hd : s.routine.op? x = some d)
    (hlive : d.erased = false) {n : Nat} (hkind : d.kind = .retain n) : d.regions = [] := by
  obtain ⟨δ, hδ⟩ := ht.embedded
  rcases hδ.change.only x (by simp [hd]) with hold | hnew | ⟨p, rfl, hne⟩ | ⟨herased, -⟩
  · exact absurd hf hold
  · obtain ⟨-, e, he, hins⟩ := hδ.change.new x hnew
    obtain rfl := Option.mem_unique he hd
    exact hins.regions
  · obtain ⟨d₀, e, hd₀, he, hgrown⟩ := hδ.change.image_of_renamed hne
    obtain rfl := Option.mem_unique he hd
    have hcons := (hδ.change.renamed p hne).1
    simp [isConstruct_of hd₀, ← hgrown.kind, hkind, OpKind.construct?] at hcons
  · rw [isErased_of hd, hlive] at herased
    cases herased

/-- An operation with a result that comes from the run comes from the run itself. -/
theorem Threaded.later_op (ht : Threaded f s) (hl : f.Linked) (hi : i ∈ s.routine.resultsOf x)
    (hlater : f.values.size ≤ i.index) : f.op? x = none := by
  by_contra hne
  obtain ⟨δ, hδ⟩ := ht.embedded
  rw [hδ.change.keeps.resultsOf hne] at hi
  have := hl.result_known hi
  omega

/-- Taking out a retain that nobody uses is a step. -/
theorem Threaded.drop (ht : Threaded f s) (s' : Session) (hf : f.op? x = none)
    (hd : s.routine.op? x = some d) (hlive : d.erased = false)
    (hkind : d.kind = .retain d.operands.length) (hholder : f.holder? b = some o)
    (hlist : s.routine.opsOf b = front ++ [t]) (hx : x ∈ front)
    (hunused : ∀ v ∈ d.results, (s.routine.uses v).isEmpty = true)
    (h : s.routine.eraseOp x = .ok s'.routine) (haliases : s'.aliases = s.aliases) :
    Run f (.lists f o) s s' ∧ s'.routine.isErased x = true ∧
      ∀ c front' t', s.routine.opsOf c = front' ++ [t'] →
        s'.routine.opsOf c = front'.filter (fun p => !decide (p = x)) ++ [t'] := by
  have hl := ht.wellFormed.linked
  have hleaf := ht.leaf hf hd hlive hkind
  obtain ⟨pre, post, rfl⟩ := List.append_of_mem hx
  have hplace : s.routine.opsOf b = pre ++ x :: (post ++ [t]) := by simp [hlist]
  have hlists := opsOf_eraseOp hl.toNested hd hleaf h
  have hchange := change_eraseOp hl hd hkind hleaf hlive hplace (by simp) h
  have hlegal : Legal f (.lists f o) s.routine s'.routine (removal x) :=
    { change := hchange
      sound := sound_eraseOp ht.wellFormed hd hleaf h fun p e he helive v hv hres =>
        notMem_operands_of_uses (hunused v hres) he helive hv
      linked := hl.eraseOp h
      later :=
        { lost := fun p hp => by
            obtain rfl : p = x := by simpa [removal] using hp
            exact hf
          renamed := fun _ hp => absurd rfl hp
          added := fun _ _ hv => by cases hv }
      ops := fun p hp => by rcases hp with hp | hp <;> exact absurd rfl hp
      blocks := fun c hc => by
        refine (hlists c).trans (filter_not_of_notMem fun hmem => hc ?_)
        exact hl.block_unique hmem (c := b) (by simp [hplace]) ▸ hholder
      args := fun c _ => (Relinked.eraseOp h).argsOf_eq c
      renamed := fun p hp => absurd rfl hp
      added := fun p hp => absurd rfl hp
      opened := fun c hc => absurd ((Relinked.eraseOp h).argsOf_eq c) hc
      made := fun y hy hy' => by
        obtain ⟨hop, -⟩ := eraseOp_leaf_entries hd hleaf h
        by_cases hyx : y = x
        · rw [hyx, hd] at hy
          cases hy
        · rw [hop, if_neg hyx] at hy'
          exact absurd hy hy' }
  refine ⟨.single (.edit _ hlegal haliases), (hchange.lost x (by simp [removal])).2.2.1, ?_⟩
  intro c front' t' hlist'
  have hne : t' ≠ x := by
    -- what is taken out stands in one place, which is not the last one
    rintro rfl
    obtain ⟨-, -, hrest⟩ := hl.place_unique hlist' hplace
    simp at hrest
  rw [hlists, hlist', List.filter_append, List.filter_cons_of_pos (by simpa using hne),
    List.filter_nil]

/-- Either nothing happens, or the indicator is a result of an unused retain, which is erased. -/
theorem dropIfDead_eq_ok (h : Pass.dropIfDead i s = .ok (u, s')) :
    s' = s ∨ ∃ x k d, s.routine.origin? i = some (.result x k) ∧ s.routine.op? x = some d ∧
      d.kind = .retain d.operands.length ∧ d.erased = false ∧
      (∀ v ∈ d.results, (s.routine.uses v).isEmpty = true) ∧
      s.routine.eraseOp x = .ok s'.routine ∧ s'.aliases = s.aliases ∧
      s'.tally = { s.tally with retains := s.tally.retains - 1 } := by
  obtain ⟨V, hV, h⟩ := Pass.ask_bind_eq_ok.mp h
  cases horigin : V.origin with
  | argument _ _ =>
    simp only [horigin] at h
    exact .inl (Pass.pure_eq_ok.mp h).2.symm
  | result x k =>
    simp only [horigin] at h
    obtain ⟨d, hd, h⟩ := Pass.ask_bind_eq_ok.mp h
    obtain ⟨unused, hunused, h⟩ := Pass.ask_bind_eq_ok.mp h
    split at h
    · rename_i hdead
      obtain ⟨hkind, hlive, hall⟩ := hdead
      obtain ⟨_, mid, hedit, h⟩ := Pass.bind_eq_ok.mp h
      obtain ⟨r', herase, rfl⟩ := Pass.edit_eq_ok.mp hedit
      obtain ⟨hroutine, haliases⟩ := Pass.count_eq_ok h
      refine .inr ⟨x, k, d, ?_, op_eq_ok.mp hd, hkind, by simpa using hlive, ?_, ?_, haliases,
        (Pass.count_tally h :)⟩
      · rw [origin?_of (value_eq_ok.mp hV), horigin]
      · cases hunused
        exact List.all_eq_true.mp hall
      · rw [hroutine]
        exact Edit.change_eq_ok.mp herase
    · exact .inl (Pass.pure_eq_ok.mp h).2.symm

/-- What is displaced stays so when an operation is erased, be it the one that it comes from. -/
theorem Displaced.drop (h : Displaced f s.routine o j) (hrun : Run f F s s')
    (hgone : s'.routine.isErased x = true)
    (hlists : ∀ c front t, s.routine.opsOf c = front ++ [t] →
      s'.routine.opsOf c = front.filter (fun p => !decide (p = x)) ++ [t]) :
    Displaced f s'.routine o j := by
  cases h with
  | argument hj => exact .argument ((hrun.keeps.args _).subset hj)
  | own hj hkind => exact .own (hrun.keeps.mem_resultsOf hj) (hrun.keeps.kind? hkind)
  | gone hj herased => exact .gone (hrun.keeps.mem_resultsOf hj) (hrun.keeps.isErased herased)
  | @placed q _ _ _ hj hlater hholder hlist hq =>
    by_cases hqx : q = x
    · exact .gone (hrun.keeps.mem_resultsOf hj) (hqx ▸ hgone)
    · exact .placed (hrun.keeps.mem_resultsOf hj) hlater hholder (hlists _ _ _ hlist)
        (List.mem_filter.mpr ⟨hq, by simpa using hqx⟩)

/-- A retain that is dropped comes from the run, and stands in a block of the construct. -/
theorem Displaced.dropped (hi : Displaced f s.routine o i) (ht : Threaded f s)
    (hw : f.WellFormed) (h : Pass.dropIfDead i s = .ok (u, s')) :
    s' = s ∨ ∃ x d, f.op? x = none ∧ s.routine.op? x = some d ∧
      d.kind = .retain d.operands.length ∧ d.erased = false ∧ d.regions = [] ∧
      (∃ b front t, f.holder? b = some o ∧ s.routine.opsOf b = front ++ [t] ∧ x ∈ front) ∧
      (∀ v ∈ d.results, (s.routine.uses v).isEmpty = true) ∧
      s.routine.eraseOp x = .ok s'.routine ∧ s'.aliases = s.aliases ∧
      s'.tally = { s.tally with retains := s.tally.retains - 1 } := by
  have hl := ht.wellFormed.linked
  rcases dropIfDead_eq_ok h with
    hsame | ⟨x, k, d, horigin, hd, hkind, hlive, hunused, herase, haliases, htally⟩
  · exact .inl hsame
  have hres := List.mem_of_getElem? ((hl.result_listed i x k).mpr horigin)
  cases hi with
  | argument hi => exact absurd hi (hl.not_arg_of_result hres)
  | own hi hown =>
    rw [hl.result_unique hi hres, kind?_of hd, hkind] at hown
    cases hown
  | gone hi herased =>
    rw [hl.result_unique hi hres, isErased_of hd, hlive] at herased
    cases herased
  | @placed q _ _ _ hi hlater hholder hlist hq =>
    obtain rfl : x = q := hl.result_unique hres hi
    have hf := ht.later_op hw.linked hi hlater
    exact .inr ⟨x, d, hf, hd, hkind, hlive, ht.leaf hf hd hlive hkind,
      ⟨_, _, _, hholder, hlist, hq⟩, hunused, herase, haliases, htally⟩

theorem dropIfDead_spec (ht : Threaded f s) (hw : f.WellFormed)
    (hi : Displaced f s.routine o i) (h : Pass.dropIfDead i s = .ok (u, s')) :
    Run f (.lists f o) s s' ∧ (∀ v, s'.routine.useCount v ≤ s.routine.useCount v) ∧
      ∀ j, Displaced f s.routine o j → Displaced f s'.routine o j := by
  rcases hi.dropped ht hw h with
    rfl | ⟨x, d, hf, hd, hkind, hlive, hleaf, ⟨b, front, t, hholder, hlist, hx⟩, hunused, herase,
      haliases, -⟩
  · exact ⟨.refl, fun _ => Nat.le_refl _, fun _ => id⟩
  · obtain ⟨hrun, hgone, hlists⟩ :=
      ht.drop s' hf hd hlive hkind hholder hlist hx hunused herase haliases
    exact ⟨hrun, useCount_eraseOp_le hd hleaf herase, fun j hj => hj.drop hrun hgone hlists⟩

theorem dropAll_spec (hw : f.WellFormed) {displaced : List ValueId} (ht : Threaded f s)
    (hdisplaced : ∀ i ∈ displaced, Displaced f s.routine o i)
    (h : displaced.forM Pass.dropIfDead s = .ok (u, s')) :
    Run f (.lists f o) s s' ∧ ∀ v, s'.routine.useCount v ≤ s.routine.useCount v := by
  induction displaced generalizing s with
  | nil =>
    cases h
    exact ⟨.refl, fun _ => Nat.le_refl _⟩
  | cons i rest ih =>
    obtain ⟨_, mid, hdrop, h⟩ := Pass.bind_eq_ok.mp h
    obtain ⟨hrun, huses, hkeep⟩ := dropIfDead_spec ht hw (hdisplaced i (by simp)) hdrop
    obtain ⟨hrun', huses'⟩ :=
      ih (ht.run hw hrun) (fun j hj => hkeep j (hdisplaced j (by simp [hj]))) h
    exact ⟨hrun.trans hrun', fun v => Nat.le_trans (huses' v) (huses v)⟩

/-! ## What goes in with the operands -/

section Transfer

variable {settings : Settings} {owned released released' : ValueSet}

/-- An owned indicator can go into a construct with an operand: nothing that is released already
aliases the operand, and nothing inside the construct or after it touches an alias. -/
structure Transferable (settings : Settings) (s : Session) (o : OpId) (owned released : ValueSet)
    (v i : ValueId) : Prop where
  mem : i ∈ owned
  allowed : settings.transfer = true
  same : s.aliases.same v i = true
  unreleased : ∀ u ∈ released, s.aliases.same v u = false
  last : s.routine.isLastUse s.aliases o v = .ok true

theorem Transferable.notMem (h : Transferable settings s o owned released v i) :
    i ∉ released := fun hi => by
  simpa [h.same] using h.unreleased i hi

theorem transferable?_eq_ok {i? : Option ValueId}
    (h : Pass.transferable? settings o owned released v s = .ok (i?, s')) :
    s = s' ∧ ∀ i, i? = some i → Transferable settings s o owned released v i := by
  unfold Pass.transferable? at h
  split at h
  · rename_i hsetting
    rw [Pass.aliases_bind_eq_ok] at h
    cases hfind : owned.toList.find? (s.aliases.same v) with
    | none =>
      simp only [hfind] at h
      cases h
      exact ⟨rfl, by simp⟩
    | some j =>
      simp only [hfind] at h
      split at h
      · cases h
        exact ⟨rfl, by simp⟩
      · rename_i hreleased
        obtain ⟨last, hlast, h⟩ := Pass.ask_bind_eq_ok.mp h
        split at h
        · rename_i htrue
          cases h
          refine ⟨rfl, fun i hi => ?_⟩
          cases hi
          exact {
            mem := List.mem_of_find?_eq_some hfind
            allowed := hsetting
            same := List.find?_some hfind
            unreleased := fun u hu => by
              by_contra hsame
              exact hreleased (List.any_eq_true.mpr ⟨u, hu, by simpa using hsame⟩)
            last := htrue ▸ hlast }
        · cases h
          exact ⟨rfl, by simp⟩
  · cases h
    exact ⟨rfl, by simp⟩

/-- A buffer operand gets an owned indicator, or a new one that owns nothing. -/
theorem transferOperands_cons {operands : List ValueId}
    (h : Pass.transferOperands settings o owned (v :: operands) released s =
      .ok ((indicators, released'), s')) :
    ∃ i others mid, indicators = i :: others ∧
      ((mid.routine = s.routine ∧ mid.aliases = s.aliases ∧
          Transferable settings s o owned released v i ∧
          Pass.transferOperands settings o owned operands (released.insert i) mid =
            .ok ((others, released'), s')) ∨
        (Pass.null (.before o) s = .ok (i, mid) ∧
          Pass.transferOperands settings o owned operands released mid =
            .ok ((others, released'), s'))) := by
  obtain ⟨i?, _, htransfer, h⟩ := Pass.bind_eq_ok.mp h
  obtain ⟨rfl, hi⟩ := transferable?_eq_ok htransfer
  cases i? with
  | some i =>
    obtain ⟨_, mid, hcount, h⟩ := Pass.bind_eq_ok.mp h
    obtain ⟨hroutine, haliases⟩ := Pass.count_eq_ok hcount
    obtain ⟨⟨others, final⟩, last, hothers, h⟩ := Pass.bind_eq_ok.mp h
    cases h
    exact ⟨i, others, mid, rfl, .inl ⟨hroutine, haliases, hi i rfl, hothers⟩⟩
  | none =>
    obtain ⟨i, mid, hnull, h⟩ := Pass.bind_eq_ok.mp h
    obtain ⟨⟨others, final⟩, last, hothers, h⟩ := Pass.bind_eq_ok.mp h
    cases h
    exact ⟨i, others, mid, rfl, .inr ⟨hnull, hothers⟩⟩

/-- Every buffer operand gets a token, an owned one or a new one that owns nothing. -/
theorem transferOperands_spec (hw : f.WellFormed) {operands : List ValueId}
    (ht : Threaded f s) (hlist : s.routine.opsOf b = front ++ o :: rest)
    (howned : ∀ i ∈ owned, Token f s.routine b front i)
    (h : Pass.transferOperands settings o owned operands released s =
      .ok ((indicators, released'), s')) :
    indicators.length = operands.length ∧ ∃ mid, Run f (.emission b) s s' ∧
      s'.routine.opsOf b = front ++ mid ++ o :: rest ∧
      ∀ i ∈ indicators, Token f s'.routine b (front ++ mid) i := by
  induction operands generalizing s front indicators released with
  | nil =>
    cases h
    exact ⟨rfl, [], .refl, by simpa using hlist, by simp⟩
  | cons v operands ih =>
    obtain ⟨i, others, mid, rfl,
      ⟨hroutine, haliases, hi, hothers⟩ | ⟨hnull, hothers⟩⟩ := transferOperands_cons h
    · -- an owned indicator is handed over as it is
      have hforgets : Forgets s mid :=
        ⟨hroutine, by rw [haliases]; exact List.Subset.refl _, by rw [haliases]⟩
      obtain ⟨hlen, nulls, hrun, hlist', htokens⟩ := ih (hforgets.threaded ht hw)
        (by rwa [hroutine]) (by rwa [hroutine]) hothers
      have hrun' : Run f (.emission b) s s' := hforgets.run.trans hrun
      refine ⟨by simp [hlen], nulls, hrun', hlist', fun j hj => ?_⟩
      rcases List.mem_cons.mp hj with rfl | hj
      · exact (howned j hi.mem).keep hrun'.keeps fun p hp => List.mem_append_left _ hp
      · exact htokens j hj
    · -- a null is put before the construct, so the rest starts from a longer front
      obtain ⟨rfl, haliases, x, hemit⟩ := Pass.null_eq_ok hnull
      obtain ⟨hrun₁, hlist₁, -⟩ := ht.emit hlist hemit haliases (.inr (.inl rfl)) (by simp)
        (by simp) (by simp)
      have htoken : Token f mid.routine b (front ++ [x]) ⟨s.routine.values.size⟩ :=
        ht.emit_token hlist hemit (by simp) (by simp) (by simp [mem_freshValues])
      have hlist₂ : mid.routine.opsOf b = (front ++ [x]) ++ o :: rest := by simp [hlist₁]
      obtain ⟨hlen, nulls, hrun₂, hlist', htokens⟩ := ih (ht.run hw hrun₁) hlist₂
        (fun j hj => (howned j hj).keep hrun₁.keeps fun p hp => List.mem_append_left _ hp) hothers
      refine ⟨by simp [hlen], x :: nulls, hrun₁.trans hrun₂, by simpa using hlist', fun j hj => ?_⟩
      rcases List.mem_cons.mp hj with rfl | hj
      · refine htoken.keep hrun₂.keeps fun p hp => ?_
        rcases List.mem_append.mp hp with hp | hp
        · exact List.mem_append_left _ hp
        · rw [List.mem_singleton.mp hp]
          simp
      · simpa using htokens j hj

end Transfer

/-! ## The new construct -/

/-- One operation of a block may be renamed. -/
def Footprint.renaming (o : OpId) (b : BlockId) : Footprint where
  ops p := p = o
  blocks c := c = b
  args _ := False

/-- Putting a new construct in the place of a treated one is a step, and adds tokens as results. -/
theorem Threaded.rebuild (ht : Threaded f s) (hw : f.WellFormed) (s' : Session)
    (hvisited : f.VisitedConstruct o) (hf : f.op? o ≠ none) (hd : s.routine.op? o = some d)
    (hlive : d.erased = false) (hlist : s.routine.opsOf b = front ++ o :: rest)
    (htokens : ∀ i ∈ indicators, Token f s.routine b front i)
    (hcount : indicators.length = s.routine.bufferCount d.operands)
    (h : rebuildConstruct o indicators s.routine = .ok (x, s'.routine))
    (haliases : s'.aliases = s.aliases) :
    Run f (.renaming o b) s s' ∧ (∃ δ, Embedding f s'.routine δ ∧ δ.op o = x) ∧
      s'.routine.opsOf b = front ++ x :: rest ∧ s'.routine.isErased o = true ∧
      ∀ i ∈ (s'.routine.resultsOf x).drop d.results.length,
        Token f s'.routine b (front ++ [x]) i := by
  have hl := ht.wellFormed.linked
  have hparent : d.parent = some b :=
    (parent?_of hd).symm.trans ((hl.op_listed o b).mp (by simp [hlist]))
  obtain ⟨rfl, pre, post, types, hreb⟩ :=
    rebuildConstruct_rebuilt hd hparent (hl.ops_nodup b) h
  obtain ⟨-, rfl, rfl⟩ := hl.place_unique hlist hreb.opsOf_old
  have hcons : d.kind.construct?.isSome = true := by
    have hcons := hvisited.2
    rwa [isConstruct, ← ht.kind? hf, kind?_of hd] at hcons
  have hlegal : Legal f (.renaming o b) s.routine s'.routine hreb.delta :=
    { change := hreb.change hl hcons hlive hcount
      sound := hreb.sound ht.wellFormed fun v hv =>
        ⟨⟨b, front, rest, hlist, (htokens v hv).visible⟩, (htokens v hv).typed⟩
      linked := hl.rebuildConstruct h
      later :=
        { lost := fun _ hp => by cases hp
          renamed := fun p hp => hreb.eq_of_renamed hp ▸ hf
          added := fun p v hv => by
            obtain rfl := hreb.eq_of_added (List.ne_nil_of_mem hv)
            exact (htokens v (by simpa [Rebuilt.delta] using hv)).later }
      ops := fun p hp => hp.elim hreb.eq_of_renamed hreb.eq_of_added
      blocks := fun c hc => (hreb.opsOf_eq c).trans (if_neg hc)
      args := fun c _ => hreb.argsOf_eq c
      renamed := fun p hp => hreb.eq_of_renamed hp ▸ hvisited
      added := fun p hp => .inl (hreb.eq_of_added hp ▸ hvisited)
      opened := fun c hc => absurd (hreb.argsOf_eq c) hc
      made := fun y hy hy' => by
        -- the construct itself is all that is made
        obtain rfl : y = s.routine.freshOp := by
          by_contra hne
          rw [hreb.op, if_neg hne, hy] at hy'
          by_cases hyo : y = o
          · rw [hyo, hd] at hy
            cases hy
          · simp [hyo] at hy'
        have hkind : s'.routine.kind? s.routine.freshOp = some d.kind := (kind?_of hreb.op?_fresh :)
        refine ⟨fun hnot => ?_, fun hown => ?_⟩
        · simp [isConstruct, hkind, hcons] at hnot
        · rw [Option.mem_unique hkind hown] at hcons
          cases hcons }
  obtain ⟨δ, hδ⟩ := ht.embedded
  have hrenamed : (δ.andThen hreb.delta).op o = s.routine.freshOp := by
    show hreb.delta.op (δ.op o) = _
    rw [hδ.op_eq_self (by rw [isErased_of hd, hlive])]
    simp [Rebuilt.delta]
  refine ⟨.single (.edit _ hlegal haliases), ⟨_, hδ.step hw hl hlegal, hrenamed⟩, hreb.opsOf_new,
    isErased_of hreb.op?_old, ?_⟩
  -- behind the results that the construct had come its indicators
  intro i hi
  have hres := resultsOf_of hreb.op?_fresh
  obtain ⟨extra, hextra, htyped, -⟩ := hreb.results_eq hl
  have hmem : i ∈ s'.routine.resultsOf s.routine.freshOp := List.mem_of_mem_drop hi
  rw [hres, hextra, List.drop_left' (by simp)] at hi
  refine ⟨htyped i hi, ?_, .inr ⟨_, by simp, hmem⟩⟩
  rw [hres] at hmem
  exact Nat.le_trans ht.size_values (mem_freshValues.mp hmem).1

/-! ## What leaves the classes alone -/

/-- Work on operations that are there: none is made, and nothing changes about the aliases. -/
structure Reworked (s s' : Session) : Prop where
  aliases : s'.aliases = s.aliases
  ops : ∀ x, s.routine.op? x = none → s'.routine.op? x = none

theorem Reworked.refl (s : Session) : Reworked s s := ⟨rfl, fun _ => id⟩

theorem Reworked.trans {s'' : Session} (h : Reworked s s') (h' : Reworked s' s'') :
    Reworked s s'' :=
  ⟨h'.aliases.trans h.aliases, fun x hx => h'.ops x (h.ops x hx)⟩

namespace Pass

theorem forM_reworked {step : β → Pass Unit}
    (hstep : ∀ a {s s' : Session} {u : Unit}, step a s = .ok (u, s') → Reworked s s') {l : List β}
    (h : l.forM step s = .ok (u, s')) : Reworked s s' := by
  induction l generalizing s with
  | nil =>
    obtain ⟨-, rfl⟩ := pure_eq_ok.mp h
    exact .refl s
  | cons a l ih =>
    obtain ⟨_, mid, hfirst, h⟩ := Pass.bind_eq_ok.mp h
    exact (hstep a hfirst).trans (ih h)

theorem sendAcquired_reworked (out : RegionOutcome)
    (h : sendAcquired out s = .ok (u, s')) : Reworked s s' := by
  obtain ⟨b?, -, h⟩ := Pass.ask_bind_eq_ok.mp h
  cases b? with
  | none =>
    cases h
    exact .refl s
  | some b =>
    obtain ⟨t?, -, h⟩ := Pass.ask_bind_eq_ok.mp h
    cases t? with
    | none =>
      cases h
      exact .refl s
    | some t =>
      obtain ⟨r', hedit, rfl⟩ := edit_eq_ok.mp h
      obtain ⟨d, hd, rfl⟩ := appendOperands_eq_ok (Edit.change_eq_ok.mp hedit)
      refine ⟨rfl, fun x hx => ?_⟩
      show (s.routine.modifyOp t _).op? x = none
      rw [op?_modifyOp]
      simp [hx]

theorem dropIfDead_reworked (i : ValueId) (h : dropIfDead i s = .ok (u, s')) : Reworked s s' := by
  rcases dropIfDead_eq_ok h with rfl | ⟨x, -, -, -, -, -, -, -, herase, haliases, -⟩
  · exact .refl s'
  · exact ⟨haliases, fun y => op?_eraseOp_of_none herase⟩

theorem transferOperands_aliases {settings : Settings} {owned released released' : ValueSet}
    {operands : List ValueId}
    (h : transferOperands settings o owned operands released s =
      .ok ((indicators, released'), s')) : s'.aliases = s.aliases := by
  induction operands generalizing s indicators released with
  | nil =>
    cases h
    rfl
  | cons v operands ih =>
    obtain ⟨i, others, mid, -, ⟨-, haliases, -, hothers⟩ | ⟨hnull, hothers⟩⟩ :=
      transferOperands_cons h
    · exact (ih hothers).trans haliases
    · exact (ih hothers).trans (null_eq_ok hnull).2.1

end Pass

/-! ## The whole construct -/

theorem Footprint.ofBlocks_within {bs : List BlockId} (hbs : ∀ c ∈ bs, f.holder? c = some o) :
    (Footprint.ofBlocks f bs).Within (.ofOps f b [o]) := by
  have hinside : ∀ c, (∃ b' ∈ bs, f.Under b' c) → ∃ q ∈ [o], f.InsideBlock q c := by
    rintro c ⟨b', hb', hc⟩
    exact ⟨o, by simp, insideBlock_iff.mpr ⟨b', hbs b' hb', hc⟩⟩
  refine ⟨?_, fun c hc => .inr (hinside c hc), hinside⟩
  rintro p ⟨b', hb', q, hq, hin⟩
  exact ⟨o, by simp, .head ((up?_of_parent? hq).trans (hbs b' hb')) hin⟩

theorem Footprint.inRegions_within (gs : List RegionId) :
    (Footprint.inRegions f gs).Within (.ofBlocks f (gs.flatMap f.blocksOf)) where
  ops := by
    rintro p ⟨g, hg, c, hc, hp⟩
    exact ⟨c, List.mem_flatMap.mpr ⟨g, hg, by simp [hc]⟩, p, hp, .refl⟩
  blocks _ hc := hc.elim
  args _ hc := hc.elim

theorem Footprint.lists_within (hl : f.Linked) (hd : f.op? o = some d) :
    (Footprint.lists f o).Within (.ofBlocks f (d.regions.flatMap f.blocksOf)) where
  ops _ hp := hp.elim
  blocks c hc := by
    obtain ⟨g, hg, hc⟩ := hl.holder?_iff.mp hc
    rw [regionsOf_of hd] at hg
    exact ⟨c, List.mem_flatMap.mpr ⟨g, hg, hc⟩, .inl rfl⟩
  args _ hc := hc.elim

theorem Footprint.renaming_within : (Footprint.renaming o b).Within (.ofOps f b [o]) where
  ops p hp := ⟨o, by simp, hp ▸ .refl⟩
  blocks _ hc := .inl hc
  args _ hc := hc.elim

/-- A step that succeeds can be taken off the front of a chain. -/
theorem Pass.bind_of_ok {α : Type} {x : Pass α} {k : α → Pass β} {a : α} (h : x s = .ok (a, s')) :
    (x >>= k) s = k a s' := by
  show (x s >>= fun p => k p.1 p.2) = k a s'
  rw [h]
  rfl

/-- What is done with a construct after the pass through its regions. -/
def Pass.finishConstruct (settings : Settings) (o : OpId) (owned : ValueSet)
    (site : ConstructSite) (outs : List RegionOutcome) : Pass Outcome := do
  let agreed ← reconcile site outs
  agreed.regions.forM sendAcquired
  agreed.displaced.forM dropIfDead
  let operands ← ask fun r => do r.buffers (← r.op o).operands
  let (indicators, released) ← transferOperands settings o owned operands agreed.released
  let resultCount := (← ask (·.op o)).results.length
  let new ← edit (rebuildConstruct o indicators)
  let pairs ← ask (·.constructAliases new resultCount agreed.regions)
  modifyAliases (·.unionAll pairs)
  return { released, acquired := (← ask (·.op new)).results.drop resultCount }

section Construct

variable {treat : OpPass} {settings : Settings} {kind : ConstructKind} {owned : ValueSet}
variable {out : Outcome} {site : ConstructSite}

/-- A construct is gone through region by region, and then finished. -/
theorem throughConstruct_eq {e : Op} (he : s.routine.op o = .ok e)
    (hmulti : s.routine.hasMultiBlockRegion e.regions = .ok false) :
    Pass.throughConstruct settings treat kind o owned s =
      (Pass.throughRegions settings treat ⟨o, e.kind.name⟩ kind e.regions >>=
        Pass.finishConstruct settings o owned ⟨o, e.kind.name⟩) s := by
  have hask : Pass.ask (·.op o) s = .ok (e, s) := Pass.ask_eq_ok.mpr ⟨he, rfl⟩
  have hask' : Pass.ask (·.hasMultiBlockRegion e.regions) s = .ok (false, s) :=
    Pass.ask_eq_ok.mpr ⟨hmulti, rfl⟩
  unfold Pass.throughConstruct
  rw [Pass.bind_of_ok hask, Pass.bind_of_ok hask']
  rfl

/-- The stages of finishing a construct. -/
structure ConstructPass (f : Routine) (settings : Settings) (o : OpId) (d : Op)
    (owned : ValueSet) (site : ConstructSite) (outs : List RegionOutcome) (s : Session)
    (b : BlockId) (front rest : List OpId) (out : Outcome) (s' : Session) where
  agreed : Reconciled
  reconciled : Session
  sent : Session
  inside : Session
  operands : List ValueId
  indicators : List ValueId
  transferred : Session
  nulls : List OpId
  entry : Op
  x : OpId
  rebuilt : Session
  reconciles : Pass.reconcile site outs s = .ok (agreed, reconciled)
  sends : agreed.regions.forM Pass.sendAcquired reconciled = .ok ((), sent)
  drops : agreed.displaced.forM Pass.dropIfDead sent = .ok ((), inside)
  operands_eq : operands = (inside.routine.operandsOf o).filter inside.routine.holdsBuffer
  transfers : Pass.transferOperands settings o owned operands agreed.released inside =
    .ok ((indicators, out.released), transferred)
  rebuilds : rebuildConstruct o indicators transferred.routine = .ok (x, rebuilt.routine)
  forgets : Forgets s reconciled
  agrees : Agreed f s o outs agreed
  run_sends : Run f (.inRegions f d.regions) reconciled sent
  run_drops : Run f (.lists f o) sent inside
  uses_drops : ∀ v, inside.routine.useCount v ≤ sent.routine.useCount v
  run_inside : Run f (.ofBlocks f (d.regions.flatMap f.blocksOf)) s inside
  sent_all : ∀ g ∈ d.regions, Sent f inside.routine g
  threaded : Threaded f inside
  list : inside.routine.opsOf b = front ++ o :: rest
  run_transfers : Run f (.emission b) inside transferred
  indicator_tokens : ∀ i ∈ indicators, Token f transferred.routine b (front ++ nulls) i
  threaded' : Threaded f transferred
  intact : Intact f transferred.routine o
  entry_eq : transferred.routine.op? o = some entry
  entry_live : entry.erased = false
  entry_kind : entry.kind = d.kind
  entry_results : entry.results = d.results
  entry_parent : entry.parent = some b
  run_rebuilds : Run f (.renaming o b) transferred rebuilt
  renamed : ∃ δ, Embedding f rebuilt.routine δ ∧ δ.op o = x
  list' : rebuilt.routine.opsOf b = front ++ nulls ++ x :: rest
  gone : rebuilt.routine.isErased o = true
  tokens : ∀ i ∈ (rebuilt.routine.resultsOf x).drop d.results.length,
    Token f rebuilt.routine b (front ++ nulls ++ [x]) i
  acquired : out.acquired = (rebuilt.routine.resultsOf x).drop d.results.length
  aliases : transferred.aliases = reconciled.aliases
  joins : ∃ pairs, rebuilt.routine.constructAliases x d.results.length agreed.regions = .ok pairs ∧
    s'.aliases = transferred.aliases.unionAll pairs
  run_aliases : ∀ F, Run f F rebuilt s'
  routine : s'.routine = rebuilt.routine
  tally : s'.tally = transferred.tally
  operand_count : operands.length = f.bufferCount d.operands

theorem ConstructPass.exists_rebuilt
    (pass : ConstructPass f settings o d owned site outs s b front rest out s') :
    pass.x = pass.transferred.routine.freshOp ∧ ∃ pre post types,
      Rebuilt pass.transferred.routine pass.rebuilt.routine o pass.entry b pre post pass.indicators
        types :=
  rebuildConstruct_rebuilt pass.entry_eq pass.entry_parent
    (pass.threaded'.wellFormed.linked.ops_nodup b) pass.rebuilds

/-- The indicators that go in are later than the construct's results, so they keep their names. -/
theorem ConstructPass.map_renewed
    (pass : ConstructPass f settings o d owned site outs s b front rest out s') (hw : f.WellFormed)
    (hd : f.op? o = some d) (types : List Ty) :
    pass.indicators.map (pass.transferred.routine.renewed pass.entry.results types) =
      pass.indicators := by
  refine List.map_congr_left (fun i hi => Rebuilt.renewed_of_notMem fun hmem => ?_) |>.trans
    (List.map_id _)
  rw [pass.entry_results, ← resultsOf_of hd] at hmem
  have := hw.linked.result_known hmem
  have := (pass.indicator_tokens i hi).later
  omega

variable (hw : f.WellFormed) (hvisited : f.Visited o)
variable (hd : f.op? o = some d) (hcons : d.kind.construct?.isSome = true)
include hw hvisited hd hcons

omit hvisited hcons in
/-- A block of a construct is directly inside it. -/
theorem holder?_of_mem_regions (c : BlockId) (hc : c ∈ d.regions.flatMap f.blocksOf) :
    f.holder? c = some o := by
  obtain ⟨g, hg, hc⟩ := List.mem_flatMap.mp hc
  exact hw.linked.holder?_iff.mpr ⟨g, by rwa [regionsOf_of hd], hc⟩

/-- What is done before the operands are handed over stays in the blocks of the construct. -/
theorem finishRegions_stages {agreed : Reconciled} {s₂ s₃ s₄ : Session} (ht : Threaded f s)
    (houts : outs.map (·.region) = d.regions)
    (hready : ∀ out ∈ outs, Ready f s.routine out.region out.outcome.acquired)
    (hreconcile : Pass.reconcile site outs s = .ok (agreed, s₂))
    (hsends : agreed.regions.forM Pass.sendAcquired s₂ = .ok ((), s₃))
    (hdrops : agreed.displaced.forM Pass.dropIfDead s₃ = .ok ((), s₄)) :
    Forgets s s₂ ∧ Agreed f s o outs agreed ∧ Run f (.inRegions f d.regions) s₂ s₃ ∧
      Run f (.lists f o) s₃ s₄ ∧ (∀ v, s₄.routine.useCount v ≤ s₃.routine.useCount v) ∧
      (∀ g ∈ d.regions, Sent f s₄.routine g) ∧ Threaded f s₄ ∧
      Run f (.ofBlocks f (d.regions.flatMap f.blocksOf)) s s₄ := by
  have hreached := hvisited.reached hw.linked
  have hconstruct : f.VisitedConstruct o := ⟨hvisited, by simp [isConstruct_of hd, hcons]⟩
  have hholder : ∀ g ∈ d.regions, ∀ c ∈ f.blocksOf g, f.holder? c = some o := fun g hg c hc =>
    holder?_of_mem_regions hw hd c (List.mem_flatMap.mpr ⟨g, hg, hc⟩)
  have hopened : ∀ g ∈ d.regions, ∀ c, f.blocksOf g = [c] → f.Opened c ∧ f.holder? c = some o :=
    fun g hg c hc => ⟨⟨o, hconstruct, enters_of_construct hd hcons hg hc⟩,
      hholder g hg c (by simp [hc])⟩
  have hnodup : d.regions.Nodup := by
    rw [← regionsOf_of hd]
    exact hw.linked.regions_nodup o
  obtain ⟨hforgets, hagreed⟩ := reconcile_spec ht hw hreached
    (fun out hout => hholder _ (houts ▸ List.mem_map_of_mem hout)) hready hreconcile
  have ht₂ := hforgets.threaded ht hw
  have hregions₂ : agreed.regions.map (·.region) = d.regions := hagreed.regions.trans houts
  obtain ⟨hrun₃, hsent⟩ := sendAll_spec hw hreached ht₂ (by rwa [hregions₂])
    (fun out hout => hopened _ (hregions₂ ▸ List.mem_map_of_mem hout))
    (by simpa only [hforgets.routine] using hagreed.ready) hsends
  have ht₃ := ht₂.run hw hrun₃
  -- sending extends terminators only, so what was displaced still is
  have hdisplaced : ∀ i ∈ agreed.displaced, Displaced f s₃.routine o i := fun i hi => by
    have hi := hagreed.displaced i hi
    rw [← hforgets.routine] at hi
    exact hi.keep hrun₃.keeps fun c _ => hrun₃.opsOf id
  obtain ⟨hrun₄, huses₄⟩ := dropAll_spec hw ht₃ hdisplaced hdrops
  have hsent₄ : ∀ g ∈ d.regions, Sent f s₄.routine g := by
    intro g hg
    rw [← hregions₂] at hg
    obtain ⟨out, hout, rfl⟩ := List.mem_map.mp hg
    exact (hsent out hout).run hrun₄ ht₃ hw.linked (fun _ _ _ _ _ _ => id) fun _ _ _ _ => id
  rw [hregions₂] at hrun₃
  exact ⟨hforgets, hagreed, hrun₃, hrun₄, huses₄, hsent₄, ht₃.run hw hrun₄,
    (hforgets.run.trans (hrun₃.mono (Footprint.inRegions_within _))).trans
      (hrun₄.mono (Footprint.lists_within hw.linked hd))⟩

theorem finishConstruct_stages (ht : Threaded f s) (hparent : f.parent? o = some b)
    (hlist : s.routine.opsOf b = front ++ o :: rest) (hintact : Intact f s.routine o)
    (howned : ∀ i ∈ owned, Token f s.routine b front i) (houts : outs.map (·.region) = d.regions)
    (hready : ∀ out ∈ outs, Ready f s.routine out.region out.outcome.acquired)
    (h : Pass.finishConstruct settings o owned site outs s = .ok (out, s')) :
    Nonempty (ConstructPass f settings o d owned site outs s b front rest out s') := by
  have hfo : f.op? o ≠ none := by simp [hd]
  have hconstruct : f.VisitedConstruct o := ⟨hvisited, by simp [isConstruct_of hd, hcons]⟩
  -- inside
  obtain ⟨agreed, s₂, hreconcile, h⟩ := Pass.bind_eq_ok.mp h
  obtain ⟨_, s₃, hsends, h⟩ := Pass.bind_eq_ok.mp h
  obtain ⟨_, s₄, hdrops, h⟩ := Pass.bind_eq_ok.mp h
  obtain ⟨hforgets, hagreed, hrun₃, hrun₄, huses₄, hsent₄, ht₄, hrun₂₄⟩ :=
    finishRegions_stages hw hvisited hd hcons ht houts hready hreconcile hsends hdrops
  -- the construct itself is not among the terminators of its blocks, nor is its block inside it
  have hblocks := holder?_of_mem_regions hw hd
  have hintact₄ := hrun₂₄.intact_holder ht hw hvisited hfo hblocks hintact
  have hlist₄ := (hrun₂₄.opsOf_parent hw hvisited hparent hblocks).trans hlist
  -- outside: the indicators are made before the construct, and it is rebuilt with them
  obtain ⟨operands, hoperands, h⟩ := Pass.ask_bind_eq_ok.mp h
  obtain ⟨d₄, hd₄, hbuffers⟩ := bind_eq_ok.mp hoperands
  obtain ⟨τ₄, hentry₄, -, hcount₄⟩ := ht₄.intact_entry hw hd hintact₄
  obtain rfl := Option.mem_unique (op_eq_ok.mp hd₄) hentry₄
  have hbuffers := buffers_eq_ok hbuffers
  obtain ⟨⟨indicators, released⟩, s₅, htransfer, h⟩ := Pass.bind_eq_ok.mp h
  obtain ⟨hlen, nulls, hrun₅, hlist₅, htokens₅⟩ := transferOperands_spec hw ht₄ hlist₄
    (fun i hi => (howned i hi).keep hrun₂₄.keeps fun _ => id) htransfer
  have ht₅ := ht₄.run hw hrun₅
  have hintact₅ := hintact₄.run hrun₅ ht₄ hfo id
  obtain ⟨τ₅, hentry₅, hlive₅, hcount₅⟩ := ht₅.intact_entry hw hd hintact₅
  obtain ⟨d₅, hd₅, h⟩ := Pass.ask_bind_eq_ok.mp h
  obtain rfl := Option.mem_unique (op_eq_ok.mp hd₅) hentry₅
  obtain ⟨x, s₆, hedit, h⟩ := Pass.bind_eq_ok.mp h
  obtain ⟨r₆, hbuild, rfl⟩ := Pass.edit_eq_ok.mp hedit
  have hindicators : indicators.length = s₅.routine.bufferCount (d.operands.map τ₅) := by
    rw [hcount₅, ← hcount₄, hlen, hbuffers, bufferCount, List.countP_eq_length_filter]
  obtain ⟨hrun₆, hrenamed, hlist₆, hgone, htokens₆⟩ :=
    ht₅.rebuild hw { s₅ with routine := r₆ } hconstruct hfo hentry₅ hlive₅ hlist₅ htokens₅
      hindicators hbuild rfl
  -- the aliases
  obtain ⟨pairs, hpairs, h⟩ := Pass.ask_bind_eq_ok.mp h
  obtain ⟨_, s₇, hunion, h⟩ := Pass.bind_eq_ok.mp h
  obtain ⟨hroutine, haliases⟩ := Pass.modifyAliases_eq_ok hunion
  obtain ⟨d₇, hd₇, h⟩ := Pass.ask_bind_eq_ok.mp h
  cases h
  rw [hroutine] at hd₇
  exact ⟨{
    agreed, operands, indicators, nulls, x
    reconciled := s₂
    sent := s₃
    inside := s₄
    transferred := s₅
    entry := _
    rebuilt := _
    reconciles := hreconcile
    sends := hsends
    drops := hdrops
    operands_eq := by rw [hbuffers, operandsOf_of hentry₄]
    transfers := htransfer
    rebuilds := hbuild
    forgets := hforgets
    agrees := hagreed
    run_sends := hrun₃
    run_drops := hrun₄
    uses_drops := huses₄
    run_inside := hrun₂₄
    sent_all := hsent₄
    threaded := ht₄
    list := hlist₄
    run_transfers := hrun₅
    indicator_tokens := htokens₅
    threaded' := ht₅
    intact := hintact₅
    entry_eq := hentry₅
    entry_live := hlive₅
    entry_kind := rfl
    entry_results := rfl
    entry_parent := (parent?_of hentry₅).symm.trans
      ((ht₅.wellFormed.linked.op_listed o b).mp (by simp [hlist₅]))
    run_rebuilds := hrun₆
    renamed := hrenamed
    list' := hlist₆
    gone := hgone
    tokens := htokens₆
    acquired := by rw [← resultsOf_of (op_eq_ok.mp hd₇)]
    aliases := ((Pass.transferOperands_aliases htransfer).trans
      (Pass.forM_reworked (fun i => Pass.dropIfDead_reworked i) hdrops).aliases).trans
      (Pass.forM_reworked (fun out => Pass.sendAcquired_reworked out) hsends).aliases
    joins := ⟨pairs, hpairs, haliases⟩
    run_aliases := fun _ => Run.unionAll hroutine haliases
    routine := hroutine
    tally := (Pass.modifyAliases_tally hunion :)
    operand_count := by
      rw [← hcount₄, hbuffers, bufferCount, List.countP_eq_length_filter] }⟩

omit hvisited hcons in
/-- A construct that is gone through has regions of at most one block. -/
theorem throughConstruct_split (ht : Threaded f s) (hintact : Intact f s.routine o)
    (h : Pass.throughConstruct settings treat kind o owned s = .ok (out, s')) :
    (∀ treat', Pass.throughConstruct settings treat' kind o owned s =
        (Pass.throughRegions settings treat' ⟨o, d.kind.name⟩ kind d.regions >>=
          Pass.finishConstruct settings o owned ⟨o, d.kind.name⟩) s) ∧
      ∀ g ∈ d.regions, (f.blocksOf g).length ≤ 1 := by
  obtain ⟨τ, hentry, -, -⟩ := ht.intact_entry hw hd hintact
  have hop : s.routine.op o = .ok { d with operands := d.operands.map τ } := op_eq_ok.mpr hentry
  have hask : Pass.ask (·.op o) s = .ok ({ d with operands := d.operands.map τ }, s) :=
    Pass.ask_eq_ok.mpr ⟨hop, rfl⟩
  have h' := h
  unfold Pass.throughConstruct at h'
  rw [Pass.bind_of_ok hask] at h'
  obtain ⟨multi, hmulti, h'⟩ := Pass.ask_bind_eq_ok.mp h'
  cases multi with
  | true => exact absurd h' (Pass.reject_ne_ok (s := s))
  | false =>
    refine ⟨fun treat' => ?_,
      fun g hg => ht.blocksOf g ▸ hasMultiBlockRegion_eq_false hmulti g hg⟩
    exact (throughConstruct_eq hop hmulti :)

/-- A construct is gone through in two parts, of which only the first depends on the treatment of
the operations inside: its regions, and then the construct itself. -/
structure ConstructWalk (f : Routine) (settings : Settings) (treat : OpPass) (kind : ConstructKind)
    (o : OpId) (d : Op) (owned : ValueSet) (b : BlockId) (front rest : List OpId) (s : Session)
    (out : Outcome) (s' : Session) where
  site : ConstructSite
  site_eq : site = ⟨o, d.kind.name⟩
  outs : List RegionOutcome
  mid : Session
  splits : ∀ treat', Pass.throughConstruct settings treat' kind o owned s =
    (Pass.throughRegions settings treat' site kind d.regions >>=
      Pass.finishConstruct settings o owned site) s
  single : ∀ g ∈ d.regions, (f.blocksOf g).length ≤ 1
  holder : ∀ c ∈ d.regions.flatMap f.blocksOf, f.holder? c = some o
  atBlocks : AtBlocks f s o (d.regions.flatMap f.blocksOf)
  regions : Pass.throughRegions settings treat site kind d.regions s = .ok (outs, mid)
  finishes : Pass.finishConstruct settings o owned site outs mid = .ok (out, s')
  run : Run f (.ofBlocks f (d.regions.flatMap f.blocksOf)) s mid
  ready : ∀ out ∈ outs, Ready f mid.routine out.region out.outcome.acquired
  pass : ConstructPass f settings o d owned site outs mid b front rest out s'

variable (htreat : OpSpec f treat)
include htreat

omit hvisited in
theorem throughConstruct_stages (hat : AtOp f s o owned b front rest)
    (h : Pass.throughConstruct settings treat kind o owned s = .ok (out, s')) :
    Nonempty (ConstructWalk f settings treat kind o d owned b front rest s out s') := by
  have ⟨ht, hvisited, hparent, hlist, _, hun, howned⟩ := hat
  obtain ⟨hsplit, hsingle⟩ := throughConstruct_split hw hd ht (hun.ops o .refl) h
  rw [hsplit] at h
  obtain ⟨outs, mid, hregions, h⟩ := Pass.bind_eq_ok.mp h
  have henters := enters_of_singleBlocks hd hcons hsingle
  have hholder : ∀ c ∈ d.regions.flatMap f.blocksOf, f.holder? c = some o :=
    fun c hc => (henters c hc).holder? hw.linked
  have hblocks := hat.atBlocks hw hd henters
  obtain ⟨hrun, houts, hready⟩ := throughRegions_spec htreat hw hd hcons hblocks hsingle hregions
  -- the regions are inside the construct, so it still stands in its place as it was
  obtain ⟨pass⟩ := finishConstruct_stages hw hvisited hd hcons (ht.run hw hrun) hparent
    ((hrun.opsOf_parent hw hvisited hparent hholder).trans hlist)
    (hrun.intact_holder ht hw hvisited (by simp [hd]) hholder (hun.ops o .refl))
    (fun i hi => (howned i hi).keep hrun.keeps fun _ => id) houts hready h
  exact ⟨⟨_, rfl, outs, mid, hsplit, hsingle, hholder, hblocks, hregions, h, hrun, hready, pass⟩⟩

omit hvisited in
theorem throughConstruct_spec (hat : AtOp f s o owned b front rest)
    (h : Pass.throughConstruct settings treat kind o owned s = .ok (out, s')) :
    ∃ mid, Run f (.ofOps f b [o]) s s' ∧ s'.routine.opsOf b = front ++ mid ++ rest ∧
      (∀ i ∈ out.acquired, Token f s'.routine b (front ++ mid) i) ∧ Done f s'.routine o := by
  have hreached := hat.visited.reached hw.linked
  obtain ⟨walk⟩ := throughConstruct_stages hw hd hcons htreat hat h
  have hholder := walk.holder
  have pass := walk.pass
  have hinside : Run f (.ofBlocks f (d.regions.flatMap f.blocksOf)) s pass.inside :=
    walk.run.trans pass.run_inside
  have hrun : Run f (.ofOps f b [o]) s s' :=
    (((hinside.mono (Footprint.ofBlocks_within hholder)).trans
      (pass.run_transfers.mono (Footprint.emission_within _))).trans
      (pass.run_rebuilds.mono Footprint.renaming_within)).trans (pass.run_aliases _)
  -- the operation that is replaced is not among the terminators of its own blocks
  have hsent : ∀ g ∈ d.regions, Sent f s'.routine g := by
    intro g hg
    rw [pass.routine]
    refine ((pass.sent_all g hg).run pass.run_transfers pass.threaded hw.linked
      (fun _ _ _ _ _ _ => id) fun _ _ _ _ => id).run pass.run_rebuilds pass.threaded' hw.linked
      (fun c hc q hq p hin hp => ?_) fun _ _ _ _ => id
    have hup := (up?_of_parent? hq).trans
      (hholder c (List.mem_flatMap.mpr ⟨g, hg, by simp [hc]⟩))
    exact (hreached.step hup).not_inside_up hw.root_unlinked hup (hp ▸ hin)
  refine ⟨pass.nulls ++ [pass.x], hrun, by simp [pass.routine, pass.list'], ?_, ?_⟩
  · intro i hi
    rw [pass.acquired] at hi
    simpa [pass.routine] using pass.tokens i hi
  · refine .intro (fun _ => ⟨pass.routine ▸ pass.gone, fun c hc => ?_⟩)
      fun c body t hc hlist q hq => ?_
    all_goals obtain ⟨g, hg, hc⟩ := exists_region_of_enters hd hcons hc
    · exact (hsent g hg c hc).1
    · exact (hsent g hg c hc).2 body t hlist q hq

end Construct

end BufferOwnership
