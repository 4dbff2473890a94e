import BufferOwnership.Proofs.Tokens

/-!
# Threading through a block

`OpSpec` says what treating one operation does, wherever it stands. From that the pass through a
list of operations follows by induction on the list, and the pass through a whole block by what its
beginning and its end do. Each operation leaves those after it untouched, and what has been treated
stays as it is: `Done` says that all constructs in it have been rebuilt.
-/

namespace BufferOwnership

open Routine

variable {f r r' : Routine} {F : Footprint} {s s' : Session} {b c : BlockId} {o p q t : OpId}
variable {front front' body : List OpId} {i v : ValueId} {d : Op}
variable {owned : ValueSet} {out : Outcome} {ownsInputs : Bool} {treat : OpPass}

/-! ## Operations that have not been treated -/

/-- An operation of the original routine that is not erased and has got no operands. -/
structure Intact (f r : Routine) (p : OpId) : Prop where
  live : r.isErased p = false
  operands : (r.operandsOf p).length = (f.operandsOf p).length

/-- An operation, and all that is inside it, is as it was. -/
structure Untouched (f r : Routine) (o : OpId) : Prop where
  ops : ∀ p, f.Inside o p → Intact f r p
  lists : ∀ c, f.InsideBlock o c → r.opsOf c = f.opsOf c
  args : ∀ c, f.InsideBlock o c → r.argsOf c = f.argsOf c

theorem Threaded.op? (ht : Threaded f s) (hp : f.op? p ≠ none) : s.routine.op? p ≠ none := by
  obtain ⟨δ, hδ⟩ := ht.embedded
  exact hδ.change.keeps.op?_ne_none hp

/-- An intact operation has its old entry, but for the names of its operands. -/
theorem Embedding.intact_entry {δ : Delta} (hδ : Embedding f r δ) (hd : f.op? p = some d)
    (hp : Intact f r p) :
    r.op? p = some { d with operands := d.operands.map δ.value } ∧ d.erased = false := by
  have hop := hδ.op_eq_self hp.live
  have hlive : f.isErased p = false := hδ.change.live_of_kept hp.live
  obtain ⟨e, he, hgrown⟩ := hδ.change.image_of_live hd hlive (hδ.lossless p)
  rw [hop] at he
  have hadded : δ.added p = [] := by
    have hlen := hp.operands
    rw [operandsOf_of he, operandsOf_of hd, hgrown.operands, List.length_map,
      List.length_append] at hlen
    exact List.eq_nil_of_length_eq_zero (by omega)
  rw [isErased_of hd] at hlive
  exact ⟨hδ.change.entry_kept hd hlive (hδ.lossless p) hop hadded, hlive⟩

theorem Threaded.intact_entry (ht : Threaded f s) (hw : f.WellFormed) (hd : f.op? p = some d)
    (hp : Intact f s.routine p) :
    ∃ τ, s.routine.op? p = some { d with operands := d.operands.map τ } ∧ d.erased = false ∧
      s.routine.bufferCount (d.operands.map τ) = f.bufferCount d.operands := by
  obtain ⟨δ, hδ⟩ := ht.embedded
  obtain ⟨hentry, hlive⟩ := hδ.intact_entry hd hp
  refine ⟨δ.value, hentry, hlive, ?_⟩
  exact hδ.change.bufferCount_map fun v hv => hw.known p v (by rwa [operandsOf_of hd])

theorem Untouched.run (h : Untouched f s.routine o) (hrun : Run f F s s') (ht : Threaded f s)
    (hw : f.WellFormed) (hreached : f.Reached o) (hops : ∀ p, f.Inside o p → ¬ F.ops p)
    (hblocks : ∀ c, f.InsideBlock o c → ¬ F.blocks c ∧ ¬ F.args c) :
    Untouched f s'.routine o where
  ops p hp := by
    have hf := hw.op?_of_reached (hreached.inside hp)
    obtain ⟨hlive, hlen⟩ := hrun.operands_length hf (ht.op? hf) (h.ops p hp).live (hops p hp)
    exact ⟨hlive, hlen.trans (h.ops p hp).operands⟩
  lists c hc := (hrun.opsOf (hblocks c hc).1).trans (h.lists c hc)
  args c hc := (hrun.argsOf (hblocks c hc).2).trans (h.args c hc)

theorem Untouched.inside (h : Untouched f r o) (hin : f.Inside o p) : Untouched f r p where
  ops q hq := h.ops q (hin.trans hq)
  lists c hc := by
    obtain ⟨q, hq, hholder⟩ := hc
    exact h.lists c ⟨q, hin.trans hq, hholder⟩
  args c hc := by
    obtain ⟨q, hq, hholder⟩ := hc
    exact h.args c ⟨q, hin.trans hq, hholder⟩

/-! ## Operations that have been treated -/

/-- A block of a construct after the construct has been treated. -/
structure Sealed (f r : Routine) (c : BlockId) : Prop where
  args : (r.argsOf c).length = (f.argsOf c).length + f.bufferCount (f.argsOf c)
  operands : ∀ body t, f.opsOf c = body ++ [t] → r.isErased t = false ∧
    (r.operandsOf t).length = (f.operandsOf t).length + f.bufferCount (f.operandsOf t)

/-- All constructs that are treated along with an operation have been rebuilt. -/
def Done (f r : Routine) (o : OpId) : Prop :=
  ∀ p, f.VisitedFrom o p → f.isConstruct p = true →
    r.isErased p = true ∧ ∀ c, f.Enters p c → Sealed f r c

/-- An operation is done once it has been rebuilt itself and everything in its blocks is done. -/
theorem Done.intro
    (hself : f.isConstruct o = true →
      r.isErased o = true ∧ ∀ c, f.Enters o c → Sealed f r c)
    (hblocks : ∀ b body t, f.Enters o b → f.opsOf b = body ++ [t] → ∀ q ∈ body, Done f r q) :
    Done f r o := by
  intro p hp hcons
  rcases hp.cases_head with rfl | ⟨q, ⟨b, body, t, henters, hlist, hq⟩, hp⟩
  · exact hself hcons
  · exact hblocks b body t henters hlist q hq p hp hcons

theorem Sealed.run (h : Sealed f s.routine c) (hrun : Run f F s s') (ht : Threaded f s)
    (hl : f.Linked) (hargs : ¬ F.args c) (hops : ∀ t, f.parent? t = some c → ¬ F.ops t) :
    Sealed f s'.routine c where
  args := by rw [hrun.argsOf hargs, h.args]
  operands body t hlist := by
    have hmem : t ∈ f.opsOf c := by simp [hlist]
    have hf := hl.op?_of_listed hmem
    obtain ⟨hlive, hcount⟩ := h.operands body t hlist
    obtain ⟨hlive', hlen⟩ := hrun.operands_length hf (ht.op? hf) hlive
      (hops t ((hl.op_listed t c).mp hmem))
    exact ⟨hlive', hlen.trans hcount⟩

/-- What is done stays done, as long as nothing inside is changed. -/
theorem Done.run (h : Done f s.routine o) (hrun : Run f F s s') (ht : Threaded f s)
    (hl : f.Linked) (hops : ∀ p, f.Inside o p → ¬ F.ops p)
    (hargs : ∀ c, f.InsideBlock o c → ¬ F.args c) : Done f s'.routine o := by
  intro p hp hcons
  obtain ⟨herased, hsealed⟩ := h p hp hcons
  have hin := hp.inside hl
  refine ⟨hrun.keeps.isErased herased, fun c hc => ?_⟩
  have hholder := hc.holder? hl
  refine (hsealed c hc).run hrun ht hl (hargs c ⟨p, hin, hholder⟩) fun t ht => hops t ?_
  exact hin.step ((up?_of_parent? ht).trans hholder)

/-! ## Footprints -/

/-- What treating some operations of a block may change. -/
def Footprint.ofOps (f : Routine) (b : BlockId) (l : List OpId) : Footprint where
  ops p := ∃ q ∈ l, f.Inside q p
  blocks c := c = b ∨ ∃ q ∈ l, f.InsideBlock q c
  args c := ∃ q ∈ l, f.InsideBlock q c

/-- What the pass through a block may change. -/
def Footprint.ofBlock (f : Routine) (b : BlockId) : Footprint where
  ops p := ∃ q, f.parent? q = some b ∧ f.Inside q p
  blocks c := f.Under b c
  args c := f.Under b c

/-- The arguments of one block may change. -/
def Footprint.arguments (b : BlockId) : Footprint where
  ops _ := False
  blocks _ := False
  args c := c = b

theorem Footprint.emission_within (l : List OpId) :
    (Footprint.emission b).Within (.ofOps f b l) where
  ops _ hp := hp.elim
  blocks _ hc := .inl hc
  args _ hc := hc.elim

theorem Footprint.ofOps_mono {l l' : List OpId} (h : ∀ q ∈ l, q ∈ l') :
    (Footprint.ofOps f b l).Within (.ofOps f b l') where
  ops _ := fun ⟨q, hq, hin⟩ => ⟨q, h q hq, hin⟩
  blocks _ hc := hc.imp_right fun ⟨q, hq, hin⟩ => ⟨q, h q hq, hin⟩
  args _ := fun ⟨q, hq, hin⟩ => ⟨q, h q hq, hin⟩

theorem Footprint.ofOps_within_ofBlock {l : List OpId} (hl : ∀ q ∈ l, f.parent? q = some b) :
    (Footprint.ofOps f b l).Within (.ofBlock f b) where
  ops _ := fun ⟨q, hq, hin⟩ => ⟨q, hl q hq, hin⟩
  blocks _ hc := hc.imp_right fun ⟨q, hq, hin⟩ => ⟨q, hl q hq, hin⟩
  args _ := fun ⟨q, hq, hin⟩ => .inr ⟨q, hl q hq, hin⟩

theorem Footprint.arguments_within : (Footprint.arguments b).Within (.ofBlock f b) where
  ops _ hp := hp.elim
  blocks _ hc := hc.elim
  args _ hc := .inl hc

/-! ## Treating operations in order -/

/-- An operation is about to be treated. It stands in a block, after the operations `front` and
before others, has not been touched, and what the block owns at that point are tokens. -/
structure AtOp (f : Routine) (s : Session) (o : OpId) (owned : ValueSet) (b : BlockId)
    (front rest : List OpId) : Prop where
  threaded : Threaded f s
  visited : f.Visited o
  parent : f.parent? o = some b
  list : s.routine.opsOf b = front ++ o :: rest
  rest_ne : rest ≠ []
  untouched : Untouched f s.routine o
  owned : ∀ i ∈ owned, Token f s.routine b front i

/-- An operation that is to be treated has its old entry, but for a renaming of its operands. -/
theorem AtOp.entry {rest : List OpId} (hat : AtOp f s o owned b front rest) (hw : f.WellFormed)
    (hd : f.op? o = some d) :
    ∃ τ, s.routine.op? o = some { d with operands := d.operands.map τ } := by
  obtain ⟨τ, hentry, -⟩ := hat.threaded.intact_entry hw hd (hat.untouched.ops o .refl)
  exact ⟨τ, hentry⟩

/-- What an operation allocates is among its results still when it is to be treated. -/
theorem AtOp.allocated_results {rest : List OpId} (hat : AtOp f s o owned b front rest)
    (hw : f.WellFormed) (hd : f.op? o = some d) :
    ∀ v ∈ d.allocated, v ∈ s.routine.resultsOf o := by
  obtain ⟨τ, hentry⟩ := hat.entry hw hd
  intro v hv
  rw [resultsOf_of hentry]
  show v ∈ d.results
  exact Op.mem_results_of_mem_allocated hv

/-- What is known of the treatment of an operation: it changes nothing but the operation and its
inside, puts what it leaves behind in the operation's place, and acquires tokens. -/
def OpSpec (f : Routine) (treat : OpPass) : Prop :=
  ∀ {o : OpId} {owned : ValueSet} {s s' : Session} {out : Outcome} {b : BlockId}
    {front rest : List OpId}, AtOp f s o owned b front rest → treat o owned s = .ok (out, s') →
    ∃ mid, Run f (.ofOps f b [o]) s s' ∧ s'.routine.opsOf b = front ++ mid ++ rest ∧
      (∀ i ∈ out.acquired, Token f s'.routine b (front ++ mid) i) ∧ Done f s'.routine o

namespace Holdings

variable {aliases : AliasClasses} {h : Holdings}

theorem mem_owned_release (hi : i ∈ (h.release aliases v).owned) : i ∈ h.owned := by
  unfold release at hi
  split at hi
  · exact (ValueSet.mem_erase.mp hi).1
  · exact hi

theorem mem_owned_foldl {l : List ValueId} (hi : i ∈ (l.foldl (release aliases) h).owned) :
    i ∈ h.owned := by
  induction l generalizing h with
  | nil => exact hi
  | cons v l ih => exact mem_owned_release (ih hi)

/-- What is owned after an operation was owned before it or is acquired by it. -/
theorem mem_owned_absorb (hi : i ∈ (h.absorb aliases out).owned) : i ∈ h.owned ∨ i ∈ out.acquired :=
  (ValueSet.mem_insertMany.mp hi).imp_left mem_owned_foldl

end Holdings

/-- Two operations of one block have nothing in common. -/
theorem Footprint.ofOps_disjoint (hw : f.WellFormed) {l : List OpId} (ho : f.Reached o)
    (hparent : f.parent? o = some b) (hl : ∀ q ∈ l, f.Reached q ∧ f.parent? q = some b)
    (hout : o ∉ l) :
    (∀ p, f.Inside o p → ¬ (Footprint.ofOps f b l).ops p) ∧
      ∀ c, f.InsideBlock o c →
        ¬ (Footprint.ofOps f b l).blocks c ∧ ¬ (Footprint.ofOps f b l).args c := by
  have hsibling : ∀ q ∈ l, f.up? o = f.up? q ∧ o ≠ q := by
    intro q hq
    refine ⟨?_, fun he => hout (he ▸ hq)⟩
    rw [up?_of_parent? hparent, up?_of_parent? (hl q hq).2]
  have hblock : ∀ c, f.InsideBlock o c → ¬ (Footprint.ofOps f b l).args c := by
    rintro c hc ⟨q, hq, hin⟩
    exact hc.disjoint hw.root_unlinked ho (hl q hq).1 (hsibling q hq).1 (hsibling q hq).2 hin
  refine ⟨?_, fun c hc => ⟨?_, hblock c hc⟩⟩
  · rintro p hp ⟨q, hq, hin⟩
    exact hp.disjoint hw.root_unlinked ho (hl q hq).1 (hsibling q hq).1 (hsibling q hq).2 hin
  · rintro (rfl | hin)
    · exact InsideBlock.not_parent hw.root_unlinked ho hparent hc
    · exact hblock c hc hin

/-- Operations of a block are about to be treated in order, all but the last of the block. -/
structure AtOps (f : Routine) (s : Session) (b : BlockId) (front l : List OpId) (t : OpId)
    (owned : ValueSet) : Prop where
  threaded : Threaded f s
  list : s.routine.opsOf b = front ++ l ++ [t]
  ops : ∀ q ∈ l, f.Visited q ∧ f.parent? q = some b
  nodup : l.Nodup
  untouched : ∀ q ∈ l, Untouched f s.routine q
  owned : ∀ i ∈ owned, Token f s.routine b front i

section Ops

variable {l rest : List OpId} {held held' : Holdings}

theorem AtOps.first (h : AtOps f s b front (o :: rest) t owned) :
    AtOp f s o owned b front (rest ++ [t]) where
  threaded := h.threaded
  visited := (h.ops o (by simp)).1
  parent := (h.ops o (by simp)).2
  list := by simpa using h.list
  rest_ne := by simp
  untouched := h.untouched o (by simp)
  owned := h.owned

theorem AtOps.reached (h : AtOps f s b front l t owned) (hl : f.Linked) :
    ∀ q ∈ l, f.Reached q ∧ f.parent? q = some b := fun q hq =>
  ⟨(h.ops q hq).1.reached hl, (h.ops q hq).2⟩

/-- After one operation has been treated, the next one is about to be. -/
theorem AtOps.next (htreat : OpSpec f treat) (hw : f.WellFormed)
    (h : AtOps f s b front (o :: rest) t held.owned) (hout : treat o held.owned s = .ok (out, s')) :
    ∃ mid, AtOps f s' b (front ++ mid) rest t (held.absorb s'.aliases out).owned ∧
      Run f (.ofOps f b [o]) s s' ∧ Done f s'.routine o := by
  obtain ⟨mid, hrun, hlist, hacquired, hdone⟩ := htreat h.first hout
  obtain ⟨hnot, hnodup⟩ := List.nodup_cons.mp h.nodup
  have hreached := h.reached hw.linked
  refine ⟨mid, ?_, hrun, hdone⟩
  exact {
    threaded := h.threaded.run hw hrun
    list := by simpa using hlist
    ops := fun q hq => h.ops q (by simp [hq])
    nodup := hnodup
    untouched := by
      -- the operations to come have nothing in common with this one
      intro q hq
      obtain ⟨hqr, hqp⟩ := hreached q (by simp [hq])
      obtain ⟨hops, hblocks⟩ := Footprint.ofOps_disjoint hw (l := [o]) hqr hqp
        (by simpa using hreached o (by simp)) (by simpa using fun he : q = o => hnot (he ▸ hq))
      exact (h.untouched q (by simp [hq])).run hrun h.threaded hw hqr hops hblocks
    owned := by
      intro i hi
      rcases Holdings.mem_owned_absorb hi with hi | hi
      · exact (h.owned i hi).keep hrun.keeps fun p hp => List.mem_append_left _ hp
      · exact hacquired i hi }

theorem throughOps_cons (h : Pass.throughOps treat (o :: l) held s = .ok (held', s')) :
    ∃ out s₁, treat o held.owned s = .ok (out, s₁) ∧
      Pass.throughOps treat l (held.absorb s₁.aliases out) s₁ = .ok (held', s') := by
  obtain ⟨out, s₁, hout, h⟩ := Pass.bind_eq_ok.mp h
  rw [Pass.aliases_bind_eq_ok] at h
  exact ⟨out, s₁, hout, h⟩

/-- After the first of some operations have been treated, the others are about to be. -/
theorem AtOps.walk (htreat : OpSpec f treat) (hw : f.WellFormed)
    (hat : AtOps f s b front (l ++ rest) t held.owned)
    (h : Pass.throughOps treat l held s = .ok (held', s')) :
    ∃ front', AtOps f s' b front' rest t held'.owned ∧ Run f (.ofOps f b l) s s' ∧
      ∀ q ∈ l, Done f s'.routine q := by
  induction l generalizing s front held with
  | nil =>
    cases h
    exact ⟨front, hat, .refl, by simp⟩
  | cons o l ih =>
    obtain ⟨out, s₁, hout, h⟩ := throughOps_cons h
    obtain ⟨mid, hat₁, hrun₁, hdone⟩ := AtOps.next htreat hw hat hout
    obtain ⟨front', hat', hrun₂, hdone₂⟩ := ih hat₁ h
    refine ⟨front', hat', (hrun₁.mono (Footprint.ofOps_mono (by simp))).trans
      (hrun₂.mono (Footprint.ofOps_mono fun q hq => by simp [hq])), fun q hq => ?_⟩
    rcases List.mem_cons.mp hq with rfl | hq
    · have hreached := hat.reached hw.linked
      obtain ⟨hops, hblocks⟩ := Footprint.ofOps_disjoint hw (l := l) (hreached q (by simp)).1
        (hreached q (by simp)).2 (fun q' hq' => hreached q' (by simp [hq']))
        fun hmem => (List.nodup_cons.mp hat.nodup).1 (List.mem_append_left _ hmem)
      exact hdone.run hrun₂ hat₁.threaded hw.linked hops fun c hc => (hblocks c hc).2
    · exact hdone₂ q hq

theorem throughOps_spec (htreat : OpSpec f treat) (hw : f.WellFormed)
    (hat : AtOps f s b front l t held.owned)
    (h : Pass.throughOps treat l held s = .ok (held', s')) :
    Run f (.ofOps f b l) s s' ∧ (∃ front', s'.routine.opsOf b = front' ++ [t] ∧
      ∀ i ∈ held'.owned, Token f s'.routine b front' i) ∧ ∀ q ∈ l, Done f s'.routine q := by
  rw [← List.append_nil l] at hat
  obtain ⟨front', hat', hrun, hdone⟩ := hat.walk htreat hw h
  exact ⟨hrun, ⟨front', by simpa using hat'.list, hat'.owned⟩, hdone⟩

end Ops

/-! ## The beginning of a block -/

/-- A new argument for an indicator is a step, and so is recording it. -/
theorem Threaded.addArg (ht : Threaded f s) {arg : ValueId} (hopened : f.Opened b)
    (hv : v ∈ s.routine.argsOf b) (hadd : s.routine.addBlockArg b .ownership = .ok (arg, r'))
    (hroutine : s'.routine = r') (haliases : s'.aliases = s.aliases.setIndicator v arg) :
    Run f (.arguments b) s s' ∧ s'.routine.argsOf b = s.routine.argsOf b ++ [arg] ∧
      Token f s'.routine b [] arg := by
  have hargs := argsOf_addBlockArg hadd
  have hlegal : Legal f (.arguments b) s.routine r' {} :=
    { change := change_addBlockArg hadd
      sound := sound_addBlockArg hadd ht.wellFormed
      linked := ht.wellFormed.linked.addBlockArg hadd
      later :=
        { lost := fun _ hx => by cases hx
          renamed := fun _ hx => absurd rfl hx
          added := fun _ _ hv => by cases hv }
      ops := fun p hp => by
        rcases hp with hp | hp
        · exact absurd rfl hp
        · exact absurd rfl hp
      blocks := fun c _ => opsOf_addBlockArg hadd c
      args := fun c hc => (hargs c).trans (if_neg hc)
      renamed := fun p hp => absurd rfl hp
      added := fun p hp => absurd rfl hp
      opened := fun c hc => by
        by_cases hcb : c = b
        · exact hcb ▸ hopened
        · exact absurd ((hargs c).trans (if_neg hcb)) hc
      made := fun x hx hx' => absurd ((op?_addBlockArg hadd x).trans hx) hx' }
  have hargs' : r'.argsOf b = s.routine.argsOf b ++ [arg] := by
    rw [hargs, if_pos rfl]
  have htoken : Token f r' b [] arg := by
    refine ⟨ty?_addBlockArg_new hadd, ?_, .inl (by simp [hargs'])⟩
    rw [addBlockArg_arg hadd]
    exact ht.size_values
  have hrec : Recorded f r' v arg :=
    ⟨.arguments (b := b) (by simp [hargs', hv]) (by simp [hargs']), htoken.typed, htoken.later,
      .inl ⟨b, by simp [hargs']⟩⟩
  -- first the argument, which nothing refers to yet, and then the record of it
  have hadded : Step f (.arguments b) s { s with routine := r' } := .edit _ hlegal rfl
  rw [hroutine]
  refine ⟨Relation.ReflTransGen.tail (.single hadded) (.record v arg hroutine ?_ ?_ hrec ?_ ?_),
    hargs', htoken⟩
  · rw [haliases]
    exact AliasClasses.indicators_setIndicator_subset ..
  · exact ht.not_recorded (by rw [addBlockArg_arg hadd])
  · rw [haliases]
    exact .setIndicator _ v arg
  · rw [haliases]
    exact fun hsound => hsound.same_setIndicator v arg

theorem ownArguments_spec (hw : f.WellFormed) (hopened : f.Opened b) {args : List ValueId}
    {owned' : ValueSet} (ht : Threaded f s) (hargs : ∀ v ∈ args, v ∈ s.routine.argsOf b)
    (howned : ∀ i ∈ owned, Token f s.routine b [] i)
    (h : Pass.ownArguments b args owned s = .ok (owned', s')) :
    Run f (.arguments b) s s' ∧ (∀ i ∈ owned', Token f s'.routine b [] i) ∧
      ∃ indicators, s'.routine.argsOf b = s.routine.argsOf b ++ indicators ∧
        indicators.length = args.length ∧ (∀ i ∈ indicators, f.values.size ≤ i.index) ∧
        s.aliases.Joins (args.zip indicators) s'.aliases := by
  induction args generalizing s owned with
  | nil =>
    cases h
    exact ⟨.refl, howned, [], by simp, rfl, by simp, .of_links rfl⟩
  | cons v rest ih =>
    obtain ⟨arg, s₁, hedit, h⟩ := Pass.bind_eq_ok.mp h
    obtain ⟨r₁, hadd, rfl⟩ := Pass.edit_eq_ok.mp hedit
    obtain ⟨_, s₂, hrec, h⟩ := Pass.bind_eq_ok.mp h
    obtain ⟨hroutine, haliases⟩ := Pass.modifyAliases_eq_ok hrec
    obtain ⟨hrun, hargs', htoken⟩ := ht.addArg hopened (hargs v (by simp)) hadd hroutine haliases
    obtain ⟨hrun', howned', indicators, hindicators, hlen, hlater, hjoins⟩ := ih (ht.run hw hrun)
      (fun w hw => (hrun.keeps.args b).subset (hargs w (by simp [hw])))
      (fun i hi => by
        rcases ValueSet.mem_insert.mp hi with rfl | hi
        · exact htoken
        · exact (howned i hi).keep hrun.keeps fun p hp => hp) h
    have hfirst : s.aliases.Joins [(v, arg)] s₂.aliases := haliases ▸ .setIndicator s.aliases v arg
    exact ⟨hrun.trans hrun', howned', arg :: indicators, by simp [hindicators, hargs'],
      by simp [hlen], by simpa using ⟨htoken.later, hlater⟩, hfirst.trans hjoins⟩

/-- The buffer arguments of a block, each with the argument that was appended for its indicator. -/
def Routine.accompanied (f r : Routine) (b : BlockId) : List (ValueId × ValueId) :=
  ((f.argsOf b).filter f.holdsBuffer).zip ((r.argsOf b).drop (f.argsOf b).length)

theorem openBlock_spec (hw : f.WellFormed) (hopened : ownsInputs = true → f.Opened b)
    (ht : Threaded f s) (hargs : s.routine.argsOf b = f.argsOf b)
    (h : Pass.openBlock b ownsInputs s = .ok (owned, s')) :
    Run f (.arguments b) s s' ∧ (∀ i ∈ owned, Token f s'.routine b [] i) ∧
      (ownsInputs = true →
        (s'.routine.argsOf b).length = (f.argsOf b).length + f.bufferCount (f.argsOf b) ∧
        (∀ pair ∈ f.accompanied s'.routine b, f.values.size ≤ pair.2.index) ∧
        s.aliases.Joins (f.accompanied s'.routine b) s'.aliases) := by
  unfold Pass.openBlock at h
  split at h
  · rename_i howns
    obtain ⟨args, hquery, h⟩ := Pass.ask_bind_eq_ok.mp h
    obtain ⟨B, hB, hbuffers⟩ := bind_eq_ok.mp hquery
    have hbuffers := buffers_eq_ok hbuffers
    rw [← block_argsOf hB] at hbuffers
    obtain ⟨hrun, howned, indicators, hindicators, hlen, hlater, hjoins⟩ :=
      ownArguments_spec hw (hopened howns) ht
        (fun v hv => (List.mem_filter.mp (hbuffers ▸ hv)).1)
        (fun i hi => absurd hi (by simp)) h
    have hsame : args = (f.argsOf b).filter f.holdsBuffer := by
      obtain ⟨δ, hδ⟩ := ht.embedded
      rw [hbuffers, hargs]
      exact List.filter_congr fun v hv => hδ.change.keeps.holdsBuffer_eq
        (Visible.known hw.linked (.argument hv : f.Visible b [] v))
    have haccompanied : f.accompanied s'.routine b = args.zip indicators := by
      rw [accompanied, hindicators, hargs, List.drop_left, ← hsame]
    refine ⟨hrun, howned, fun _ => ⟨?_, fun pair hpair => ?_, haccompanied ▸ hjoins⟩⟩
    · rw [hindicators, List.length_append, hlen, hsame, hargs, ← List.countP_eq_length_filter,
        ← Routine.bufferCount]
    · rw [haccompanied] at hpair
      exact hlater _ (List.of_mem_zip hpair).2
  · rename_i howns
    cases h
    exact ⟨.refl, fun i hi => absurd hi (by simp), fun h => absurd h howns⟩

/-! ## A whole block -/

/-- A block, and all that is inside its operations, is as it was. -/
structure BlockUntouched (f r : Routine) (b : BlockId) : Prop where
  list : r.opsOf b = f.opsOf b
  args : r.argsOf b = f.argsOf b
  ops : ∀ q ∈ f.opsOf b, Untouched f r q

/-- A block after the pass through it: it ends in the same operation, and all others are done. -/
structure Walked (f r : Routine) (b : BlockId) (ownsInputs : Bool) (body : List OpId) (t : OpId)
    (front : List OpId) : Prop where
  original : f.opsOf b = body ++ [t]
  list : r.opsOf b = front ++ [t]
  terminator : f.isTerminator t = true
  last : Intact f r t
  args : ownsInputs = true → (r.argsOf b).length = (f.argsOf b).length + f.bufferCount (f.argsOf b)
  done : ∀ q ∈ body, Done f r q

theorem Untouched.block (h : Untouched f r o) (hl : f.Linked) (hholder : f.holder? b = some o) :
    BlockUntouched f r b where
  list := h.lists b ⟨o, .refl, hholder⟩
  args := h.args b ⟨o, .refl, hholder⟩
  ops _ hq := h.inside (.single ((hl.up?_of_mem hq).trans hholder))

theorem Threaded.kind? (ht : Threaded f s) (hp : f.op? p ≠ none) :
    s.routine.kind? p = f.kind? p := by
  obtain ⟨δ, hδ⟩ := ht.embedded
  exact hδ.change.keeps.kind?_eq hp

theorem Intact.run (h : Intact f s.routine p) (hrun : Run f F s s') (ht : Threaded f s)
    (hf : f.op? p ≠ none) (hout : ¬ F.ops p) : Intact f s'.routine p := by
  obtain ⟨hlive, hlen⟩ := hrun.operands_length hf (ht.op? hf) h.live hout
  exact ⟨hlive, hlen.trans h.operands⟩

/-- A footprint has nothing in common with what is under a block. -/
structure Footprint.Avoids (F : Footprint) (f : Routine) (b : BlockId) : Prop where
  blocks : ∀ c, f.Under b c → ¬ F.blocks c
  args : ∀ c, f.Under b c → ¬ F.args c
  ops : ∀ q, f.parent? q = some b → ∀ p, f.Inside q p → ¬ F.ops p

theorem BlockUntouched.run (h : BlockUntouched f s.routine b) (hrun : Run f F s s')
    (ht : Threaded f s) (hw : f.WellFormed) (hreached : f.Reached o)
    (hholder : f.holder? b = some o) (ha : F.Avoids f b) : BlockUntouched f s'.routine b where
  list := (hrun.opsOf (ha.blocks b (.inl rfl))).trans h.list
  args := (hrun.argsOf (ha.args b (.inl rfl))).trans h.args
  ops q hq := by
    have hparent := (hw.linked.op_listed q b).mp hq
    exact (h.ops q hq).run hrun ht hw (hreached.step ((up?_of_parent? hparent).trans hholder))
      (ha.ops q hparent)
      fun c hc => ⟨ha.blocks c (.inr ⟨q, hparent, hc⟩), ha.args c (.inr ⟨q, hparent, hc⟩)⟩

theorem Walked.run (h : Walked f s.routine b ownsInputs body t front) (hrun : Run f F s s')
    (ht : Threaded f s) (hl : f.Linked) (ha : F.Avoids f b) :
    Walked f s'.routine b ownsInputs body t front := by
  have hparent : ∀ q ∈ body ++ [t], f.parent? q = some b := by
    intro q hq
    rwa [← hl.op_listed, h.original]
  have htf : f.op? t ≠ none := hl.op?_of_listed (b := b) (by simp [h.original])
  exact { h with
    list := (hrun.opsOf (ha.blocks b (.inl rfl))).trans h.list
    last := h.last.run hrun ht htf (ha.ops t (hparent t (by simp)) t .refl)
    args := fun howns => by rw [hrun.argsOf (ha.args b (.inl rfl)), h.args howns]
    done := fun q hq => by
      have hq' := hparent q (by simp [hq])
      exact (h.done q hq).run hrun ht hl (ha.ops q hq')
        fun c hc => ha.args c (.inr ⟨q, hq', hc⟩) }

/-- The stages of a pass through a block: its beginning, its operations but the last, its end. -/
structure BlockPass (f : Routine) (settings : Settings) (treat : OpPass) (b : BlockId)
    (ownsInputs : Bool) (s : Session) (out : Outcome) (s' : Session) where
  body : List OpId
  t : OpId
  owned : ValueSet
  opened : Session
  held : Holdings
  walked : Session
  front : List OpId
  original : f.opsOf b = body ++ [t]
  terminator : f.isTerminator t = true
  reached : f.Reached t
  found : s.routine.terminator? b = .ok (some t)
  opens : Pass.openBlock b ownsInputs s = .ok (owned, opened)
  bodyOps : opened.routine.bodyOps b = .ok body
  walks : Pass.throughOps treat body { owned, released := ∅ } opened = .ok (held, walked)
  closes : Pass.closeBlock settings t held.owned walked = .ok (out.acquired, s')
  released : out.released = held.released
  run_opens : Run f (.arguments b) s opened
  args : ownsInputs = true →
    (opened.routine.argsOf b).length = (f.argsOf b).length + f.bufferCount (f.argsOf b)
  joined : ownsInputs = true → ∀ pair ∈ f.accompanied opened.routine b,
    f.values.size ≤ pair.2.index ∧ opened.aliases.same pair.1 pair.2 = true
  atOps : AtOps f opened b [] body t owned
  run_walks : Run f (.ofOps f b body) opened walked
  done : ∀ q ∈ body, Done f walked.routine q
  threaded : Threaded f walked
  list : walked.routine.opsOf b = front ++ [t]
  tokens : ∀ i ∈ held.owned, Token f walked.routine b front i
  last : Intact f walked.routine t

section Block

variable {settings : Settings}

/-- An opened block: its operations but the last are to be treated, and the last is untouched. -/
structure BlockStart (f : Routine) (b : BlockId) (s opened : Session) (owned : ValueSet)
    (body : List OpId) (t : OpId) : Prop where
  original : f.opsOf b = body ++ [t]
  terminator : f.isTerminator t = true
  reached : f.Reached t
  run : Run f (.arguments b) s opened
  atOps : AtOps f opened b [] body t owned
  last : Untouched f opened.routine t

theorem openBlock_start (hw : f.WellFormed) (ht : Threaded f s) (hvisited : f.Visited o)
    (henters : f.Enters o b) (hopened : ownsInputs = true → f.Opened b)
    (hb : BlockUntouched f s.routine b) (hfound : s.routine.terminator? b = .ok (some t))
    (hopen : Pass.openBlock b ownsInputs s = .ok (owned, s'))
    (hbody : s'.routine.bodyOps b = .ok body) : BlockStart f b s s' owned body t := by
  obtain ⟨l, hlist, hterm⟩ := terminator?_eq_some hfound
  have hlist₀ : f.opsOf b = l ++ [t] := hb.list.symm.trans hlist
  have hparent : ∀ q ∈ l ++ [t], f.parent? q = some b := by
    intro q hq
    rwa [← hw.linked.op_listed, hlist₀]
  have hreached : ∀ q ∈ l ++ [t], f.Reached q := fun q hq =>
    (hvisited.reached hw.linked).step
      ((up?_of_parent? (hparent q hq)).trans (henters.holder? hw.linked))
  have htf := hw.op?_of_reached (hreached t (by simp))
  obtain ⟨hrun, howned, -⟩ := openBlock_spec hw hopened ht hb.args hopen
  have ht' := ht.run hw hrun
  have hlist' : s'.routine.opsOf b = l ++ [t] := (hrun.opsOf id).trans hlist
  -- opening a block changes its arguments only
  have huntouched : ∀ q ∈ l ++ [t], Untouched f s'.routine q := by
    intro q hq
    refine (hb.ops q (hlist₀ ▸ hq)).run hrun ht hw (hreached q hq) (fun _ _ => id)
      fun c hc => ⟨id, ?_⟩
    rintro rfl
    exact InsideBlock.not_parent hw.root_unlinked (hreached q hq) (hparent q hq) hc
  obtain rfl := bodyOps_eq_ok hlist' (by rwa [isTerminator, ht'.kind? htf, ← ht.kind? htf]) hbody
  exact {
    original := hlist₀
    terminator := by rwa [isTerminator, ← ht.kind? htf]
    reached := hreached t (by simp)
    run := hrun
    atOps := {
      threaded := ht'
      list := by simpa using hlist'
      ops := fun q hq =>
        ⟨hvisited.tail ⟨b, body, t, henters, hlist₀, hq⟩, hparent q (by simp [hq])⟩
      nodup := (List.nodup_append.mp (hlist₀ ▸ hw.linked.ops_nodup b)).1
      untouched := fun q hq => huntouched q (by simp [hq])
      owned := howned }
    last := huntouched t (by simp) }

theorem throughBlock_stages (htreat : OpSpec f treat) (hw : f.WellFormed) (ht : Threaded f s)
    (hvisited : f.Visited o) (henters : f.Enters o b)
    (hopened : ownsInputs = true → f.Opened b) (hb : BlockUntouched f s.routine b)
    (h : Pass.throughBlock settings treat b ownsInputs s = .ok (out, s')) :
    Nonempty (BlockPass f settings treat b ownsInputs s out s') := by
  obtain ⟨t?, hfound, h⟩ := Pass.ask_bind_eq_ok.mp h
  cases t? with
  | none =>
    obtain ⟨_, _, -, h⟩ := Pass.bind_eq_ok.mp h
    obtain ⟨_, _, -, h⟩ := Pass.bind_eq_ok.mp h
    exact absurd h Pass.reject_ne_ok
  | some t =>
    -- the beginning
    obtain ⟨owned, s₁, hopen, h⟩ := Pass.bind_eq_ok.mp h
    obtain ⟨l, hl, h⟩ := Pass.ask_bind_eq_ok.mp h
    have hstart := openBlock_start hw ht hvisited henters hopened hb hfound hopen hl
    obtain ⟨-, -, hinputs⟩ := openBlock_spec hw hopened ht hb.args hopen
    -- the operations but the last
    obtain ⟨held, s₂, hops, h⟩ := Pass.bind_eq_ok.mp h
    have hat := hstart.atOps
    obtain ⟨hrun, ⟨front, hlist, hheld⟩, hdone⟩ := throughOps_spec htreat hw hat hops
    have hparent := (hw.linked.op_listed t b).mp (by simp [hstart.original])
    obtain ⟨hout, -⟩ := Footprint.ofOps_disjoint hw hstart.reached hparent (hat.reached hw.linked)
      (hw.linked.toNested.listed_once hstart.original).1
    have hlast := (hstart.last.ops t .refl).run hrun hat.threaded
      (hw.op?_of_reached hstart.reached) (hout t .refl)
    -- the end
    obtain ⟨acquired, s₃, hclose, h⟩ := Pass.bind_eq_ok.mp h
    cases h
    exact ⟨{
      body := l
      t := t
      owned := owned
      opened := s₁
      held := held
      walked := s₂
      front := front
      original := hstart.original
      terminator := hstart.terminator
      reached := hstart.reached
      found := hfound
      opens := hopen
      bodyOps := hl
      walks := hops
      closes := hclose
      released := rfl
      run_opens := hstart.run
      args := fun howns => (hinputs howns).1
      joined := fun howns pair hpair =>
        ⟨(hinputs howns).2.1 pair hpair, (hinputs howns).2.2.joined ht.classes pair hpair⟩
      atOps := hat
      run_walks := hrun
      done := hdone
      threaded := hat.threaded.run hw hrun
      list := hlist
      tokens := hheld
      last := hlast }⟩

/-- The operations of a block leave its arguments alone. -/
theorem BlockPass.argsOf_walked (pass : BlockPass f settings treat b ownsInputs s out s')
    (hw : f.WellFormed) : pass.walked.routine.argsOf b = pass.opened.routine.argsOf b := by
  apply pass.run_walks.argsOf
  -- the block is not inside one of its own operations
  rintro ⟨q, hq, hin⟩
  obtain ⟨hreached, hparent⟩ := pass.atOps.reached hw.linked q hq
  exact InsideBlock.not_parent hw.root_unlinked hreached hparent hin

/-- A block is gone through, and hands on a token for each buffer that it sends. -/
theorem throughBlock_spec (htreat : OpSpec f treat) (hw : f.WellFormed) (ht : Threaded f s)
    (hvisited : f.Visited o) (henters : f.Enters o b)
    (hopened : ownsInputs = true → f.Opened b) (hb : BlockUntouched f s.routine b)
    (h : Pass.throughBlock settings treat b ownsInputs s = .ok (out, s')) :
    Run f (.ofBlock f b) s s' ∧ ∃ body t front, Walked f s'.routine b ownsInputs body t front ∧
      out.acquired.length = f.bufferCount (f.operandsOf t) ∧
      ∀ i ∈ out.acquired, Token f s'.routine b front i := by
  obtain ⟨k⟩ := throughBlock_stages htreat hw ht hvisited henters hopened hb h
  have htf := hw.op?_of_reached k.reached
  obtain ⟨hlen, front, hins, htokens⟩ := Pass.closeBlock_inserts hw k.threaded k.list k.reached
    k.last.live k.tokens k.closes
  have hemit : (Footprint.emission b).Within (.ofBlock f b) :=
    ⟨fun _ hp => hp.elim, fun _ hc => .inl hc, fun _ hc => hc.elim⟩
  refine ⟨((k.run_opens.mono Footprint.arguments_within).trans
    (k.run_walks.mono (Footprint.ofOps_within_ofBlock fun q hq => (k.atOps.ops q hq).2))).trans
    (hins.run.mono hemit), k.body, k.t, front, ?_, ?_, htokens⟩
  · exact {
      original := k.original
      list := hins.list
      terminator := k.terminator
      last := k.last.run hins.run k.threaded htf id
      args := fun howns => by rw [hins.run.argsOf id, k.argsOf_walked hw, k.args howns]
      done := fun q hq =>
        (k.done q hq).run hins.run k.threaded hw.linked (fun _ _ => id) fun _ _ => id }
  · obtain ⟨d, hd⟩ := Option.ne_none_iff_exists'.mp htf
    obtain ⟨τ, hentry, -, hbuffers⟩ := k.threaded.intact_entry hw hd k.last
    rw [hlen, operandsOf_of hentry, operandsOf_of hd, hbuffers]

end Block

end BufferOwnership
