import BufferOwnership.Proofs.BlockWalk

/-!
# Threading through the regions of a construct

The pass through one block of an operation leaves the others as they are. After all of them,
branches are brought to agree on what they release; a branch may then hand on an indicator that is
recorded for a value that it sends. Whatever it hands on is in scope where the branch ends. A retain
of which no result is used any more comes from the run, so nothing of the original routine is lost.
-/

namespace BufferOwnership

open Routine

variable {f r r' : Routine} {F : Footprint} {s s' : Session} {b c : BlockId} {o t : OpId}
variable {front body : List OpId} {i v : ValueId} {g : RegionId} {d : Op}
variable {bs bs' : List BlockId} {site : ConstructSite}

/-! ## Blocks of one operation -/

/-- What the pass through some blocks may change. -/
def Footprint.ofBlocks (f : Routine) (bs : List BlockId) : Footprint where
  ops p := ∃ b ∈ bs, (Footprint.ofBlock f b).ops p
  blocks c := ∃ b ∈ bs, f.Under b c
  args c := ∃ b ∈ bs, f.Under b c

theorem Footprint.ofBlock_within (hb : b ∈ bs) :
    (Footprint.ofBlock f b).Within (.ofBlocks f bs) where
  ops _ hp := ⟨b, hb, hp⟩
  blocks _ hc := ⟨b, hb, hc⟩
  args _ hc := ⟨b, hb, hc⟩

theorem Footprint.ofBlocks_mono (h : ∀ b ∈ bs, b ∈ bs') :
    (Footprint.ofBlocks f bs).Within (.ofBlocks f bs') where
  ops _ := fun ⟨b, hb, hp⟩ => ⟨b, h b hb, hp⟩
  blocks _ := fun ⟨b, hb, hc⟩ => ⟨b, h b hb, hc⟩
  args _ := fun ⟨b, hb, hc⟩ => ⟨b, h b hb, hc⟩

/-- A block has nothing in common with other blocks of the operation that holds it. -/
theorem Footprint.ofBlocks_avoids (hw : f.WellFormed) (ho : f.Reached o)
    (hb : f.holder? b = some o) (hbs : ∀ c ∈ bs, f.holder? c = some o) (hout : b ∉ bs) :
    (Footprint.ofBlocks f bs).Avoids f b := by
  -- nothing is under two blocks of one operation
  have hblocks : ∀ c, f.Under b c → ¬ ∃ b' ∈ bs, f.Under b' c := by
    rintro c hc ⟨b', hb', hc'⟩
    exact hc.disjoint hw.root_unlinked ho hb (hbs b' hb') (fun he => hout (he ▸ hb')) hc'
  refine ⟨hblocks, hblocks, ?_⟩
  rintro q hq p hp ⟨b', hb', q', hq', hp'⟩
  have hup : f.up? q = some o := (up?_of_parent? hq).trans hb
  have hup' : f.up? q' = some o := (up?_of_parent? hq').trans (hbs b' hb')
  refine hp.disjoint hw.root_unlinked (ho.step hup) (ho.step hup') (hup.trans hup'.symm) ?_ hp'
  rintro rfl
  obtain rfl := Option.mem_unique hq hq'
  exact hout hb'

/-- Blocks of an operation are about to be gone through in order. -/
structure AtBlocks (f : Routine) (s : Session) (o : OpId) (bs : List BlockId) : Prop where
  threaded : Threaded f s
  visited : f.Visited o
  enters : ∀ b ∈ bs, f.Enters o b
  nodup : bs.Nodup
  untouched : ∀ b ∈ bs, BlockUntouched f s.routine b

namespace AtBlocks

theorem holder? (h : AtBlocks f s o bs) (hl : f.Linked) : ∀ b ∈ bs, f.holder? b = some o :=
  fun b hb => (h.enters b hb).holder? hl

theorem first (h : AtBlocks f s o (bs ++ bs')) : AtBlocks f s o bs :=
  { h with
    enters := fun b hb => h.enters b (by simp [hb])
    nodup := (List.nodup_append.mp h.nodup).1
    untouched := fun b hb => h.untouched b (by simp [hb]) }

/-- The blocks to come have nothing in common with those before. -/
theorem avoids (h : AtBlocks f s o (bs ++ bs')) (hw : f.WellFormed) :
    (∀ b ∈ bs', (Footprint.ofBlocks f bs).Avoids f b) ∧
      ∀ b ∈ bs, (Footprint.ofBlocks f bs').Avoids f b := by
  have hreached := h.visited.reached hw.linked
  have hholder := h.holder? hw.linked
  have hdisjoint := (List.nodup_append.mp h.nodup).2.2
  constructor
  · intro b hb
    apply Footprint.ofBlocks_avoids hw hreached (hholder b (by simp [hb]))
    · exact fun c hc => hholder c (by simp [hc])
    · exact fun hmem => hdisjoint b hmem b hb rfl
  · intro b hb
    apply Footprint.ofBlocks_avoids hw hreached (hholder b (by simp [hb]))
    · exact fun c hc => hholder c (by simp [hc])
    · exact fun hmem => hdisjoint b hb b hmem rfl

/-- After some of the blocks, the others are about to be gone through. -/
theorem next (h : AtBlocks f s o (bs ++ bs')) (hw : f.WellFormed)
    (hrun : Run f (.ofBlocks f bs) s s') : AtBlocks f s' o bs' where
  threaded := h.threaded.run hw hrun
  visited := h.visited
  enters b hb := h.enters b (by simp [hb])
  nodup := (List.nodup_append.mp h.nodup).2.1
  untouched b hb := (h.untouched b (by simp [hb])).run hrun h.threaded hw
    (h.visited.reached hw.linked) (h.holder? hw.linked b (by simp [hb])) ((h.avoids hw).1 b hb)

end AtBlocks

/-- The pass through blocks of an operation leaves the operation itself alone. -/
theorem Run.intact_holder (hrun : Run f (.ofBlocks f bs) s s') (ht : Threaded f s)
    (hw : f.WellFormed) (ho : f.Visited o) (hfo : f.op? o ≠ none)
    (hbs : ∀ c ∈ bs, f.holder? c = some o) (h : Intact f s.routine o) : Intact f s'.routine o := by
  apply h.run hrun ht hfo
  rintro ⟨c, hc, q, hq, hin⟩
  have hup := (up?_of_parent? hq).trans (hbs c hc)
  exact ((ho.reached hw.linked).step hup).not_inside_up hw.root_unlinked hup hin

/-- The pass through blocks of an operation leaves the block that the operation stands in alone. -/
theorem Run.opsOf_parent (hrun : Run f (.ofBlocks f bs) s s') (hw : f.WellFormed) (ho : f.Visited o)
    (hparent : f.parent? o = some b) (hbs : ∀ c ∈ bs, f.holder? c = some o) :
    s'.routine.opsOf b = s.routine.opsOf b := by
  apply hrun.opsOf
  rintro ⟨c, hc, hunder⟩
  exact InsideBlock.not_parent hw.root_unlinked (ho.reached hw.linked) hparent
    (insideBlock_iff.mpr ⟨c, hbs c hc, hunder⟩)

/-- The blocks of an operation about to be treated are to be gone through, if all are entered. -/
theorem AtOp.atBlocks {owned : ValueSet} {rest : List OpId} (h : AtOp f s o owned b front rest)
    (hw : f.WellFormed) (hd : f.op? o = some d)
    (henters : ∀ c ∈ d.regions.flatMap f.blocksOf, f.Enters o c) :
    AtBlocks f s o (d.regions.flatMap f.blocksOf) where
  threaded := h.threaded
  visited := h.visited
  enters := henters
  nodup := regionsOf_of hd ▸ nodup_innerBlocks hw.linked.toNested o
  untouched c hc := h.untouched.block hw.linked ((henters c hc).holder? hw.linked)

theorem Threaded.blocksOf (ht : Threaded f s) (g : RegionId) :
    s.routine.blocksOf g = f.blocksOf g := by
  obtain ⟨δ, hδ⟩ := ht.embedded
  exact hδ.change.blocksOf g

section

variable (hd : f.op? o = some d) (hcons : d.kind.construct?.isSome = true)
include hd hcons

/-- The single block of a region of a construct is one that threading goes through. -/
theorem enters_of_construct (hg : g ∈ d.regions) (hb : f.blocksOf g = [b]) : f.Enters o b := by
  obtain ⟨kind, hkind⟩ := Option.isSome_iff_exists.mp hcons
  refine ⟨d, hd, ?_⟩
  simp only [Op.classify, hkind]
  exact ⟨g, hg, hb⟩

theorem enters_of_singleBlocks (hsingle : ∀ g ∈ d.regions, (f.blocksOf g).length ≤ 1) :
    ∀ c ∈ d.regions.flatMap f.blocksOf, f.Enters o c := by
  intro c hc
  obtain ⟨g, hg, hc⟩ := List.mem_flatMap.mp hc
  have hone : (f.blocksOf g).length = 1 :=
    Nat.le_antisymm (hsingle g hg) (List.length_pos_of_mem hc)
  obtain ⟨c', hc'⟩ := List.length_eq_one_iff.mp hone
  rw [hc', List.mem_singleton] at hc
  exact enters_of_construct hd hcons hg (hc ▸ hc')

theorem exists_region_of_enters (h : f.Enters o b) : ∃ g ∈ d.regions, f.blocksOf g = [b] := by
  obtain ⟨kind, hkind⟩ := Option.isSome_iff_exists.mp hcons
  obtain ⟨d', hd', hblock⟩ := h
  obtain rfl := Option.mem_unique hd hd'
  simpa only [Op.classify, hkind] using hblock

end

/-! ## What a region hands on -/

/-- A recorded indicator that can be used at the end of a block. -/
structure Captured (f r : Routine) (t : OpId) (i : ValueId) : Prop where
  recorded : ∃ v, Recorded f r v i
  scope : r.InScope t i

/-- What is recorded is never renamed and never lost. -/
theorem Recorded.stays {δ : Delta} (h : Recorded f r v i) (hl : r.Linked)
    (hc : Change r r' δ) : δ.value i = i ∧ ∀ p, δ.lost p = true → i ∉ r.resultsOf p := by
  cases h.companion with
  | arguments _ hi =>
    exact ⟨hc.value_arg hl hi, fun p _ hres => hl.not_arg_of_result hres hi⟩
  | results _ hi hkind _ =>
    obtain ⟨hop, hkept⟩ := hc.stays hkind rfl (by simp)
    refine ⟨hc.value_result hl hop hi, fun p hp hres => ?_⟩
    rw [← hl.result_unique hi hres, hkept] at hp
    cases hp

theorem Captured.run (h : Captured f s.routine t i) (hrun : Run f F s s') (ht : Threaded f s)
    (hw : f.WellFormed) (hterm : f.isTerminator t = true) (htf : f.op? t ≠ none) :
    Captured f s'.routine t i := by
  refine hrun.preserves (P := fun r => Captured f r t i) h fun {mid _ _} hrun hlegal _ ih => ?_
  have ht' := ht.run hw hrun
  have hl := ht'.wellFormed.linked
  obtain ⟨⟨v, hrec⟩, hscope⟩ := ih
  obtain ⟨hvalue, hkept⟩ := hrec.stays hl hlegal.change
  -- a terminator is neither renamed nor lost
  obtain ⟨k, hk, hkterm⟩ : ∃ k, f.kind? t = some k ∧ k.isTerminator = true := by
    simpa [isTerminator, Option.any_eq_true] using hterm
  have hk' : mid.routine.kind? t = some k := (ht'.kind? htf).trans hk
  obtain ⟨hop, hlost⟩ := hlegal.change.stays hk' (by cases k <;> simp_all [OpKind.isTerminator,
    OpKind.construct?]) (by rintro n rfl; simp [OpKind.isTerminator] at hkterm)
  have hcarried := hscope.carry (hlegal.change.carries hl) (by simp [hlost]) hkept
  rw [hop, hvalue] at hcarried
  obtain ⟨δ, hδ⟩ := ht'.embedded
  exact ⟨⟨v, hrec.step hδ hl hlegal.change⟩, hcarried⟩

/-- An indicator with which a value can leave a block. -/
def Handed (f r : Routine) (b : BlockId) (front : List OpId) (t : OpId) (i : ValueId) : Prop :=
  Token f r b front i ∨ Captured f r t i

/-- A region with one block after the pass through it, and the indicators that it hands on: one
for each buffer that the block's last operation sends. -/
structure Prepared (f r : Routine) (g : RegionId) (acquired : List ValueId) (b : BlockId)
    (body : List OpId) (t : OpId) (front : List OpId) : Prop where
  block : f.blocksOf g = [b]
  walked : Walked f r b true body t front
  count : acquired.length = f.bufferCount (f.operandsOf t)
  handed : ∀ i ∈ acquired, Handed f r b front t i

/-- A region after the pass through it. Without a block it hands on nothing. -/
def Ready (f r : Routine) (g : RegionId) (acquired : List ValueId) : Prop :=
  (f.blocksOf g = [] ∧ acquired = []) ∨ ∃ b body t front, Prepared f r g acquired b body t front

theorem Ready.run {acquired : List ValueId} (h : Ready f s.routine g acquired)
    (hrun : Run f F s s') (ht : Threaded f s) (hw : f.WellFormed)
    (ha : ∀ b, f.blocksOf g = [b] → F.Avoids f b) : Ready f s'.routine g acquired := by
  refine h.imp_right ?_
  rintro ⟨b, body, t, front, hp⟩
  have htf := hw.linked.op?_of_listed (o := t) (b := b) (by simp [hp.walked.original])
  refine ⟨b, body, t, front, hp.block, hp.walked.run hrun ht hw.linked (ha b hp.block), hp.count,
    fun i hi => ?_⟩
  rcases hp.handed i hi with htoken | hcaptured
  · exact .inl (htoken.keep hrun.keeps fun _ => id)
  · exact .inr (hcaptured.run hrun ht hw hp.walked.terminator htf)

/-! ## The pass through the regions -/

section Regions

variable {treat : OpPass} {settings : Settings} {kind : ConstructKind}

section

variable (htreat : OpSpec f treat) (hw : f.WellFormed) (hd : f.op? o = some d)
variable (hcons : d.kind.construct?.isSome = true)
include htreat hw hd hcons

theorem throughRegion_spec {out : RegionOutcome} (hat : AtBlocks f s o (f.blocksOf g))
    (hsingle : (f.blocksOf g).length ≤ 1)
    (h : Pass.throughRegion settings treat site kind g s = .ok (out, s')) :
    Run f (.ofBlocks f (f.blocksOf g)) s s' ∧ out.region = g ∧
      Ready f s'.routine g out.outcome.acquired := by
  have ht := hat.threaded
  obtain ⟨args, -, h⟩ := Pass.ask_bind_eq_ok.mp h
  obtain ⟨b?, hb, h⟩ := Pass.ask_bind_eq_ok.mp h
  cases b? with
  | none =>
    cases h
    have hnone := blocksOf_eq_nil hb (by rwa [ht.blocksOf])
    exact ⟨.refl, rfl, .inl ⟨(ht.blocksOf g).symm.trans hnone, rfl⟩⟩
  | some b =>
    have hblocks : f.blocksOf g = [b] := (ht.blocksOf g).symm.trans (singleBlock?_eq_some hb)
    have henters := hat.enters b (by simp [hblocks])
    have hopened : f.Opened b :=
      ⟨o, ⟨hat.visited, by simp [isConstruct_of hd, hcons]⟩, henters⟩
    obtain ⟨outcome, mid, hblock, h⟩ := Pass.bind_eq_ok.mp h
    split at h
    · exact absurd h Pass.reject_ne_ok
    · cases h
      obtain ⟨hrun, body, t, front, hwalked, hcount, htokens⟩ := throughBlock_spec htreat hw ht
        hat.visited henters (fun _ => hopened) (hat.untouched b (by simp [hblocks])) hblock
      exact ⟨hrun.mono (Footprint.ofBlock_within (by simp [hblocks])), rfl,
        .inr ⟨b, body, t, front, hblocks, hwalked, hcount, fun i hi => .inl (htokens i hi)⟩⟩

/-- After the pass through the regions, each of them is ready. -/
theorem throughRegions_spec {gs : List RegionId} {outs : List RegionOutcome}
    (hat : AtBlocks f s o (gs.flatMap f.blocksOf)) (hsingle : ∀ g ∈ gs, (f.blocksOf g).length ≤ 1)
    (h : Pass.throughRegions settings treat site kind gs s = .ok (outs, s')) :
    Run f (.ofBlocks f (gs.flatMap f.blocksOf)) s s' ∧ outs.map (·.region) = gs ∧
      ∀ out ∈ outs, Ready f s'.routine out.region out.outcome.acquired := by
  induction gs generalizing s outs with
  | nil =>
    cases h
    exact ⟨.refl, rfl, by simp⟩
  | cons g rest ih =>
    obtain ⟨first, mid, hfirst, h⟩ := Pass.bind_eq_ok.mp h
    obtain ⟨others, last, hothers, h⟩ := Pass.bind_eq_ok.mp h
    cases h
    rw [List.flatMap_cons] at hat ⊢
    obtain ⟨hrun₁, rfl, hready⟩ := throughRegion_spec htreat hw hd hcons hat.first
      (hsingle g (by simp)) hfirst
    have hat₁ := hat.next hw hrun₁
    obtain ⟨hrun₂, hregions, hready₂⟩ := ih hat₁ (fun g' hg' => hsingle g' (by simp [hg'])) hothers
    refine ⟨(hrun₁.mono (Footprint.ofBlocks_mono fun b => List.mem_append_left _)).trans
      (hrun₂.mono (Footprint.ofBlocks_mono fun b => List.mem_append_right _)),
      congrArg (first.region :: ·) hregions, fun out hmem => ?_⟩
    rcases List.mem_cons.mp hmem with rfl | hmem
    · -- the other regions have nothing in common with the first
      exact hready.run hrun₂ hat₁.threaded hw fun b hb => (hat.avoids hw).2 b (by simp [hb])
    · exact hready₂ out hmem

end

end Regions

/-! ## Agreement of branches -/

/-- An indicator that a branch has prepared and does not hand on after all. If it is the result of
a retain, then the retain stands in a block of the construct, before the last operation there. -/
inductive Displaced (f r : Routine) (o : OpId) (i : ValueId) : Prop
  | argument {b : BlockId} : i ∈ r.argsOf b → Displaced f r o i
  | own {q : OpId} : i ∈ r.resultsOf q → r.kind? q = some .own → Displaced f r o i
  | gone {q : OpId} : i ∈ r.resultsOf q → r.isErased q = true → Displaced f r o i
  | placed {q t : OpId} {b : BlockId} {front : List OpId} : i ∈ r.resultsOf q →
      f.values.size ≤ i.index → f.holder? b = some o → r.opsOf b = front ++ [t] → q ∈ front →
      Displaced f r o i

theorem Handed.displaced (h : Handed f r b front t i) (hholder : f.holder? b = some o)
    (hlist : r.opsOf b = front ++ [t]) : Displaced f r o i := by
  rcases h with htoken | hcaptured
  · rcases htoken.here with harg | ⟨q, hq, hres⟩
    · exact .argument harg
    · exact .placed hres htoken.later hholder hlist hq
  · obtain ⟨v, hrec⟩ := hcaptured.recorded
    cases hrec.companion with
    | arguments _ hi => exact .argument hi
    | results _ hi hkind _ => exact .own hi hkind

/-- A step that only forgets recorded indicators. -/
structure Forgets (s s' : Session) : Prop where
  routine : s'.routine = s.routine
  indicators : s'.aliases.indicators ⊆ s.aliases.indicators
  links : s'.aliases.links = s.aliases.links

namespace Forgets

theorem refl (s : Session) : Forgets s s := ⟨rfl, List.Subset.refl _, rfl⟩

theorem trans {s'' : Session} (h : Forgets s s') (h' : Forgets s' s'') : Forgets s s'' :=
  ⟨h'.routine.trans h.routine, fun _ he => h.indicators (h'.indicators he),
    h'.links.trans h.links⟩

theorem run (h : Forgets s s') : Run f F s s' :=
  .single (.forget h.routine h.indicators (.of_links h.links))

theorem threaded (h : Forgets s s') (ht : Threaded f s) (hw : f.WellFormed) : Threaded f s' :=
  ht.run hw (h.run : Run f .none s s')

end Forgets

section Agreement

variable {acquired acquired' displaced values vs : List ValueId}
variable {regions : List RegionOutcome} {agreed : Reconciled}

theorem sentByBlock_eq_ok (hlist : r.opsOf b = front ++ [t]) (hterm : r.isTerminator t = true)
    (h : r.sentByBlock b = .ok vs) : vs = r.operandsOf t := by
  obtain ⟨t?, ht, h⟩ := bind_eq_ok.mp h
  obtain rfl := terminator?_eq_of hlist hterm ht
  obtain ⟨d, hd, h⟩ := bind_eq_ok.mp h
  cases h
  rw [operandsOf_of (op_eq_ok.mp hd)]

/-- The slot of a value is the number of buffers that are sent before it. -/
theorem yieldSlot?_eq_some {slot : Nat} (h : r.yieldSlot? vs v = .ok (some slot)) :
    ∃ pre post, vs = pre ++ v :: post ∧ r.bufferCount pre = slot := by
  unfold yieldSlot? at h
  split at h
  · cases h
  · rename_i position hposition
    obtain ⟨buffers, hbuffers, h⟩ := bind_eq_ok.mp h
    cases h
    obtain ⟨hlt, hv, -⟩ := List.idxOf?_eq_some_iff.mp hposition
    refine ⟨vs.take position, vs.drop (position + 1), ?_, ?_⟩
    · rw [← hv, ← List.drop_eq_getElem_cons hlt, List.take_append_drop]
    · rw [buffers_eq_ok hbuffers, bufferCount, List.countP_eq_length_filter]

/-- An indicator recorded for a value that a block sends can be used where the block ends. -/
theorem Threaded.captured (ht : Threaded f s) (hw : f.WellFormed)
    (hp : Prepared f s.routine g acquired b body t front) (hreached : f.Reached t)
    (hterm : s.routine.isTerminator t = true) (hv : v ∈ s.routine.operandsOf t)
    (hi : s.aliases.indicatorOf? v = some i) : Captured f s.routine t i := by
  have hrec := ht.recorded v i (AliasClasses.mem_indicators hi)
  have hvis := ht.visible_operand hw hp.walked.list hreached hp.walked.last.live hv
  -- a companion is visible wherever its buffer is, at structural operations
  have hstructural : s.routine.Structural t := by
    obtain ⟨k, hk, hkterm⟩ : ∃ k, s.routine.kind? t = some k ∧ k.isTerminator = true := by
      simpa [isTerminator, Option.any_eq_true] using hterm
    exact .inr ⟨k, hk, hkterm⟩
  exact ⟨⟨v, hrec⟩, b, front, [], hp.walked.list,
    hrec.companion.visible ht.wellFormed.linked hp.walked.list hstructural hvis⟩

/-- A captured value's recorded indicator takes the slot in which the branch yields it. -/
theorem capture_eq_ok (h : Pass.capture site g acquired v s = .ok ((acquired', i), s')) :
    ∃ b bs yielded slot indicator, s.routine.blocksOf g = b :: bs ∧
      s.routine.sentByBlock b = .ok yielded ∧ s.routine.yieldSlot? yielded v = .ok (some slot) ∧
      acquired[slot]? = some i ∧ s.aliases.indicatorOf? v = some indicator ∧
      acquired' = acquired.set slot indicator ∧ s'.routine = s.routine ∧
      s'.aliases = s.aliases.dropIndicator v := by
  obtain ⟨G, hG, h⟩ := Pass.ask_bind_eq_ok.mp h
  have hblocks := region_blocksOf hG
  cases hlist : G.blocks with
  | nil =>
    rw [hlist] at h
    exact absurd h Pass.reject_ne_ok
  | cons b bs =>
    rw [hlist] at h hblocks
    obtain ⟨yielded, hsent, h⟩ := Pass.ask_bind_eq_ok.mp h
    obtain ⟨slot?, hslot, h⟩ := Pass.ask_bind_eq_ok.mp h
    cases slot? with
    | none => exact absurd h Pass.reject_ne_ok
    | some slot =>
      cases hdisplaced : acquired[slot]? with
      | none =>
        simp only [hdisplaced] at h
        exact absurd h Pass.reject_ne_ok
      | some displaced =>
        simp only [hdisplaced] at h
        rw [Pass.aliases_bind_eq_ok] at h
        cases hindicator : s.aliases.indicatorOf? v with
        | none =>
          simp only [hindicator] at h
          exact absurd h Pass.reject_ne_ok
        | some indicator =>
          simp only [hindicator] at h
          obtain ⟨_, mid, hdrop, h⟩ := Pass.bind_eq_ok.mp h
          obtain ⟨hroutine, hdropped⟩ := Pass.modifyAliases_eq_ok hdrop
          cases h
          exact ⟨b, bs, yielded, slot, indicator, hblocks, hsent, hslot, hdisplaced, rfl, rfl,
            hroutine, hdropped⟩

theorem capture_forgets (h : Pass.capture site g acquired v s = .ok ((acquired', i), s')) :
    Forgets s s' := by
  obtain ⟨b, bs, yielded, slot, indicator, -, -, -, -, -, -, hroutine, hdropped⟩ := capture_eq_ok h
  refine ⟨hroutine, ?_, by rw [hdropped]; rfl⟩
  rw [hdropped]
  exact List.filter_sublist.subset

/-- Capturing values one after the other: the first, and then the others. -/
theorem Pass.captureAll_cons {rest : List ValueId}
    (h : captureAll site g (v :: rest) acquired s = .ok ((acquired', displaced), s')) :
    ∃ acquired₁ i others mid, displaced = i :: others ∧
      capture site g acquired v s = .ok ((acquired₁, i), mid) ∧
      captureAll site g rest acquired₁ mid = .ok ((acquired', others), s') := by
  obtain ⟨⟨acquired₁, i⟩, mid, hfirst, h⟩ := Pass.bind_eq_ok.mp h
  obtain ⟨⟨acquired₂, others⟩, last, hrest, h⟩ := Pass.bind_eq_ok.mp h
  cases h
  exact ⟨acquired₁, i, others, mid, rfl, hfirst, hrest⟩

theorem captureAll_forgets
    (h : Pass.captureAll site g values acquired s = .ok ((acquired', displaced), s')) :
    Forgets s s' := by
  induction values generalizing s acquired displaced with
  | nil =>
    cases h
    exact .refl _
  | cons v rest ih =>
    obtain ⟨acquired₁, i, others, mid, -, hfirst, hrest⟩ := Pass.captureAll_cons h
    exact (capture_forgets hfirst).trans (ih hrest)

section

variable (ht : Threaded f s) (hw : f.WellFormed) (hreached : f.Reached o)
variable (hholder : ∀ b ∈ f.blocksOf g, f.holder? b = some o)
variable (hready : Ready f s.routine g acquired)
include ht hw hreached hholder hready

theorem capture_spec (h : Pass.capture site g acquired v s = .ok ((acquired', i), s')) :
    Ready f s.routine g acquired' ∧ Displaced f s.routine o i ∧
      ∀ j ∈ acquired', j ∈ acquired ∨ (v, j) ∈ s.aliases.indicators := by
  obtain ⟨b, bs, yielded, slot, indicator, hblocks, hsent, hslot, hdisplaced, hindicator, rfl,
    -, -⟩ := capture_eq_ok h
  rw [ht.blocksOf g] at hblocks
  rcases hready with ⟨hnone, -⟩ | ⟨c, body, t, front, hp⟩
  · -- a branch without a block captures nothing
    rw [hnone] at hblocks
    cases hblocks
  rw [hp.block] at hblocks
  cases hblocks
  have htf := hw.linked.op?_of_listed (o := t) (b := b) (by simp [hp.walked.original])
  have hterm : s.routine.isTerminator t = true := by
    rw [isTerminator, ht.kind? htf]
    exact hp.walked.terminator
  have hb := hholder b (by simp [hp.block])
  have hparent := (hw.linked.op_listed t b).mp (by simp [hp.walked.original])
  obtain rfl := sentByBlock_eq_ok hp.walked.list hterm hsent
  have hv : v ∈ s.routine.operandsOf t := by
    obtain ⟨pre, post, hsplit, -⟩ := yieldSlot?_eq_some hslot
    simp [hsplit]
  refine ⟨.inr ⟨b, body, t, front, { hp with
    count := by rw [List.length_set, hp.count]
    handed := fun j hj => ?_ }⟩, ?_, fun j hj => ?_⟩
  · rcases List.mem_or_eq_of_mem_set hj with hj | rfl
    · exact hp.handed j hj
    · exact .inr (ht.captured hw hp
        (hreached.step ((up?_of_parent? hparent).trans hb)) hterm hv hindicator)
  · exact (hp.handed _ (List.mem_of_getElem? hdisplaced)).displaced hb hp.walked.list
  · rcases List.mem_or_eq_of_mem_set hj with hj | rfl
    · exact .inl hj
    · exact .inr (AliasClasses.mem_indicators hindicator)

theorem captureAll_spec
    (h : Pass.captureAll site g values acquired s = .ok ((acquired', displaced), s')) :
    Ready f s.routine g acquired' ∧ (∀ i ∈ displaced, Displaced f s.routine o i) ∧
      ∀ j ∈ acquired', j ∈ acquired ∨ ∃ v ∈ values, (v, j) ∈ s.aliases.indicators := by
  induction values generalizing s acquired displaced with
  | nil =>
    cases h
    exact ⟨hready, by simp, fun j hj => .inl hj⟩
  | cons v rest ih =>
    obtain ⟨acquired₁, i, others, mid, rfl, hfirst, hrest⟩ := Pass.captureAll_cons h
    have hforgets := capture_forgets hfirst
    obtain ⟨hready₁, hi, hfrom₁⟩ := capture_spec ht hw hreached hholder hready hfirst
    obtain ⟨hready₂, hothers, hfrom₂⟩ :=
      ih (hforgets.threaded ht hw) (hforgets.routine ▸ hready₁) hrest
    rw [hforgets.routine] at hready₂ hothers
    refine ⟨hready₂, fun j hj => ?_, fun j hj => ?_⟩
    · rcases List.mem_cons.mp hj with rfl | hj
      · exact hi
      · exact hothers j hj
    · rcases hfrom₂ j hj with hj | ⟨w, hw, hrecorded⟩
      · exact (hfrom₁ j hj).imp_right fun hrecorded => ⟨v, by simp, hrecorded⟩
      · exact .inr ⟨w, by simp [hw], hforgets.indicators hrecorded⟩

end

/-- How the regions of a construct come to agree. Those that release the same are left as they are;
of two that do not, each captures what only the other one releases. -/
inductive Reconciles (site : ConstructSite) (s : Session) :
    List RegionOutcome → Reconciled → Session → Prop
  | same {regions : List RegionOutcome} {released : ValueSet} :
      (∀ out ∈ regions, out.outcome.released = released) →
      (∀ v ∈ released, ∃ out ∈ regions, v ∈ out.outcome.released) →
      Reconciles site s regions { released, regions, displaced := [] } s
  | captures {first second : RegionOutcome} {mid s' : Session}
      {firstAcquired secondAcquired fromFirst fromSecond : List ValueId} :
      Pass.captureAll site second.region
          (first.outcome.released.diff second.outcome.released).toList second.outcome.acquired s =
        .ok ((secondAcquired, fromSecond), mid) →
      Pass.captureAll site first.region
          (second.outcome.released.diff first.outcome.released).toList first.outcome.acquired mid =
        .ok ((firstAcquired, fromFirst), s') →
      Reconciles site s [first, second]
        { released := first.outcome.released.union second.outcome.released
          regions :=
            [{ first with outcome := { first.outcome with acquired := firstAcquired } },
             { second with outcome := { second.outcome with acquired := secondAcquired } }]
          displaced := fromSecond ++ fromFirst } s'

theorem reconcile_eq_ok (h : Pass.reconcile site regions s = .ok (agreed, s')) :
    Reconciles site s regions agreed s' := by
  unfold Pass.reconcile at h
  split at h
  · rename_i hempty
    cases h
    refine .same (fun out hout => ?_) fun v hv => absurd hv ValueSet.not_mem_empty
    exact ValueSet.isEmpty_iff.mp (List.all_eq_true.mp hempty out hout)
  · split at h
    · rename_i first second _
      unfold Pass.reconcilePair at h
      simp only at h
      split at h
      · rename_i hsame
        cases h
        exact .same (by simp [hsame]) fun v hv => ⟨first, by simp, hv⟩
      · obtain ⟨⟨secondAcquired, fromSecond⟩, mid, hsecond, h⟩ := Pass.bind_eq_ok.mp h
        obtain ⟨⟨firstAcquired, fromFirst⟩, last, hfirst, h⟩ := Pass.bind_eq_ok.mp h
        cases h
        exact .captures hsecond hfirst
    · exact absurd h Pass.reject_ne_ok

/-- What the regions of a construct are brought to: each of them still hands on what it needs, and
what it hands on instead is recorded for something that is released. -/
structure Agreed (f : Routine) (s : Session) (o : OpId) (outs : List RegionOutcome)
    (agreed : Reconciled) : Prop where
  regions : agreed.regions.map (·.region) = outs.map (·.region)
  args : agreed.regions.map (·.argCount) = outs.map (·.argCount)
  ready : ∀ out ∈ agreed.regions, Ready f s.routine out.region out.outcome.acquired
  displaced : ∀ i ∈ agreed.displaced, Displaced f s.routine o i
  released : ∀ v, v ∈ agreed.released ↔ ∃ out ∈ outs, v ∈ out.outcome.released
  acquired : ∀ out ∈ agreed.regions, ∀ i ∈ out.outcome.acquired,
    (∃ out' ∈ outs, i ∈ out'.outcome.acquired) ∨
      ∃ v ∈ agreed.released, (v, i) ∈ s.aliases.indicators

/-- Bringing branches to agree only forgets what was recorded. -/
theorem reconcile_spec (ht : Threaded f s) (hw : f.WellFormed) (hreached : f.Reached o)
    (hholder : ∀ out ∈ regions, ∀ b ∈ f.blocksOf out.region, f.holder? b = some o)
    (hready : ∀ out ∈ regions, Ready f s.routine out.region out.outcome.acquired)
    (h : Pass.reconcile site regions s = .ok (agreed, s')) :
    Forgets s s' ∧ Agreed f s o regions agreed := by
  cases reconcile_eq_ok h with
  | same hreleased hsource =>
    refine ⟨.refl s, rfl, rfl, hready, by simp, fun v => ⟨hsource v, ?_⟩, fun out hout i hi => ?_⟩
    · rintro ⟨out, hout, hv⟩
      rwa [hreleased out hout] at hv
    · exact .inl ⟨out, hout, hi⟩
  | @captures first second _ _ _ _ _ _ hsecond hfirst =>
    have hforgets := captureAll_forgets hsecond
    obtain ⟨hready₁, hdisplaced₁, hfrom₁⟩ := captureAll_spec ht hw hreached
      (hholder second (by simp)) (hready second (by simp)) hsecond
    -- the second branch has captured first, which only forgets what was recorded
    have hfirstReady := hready first (by simp)
    rw [← hforgets.routine] at hfirstReady
    obtain ⟨hready₂, hdisplaced₂, hfrom₂⟩ :=
      captureAll_spec (hforgets.threaded ht hw) hw hreached (hholder first (by simp)) hfirstReady
        hfirst
    rw [hforgets.routine] at hready₂ hdisplaced₂
    refine ⟨hforgets.trans (captureAll_forgets hfirst), rfl, rfl, ?_, fun i hi => ?_, fun v => ?_,
      fun out hout i hi => ?_⟩
    · simpa using ⟨hready₂, hready₁⟩
    · rcases List.mem_append.mp hi with hi | hi
      · exact hdisplaced₁ i hi
      · exact hdisplaced₂ i hi
    · simp [ValueSet.mem_union]
    · rcases List.mem_cons.mp hout with rfl | hout
      · rcases hfrom₂ i hi with hi | ⟨v, hv, hrecorded⟩
        · exact .inl ⟨first, by simp, hi⟩
        · exact .inr ⟨v, ValueSet.mem_union.mpr (.inr (ValueSet.mem_diff.mp hv).1),
            hforgets.indicators hrecorded⟩
      · rw [List.mem_singleton.mp hout] at hi
        rcases hfrom₁ i hi with hi | ⟨v, hv, hrecorded⟩
        · exact .inl ⟨second, by simp, hi⟩
        · exact .inr ⟨v, ValueSet.mem_union.mpr (.inl (ValueSet.mem_diff.mp hv).1), hrecorded⟩

end Agreement

end BufferOwnership
