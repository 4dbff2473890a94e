import BufferOwnership.Proofs.Walk

/-!
# What a pass consists of

A `Call` is one operation being treated, with the sessions before and after, and a `Transit` one
block being gone through; `Transits` says which transits there are in threading a routine. What a
single stage does is said once: `OpCalls.spec` for a call, `BlockCalls.split` for a transit, and
`throughOp_cases` for the treatment of an operation by its class.
-/

namespace BufferOwnership

open Routine

structure Call where
  op : OpId
  held : Holdings
  before : Session
  out : Outcome
  after : Session

structure Transit where
  block : BlockId
  ownsInputs : Bool
  before : Session
  out : Outcome
  after : Session

/-- What a block holds when a call is over. -/
abbrev Call.heldAfter (c : Call) : Holdings := c.held.absorb c.after.aliases c.out

/-- The stages of a transit. -/
abbrev Transit.Passage (k : Transit) (f : Routine) (settings : Settings) (treat : OpPass) :=
  BlockPass f settings treat k.block k.ownsInputs k.before k.out k.after

/-- The calls in threading through operations in order. -/
inductive OpCalls (treat : OpPass) : List OpId → Holdings → Session → Call → Prop
  | first {o : OpId} {rest : List OpId} {held : Holdings} {s s' : Session} {out : Outcome} :
      treat o held.owned s = .ok (out, s') →
      OpCalls treat (o :: rest) held s ⟨o, held, s, out, s'⟩
  | later {o : OpId} {rest : List OpId} {held : Holdings} {s s' : Session} {out : Outcome}
      {c : Call} : treat o held.owned s = .ok (out, s') →
      OpCalls treat rest (held.absorb s'.aliases out) s' c → OpCalls treat (o :: rest) held s c

namespace Transit

/-- The pass through the block comes to its end. -/
def Goes (settings : Settings) (treat : OpPass) (k : Transit) : Prop :=
  Pass.throughBlock settings treat k.block k.ownsInputs k.before = .ok (k.out, k.after)

/-- The operations of the block but the last are treated, and then the block holds something. -/
def Walks (treat : OpPass) (k : Transit) (body : List OpId) (owned : ValueSet) (opened : Session)
    (held : Holdings) (walked : Session) : Prop :=
  Pass.openBlock k.block k.ownsInputs k.before = .ok (owned, opened) ∧
    opened.routine.bodyOps k.block = .ok body ∧
    Pass.throughOps treat body { owned, released := ∅ } opened = .ok (held, walked)

def Calls (treat : OpPass) (k : Transit) (c : Call) : Prop :=
  ∃ body owned opened held walked, k.Walks treat body owned opened held walked ∧
    OpCalls treat body { owned, released := ∅ } opened c

end Transit

/-- The transits in threading through blocks in order. -/
inductive BlockCalls (settings : Settings) (treat : OpPass) (ownsInputs : Bool) :
    List BlockId → Session → Transit → Prop
  | first {b : BlockId} {rest : List BlockId} {s s' : Session} {out : Outcome} :
      Transit.Goes settings treat ⟨b, ownsInputs, s, out, s'⟩ →
      BlockCalls settings treat ownsInputs (b :: rest) s ⟨b, ownsInputs, s, out, s'⟩
  | later {b : BlockId} {rest : List BlockId} {s s' : Session} {out : Outcome} {k : Transit} :
      Transit.Goes settings treat ⟨b, ownsInputs, s, out, s'⟩ →
      BlockCalls settings treat ownsInputs rest s' k →
      BlockCalls settings treat ownsInputs (b :: rest) s k

/-- The transits in threading ownership through a routine, with the fuel for what is inside. -/
inductive Transits (f : Routine) (settings : Settings) : Nat → Transit → Prop
  | body {k : Transit} : k.before = .start f → k.ownsInputs = false → f.Enters f.root k.block →
      k.Goes settings (Pass.throughOpWithin settings f.ops.size) →
      Transits f settings f.ops.size k
  | inner {fuel : Nat} {K k : Transit} {c : Call} {d : Op} : Transits f settings (fuel + 1) K →
      K.Calls (Pass.throughOpWithin settings (fuel + 1)) c → f.op? c.op = some d →
      f.Enters c.op k.block →
      BlockCalls settings (Pass.throughOpWithin settings fuel) (f.isConstruct c.op)
        (d.regions.flatMap f.blocksOf) c.before k →
      Transits f settings fuel k

variable {f r : Routine} {s s' mid : Session} {b : BlockId} {o q t : OpId} {front rest : List OpId}
variable {i v : ValueId} {d : Op} {settings : Settings} {treat : OpPass} {out : Outcome}
variable {owned : ValueSet} {fuel : Nat}

/-! ## Operations in order -/

section Ops

variable {l : List OpId} {held held' : Holdings} {c : Call}

/-- Every operation of a list that is gone through is called for. -/
theorem exists_opCall (h : Pass.throughOps treat l held s = .ok (held', s')) (hq : q ∈ l) :
    ∃ c, OpCalls treat l held s c ∧ c.op = q := by
  induction l generalizing s held with
  | nil => cases hq
  | cons o rest ih =>
    obtain ⟨out, s₁, hout, h⟩ := throughOps_cons h
    rcases List.mem_cons.mp hq with rfl | hq
    · exact ⟨_, .first hout, rfl⟩
    · rcases ih h hq with ⟨c, hc, hop⟩
      exact ⟨c, .later hout hc, hop⟩

/-- The call for an operation once those before it have been treated. -/
theorem OpCalls.of_split {pre post : List OpId} {after : Session}
    (hpre : Pass.throughOps treat pre held s = .ok (held', s'))
    (ho : treat o held'.owned s' = .ok (out, after)) :
    OpCalls treat (pre ++ o :: post) held s ⟨o, held', s', out, after⟩ := by
  induction pre generalizing s held with
  | nil =>
    cases hpre
    exact .first ho
  | cons p pre ih =>
    obtain ⟨out', s₁, hout, hpre⟩ := throughOps_cons hpre
    exact .later hout (ih hpre)

/-- A call, in its place among the operations of a list that is gone through. -/
structure Calling (f : Routine) (treat : OpPass) (b : BlockId) (t : OpId) (s s' : Session)
    (held' : Holdings) (c : Call) (before : List OpId) (after front : List OpId) : Prop where
  atOps : AtOps f c.before b front (c.op :: after) t c.held.owned
  treats : treat c.op c.held.owned c.before = .ok (c.out, c.after)
  run : Run f (.ofOps f b before) s c.before
  done : ∀ p ∈ before, Done f c.before.routine p
  rest : Pass.throughOps treat after (c.held.absorb c.after.aliases c.out) c.after =
    .ok (held', s')

/-- The operations before and after a call. -/
theorem OpCalls.split (hc : OpCalls treat l held s c) :
    treat c.op c.held.owned c.before = .ok (c.out, c.after) ∧
      ∃ before after, l = before ++ c.op :: after ∧
        Pass.throughOps treat before held s = .ok (c.held, c.before) ∧
        Pass.throughOps treat l held s =
          Pass.throughOps treat after c.heldAfter c.after ∧
        ∀ c', OpCalls treat after c.heldAfter c.after c' → OpCalls treat l held s c' := by
  -- the pass goes on with what the first operation leaves
  have hcons : ∀ {p rest held s s' out}, treat p held.owned s = .ok (out, s') →
      Pass.throughOps treat (p :: rest) held s =
        Pass.throughOps treat rest (held.absorb s'.aliases out) s' :=
    fun hout => Pass.bind_of_ok hout
  induction hc with
  | @first o rest held s s₁ out hout =>
    exact ⟨hout, [], rest, rfl, rfl, hcons hout, fun c' => .later hout⟩
  | @later o rest held s s₁ out c hout _ ih =>
    obtain ⟨htreats, before, after, rfl, hbefore, hrest, hfollows⟩ := ih
    exact ⟨htreats, o :: before, after, rfl, (hcons hout).trans hbefore, (hcons hout).trans hrest,
      fun c' hc' => .later hout (hfollows c' hc')⟩

/-- A call among those of a list, with what comes before and after it. -/
theorem OpCalls.spec (htreat : OpSpec f treat) (hw : f.WellFormed)
    (hat : AtOps f s b front l t held.owned) (hc : OpCalls treat l held s c)
    (h : Pass.throughOps treat l held s = .ok (held', s')) :
    ∃ before after front', l = before ++ c.op :: after ∧
      Calling f treat b t s s' held' c before after front' ∧
      ∀ c', OpCalls treat after c.heldAfter c.after c' → OpCalls treat l held s c' := by
  obtain ⟨htreats, before, after, rfl, hbefore, hrest, hfollows⟩ := hc.split
  obtain ⟨front', hat', hrun, hdone⟩ := hat.walk htreat hw hbefore
  exact ⟨before, after, front', rfl, ⟨hat', htreats, hrun, hdone, hrest ▸ h⟩, hfollows⟩

/-- What every call for an operation of a list keeps holds at each of them, and at the end. -/
theorem throughOps_invariant {P : Holdings → Session → Prop}
    (hstep : ∀ c, OpCalls treat l held s c → P c.held c.before →
      P c.heldAfter c.after)
    (hP : P held s) (h : Pass.throughOps treat l held s = .ok (held', s')) :
    P held' s' ∧ ∀ c, OpCalls treat l held s c → P c.held c.before := by
  induction l generalizing s held with
  | nil =>
    cases h
    exact ⟨hP, fun c hc => by cases hc⟩
  | cons o rest ih =>
    obtain ⟨out, s₁, hout, h⟩ := throughOps_cons h
    have hfirst := hstep _ (.first hout) hP
    rcases ih (fun c hc => hstep c (.later hout hc)) hfirst h with ⟨hend, hcalls⟩
    refine ⟨hend, fun c hc => ?_⟩
    cases hc with
    | first => exact hP
    | later hout' hc =>
      -- a treatment has one result, so the call is one of this pass
      cases hout.symm.trans hout'
      exact hcalls c hc

end Ops

/-! ## Blocks in order -/

section Blocks

variable {bs : List BlockId} {outs : List Outcome} {ownsInputs : Bool} {k : Transit}
variable {regions : List RegionOutcome} {gs : List RegionId}

/-- Blocks are gone through in order, with some outcomes. -/
inductive BlocksPassed (settings : Settings) (treat : OpPass) (ownsInputs : Bool) :
    List BlockId → Session → List Outcome → Session → Prop
  | nil {s : Session} : BlocksPassed settings treat ownsInputs [] s [] s
  | cons {b : BlockId} {rest : List BlockId} {s mid s' : Session} {out : Outcome}
      {outs : List Outcome} : Transit.Goes settings treat ⟨b, ownsInputs, s, out, mid⟩ →
      BlocksPassed settings treat ownsInputs rest mid outs s' →
      BlocksPassed settings treat ownsInputs (b :: rest) s (out :: outs) s'

/-- A block of a treated construct is opened. -/
theorem Routine.Enters.opened (h : f.Enters o b) (hvisited : f.Visited o)
    (hcons : f.isConstruct o = true) : f.Opened b := ⟨o, ⟨hvisited, hcons⟩, h⟩

/-- The first of some blocks of an operation is gone through. What it acquires is known by then. -/
theorem AtBlocks.goes (hat : AtBlocks f s o (b :: bs)) (htreat : OpSpec f treat) (hw : f.WellFormed)
    (howns : ownsInputs = true → f.isConstruct o = true)
    (hgoes : Transit.Goes settings treat ⟨b, ownsInputs, s, out, mid⟩) :
    Run f (.ofBlocks f [b]) s mid ∧ AtBlocks f mid o bs ∧
      ∀ i ∈ out.acquired, i.index < mid.routine.values.size := by
  have hat : AtBlocks f s o ([b] ++ bs) := hat
  have henters := hat.enters b (by simp)
  obtain ⟨hrun, _, _, _, -, -, htokens⟩ := throughBlock_spec htreat hw hat.threaded hat.visited
    henters (fun h => henters.opened hat.visited (howns h)) (hat.untouched b (by simp)) hgoes
  have hrun : Run f (.ofBlocks f [b]) s mid := hrun.mono (Footprint.ofBlock_within (by simp))
  exact ⟨hrun, hat.next hw hrun, fun i hi => (htokens i hi).known⟩

/-- The first of some blocks of an operation is opened. -/
theorem AtBlocks.start (hat : AtBlocks f s o (b :: bs)) (hw : f.WellFormed)
    (howns : ownsInputs = true → f.isConstruct o = true) {owned : ValueSet} {body : List OpId}
    (hfound : s.routine.terminator? b = .ok (some t))
    (hopens : Pass.openBlock b ownsInputs s = .ok (owned, mid))
    (hbody : mid.routine.bodyOps b = .ok body) : BlockStart f b s mid owned body t := by
  have henters := hat.enters b (by simp)
  exact openBlock_start hw hat.threaded hat.visited henters
    (fun h => henters.opened hat.visited (howns h)) (hat.untouched b (by simp)) hfound hopens hbody

section Passed

variable (h : BlocksPassed settings treat ownsInputs bs s outs s')
include h

section

variable (htreat : OpSpec f treat) (hw : f.WellFormed) (hat : AtBlocks f s o bs)
variable (howns : ownsInputs = true → f.isConstruct o = true)
include htreat hw hat howns

/-- The blocks of an operation that are gone through are all that changes. -/
theorem BlocksPassed.run : Run f (.ofBlocks f bs) s s' := by
  induction h with
  | nil => exact .refl
  | @cons b rest s mid s' out outs hgoes _ ih =>
    obtain ⟨hrun, hat', -⟩ := hat.goes htreat hw howns hgoes
    exact (hrun.mono (Footprint.ofBlocks_mono (by simp))).trans
      ((ih hat').mono (Footprint.ofBlocks_mono fun c => List.mem_cons_of_mem _))

/-- What blocks acquire is known when they have been gone through. -/
theorem BlocksPassed.known :
    ∀ out ∈ outs, ∀ i ∈ out.acquired, i.index < s'.routine.values.size := by
  induction h with
  | nil => simp
  | @cons b rest s mid s' out outs hgoes hrest ih =>
    obtain ⟨-, hat', hknown⟩ := hat.goes htreat hw howns hgoes
    intro out' hout' i hi
    rcases List.mem_cons.mp hout' with rfl | hout'
    · have hrun := hrest.run htreat hw hat' howns
      exact Nat.lt_of_lt_of_le (hknown i hi) hrun.keeps.size_values
    · exact ih hat' out' hout' i hi

end

/-- Going through blocks has one outcome. -/
theorem BlocksPassed.unique {outs' : List Outcome} {s'' : Session}
    (h' : BlocksPassed settings treat ownsInputs bs s outs' s'') : outs = outs' ∧ s' = s'' := by
  induction h generalizing outs' with
  | nil =>
    cases h'
    exact ⟨rfl, rfl⟩
  | cons hgoes _ ih =>
    cases h' with
    | cons hgoes' hrest =>
      cases hgoes.symm.trans hgoes'
      obtain ⟨rfl, rfl⟩ := ih hrest
      exact ⟨rfl, rfl⟩

/-- Every block that is gone through is one of the transits. -/
theorem BlocksPassed.exists_transit
    (hb : b ∈ bs) : ∃ k, BlockCalls settings treat ownsInputs bs s k ∧ k.block = b := by
  induction h with
  | nil => cases hb
  | cons hgoes _ ih =>
    rcases List.mem_cons.mp hb with rfl | hb
    · exact ⟨_, .first hgoes, rfl⟩
    · rcases ih hb with ⟨k, hk, hblock⟩
      exact ⟨k, .later hgoes hk, hblock⟩

end Passed

/-- The blocks before and after a transit. -/
theorem BlockCalls.split (hk : BlockCalls settings treat ownsInputs bs s k)
    (h : BlocksPassed settings treat ownsInputs bs s outs s') :
    k.ownsInputs = ownsInputs ∧ k.Goes settings treat ∧
      ∃ bs₁ bs₂ outs₁ outs₂, bs = bs₁ ++ k.block :: bs₂ ∧ outs = outs₁ ++ k.out :: outs₂ ∧
        BlocksPassed settings treat ownsInputs bs₁ s outs₁ k.before ∧
        BlocksPassed settings treat ownsInputs bs₂ k.after outs₂ s' ∧
        ∀ k', BlockCalls settings treat ownsInputs bs₂ k.after k' →
          BlockCalls settings treat ownsInputs bs s k' := by
  induction hk generalizing outs with
  | @first b rest s mid out hgoes =>
    cases h with
    | cons hgoes' hrest =>
      cases hgoes.symm.trans hgoes'
      exact ⟨rfl, hgoes, [], rest, [], _, rfl, rfl, .nil, hrest, fun k' => .later hgoes⟩
  | @later b rest s mid out k hgoes _ ih =>
    cases h with
    | cons hgoes' hrest =>
      cases hgoes.symm.trans hgoes'
      rcases ih hrest with ⟨howns, hk, bs₁, bs₂, outs₁, outs₂, rfl, rfl, hbefore, hafter, hlater⟩
      exact ⟨howns, hk, b :: bs₁, bs₂, out :: outs₁, outs₂, rfl, rfl, .cons hgoes hbefore, hafter,
        fun k' hk' => .later hgoes (hlater k' hk')⟩

theorem BlockCalls.mem (h : BlockCalls settings treat ownsInputs bs s k) : k.block ∈ bs := by
  induction h with
  | first _ => exact List.mem_cons_self
  | later _ _ ih => exact List.mem_cons_of_mem _ ih

/-- A block is gone through once. -/
theorem BlockCalls.unique {k' : Transit} (h : BlockCalls settings treat ownsInputs bs s k)
    (h' : BlockCalls settings treat ownsInputs bs s k') (hnodup : bs.Nodup)
    (hblock : k.block = k'.block) : k = k' := by
  induction h with
  | first hgoes =>
    cases h' with
    | first hgoes' =>
      cases hgoes.symm.trans hgoes'
      rfl
    | later _ h' =>
      have hmem := h'.mem
      rw [← hblock] at hmem
      exact absurd hmem (List.nodup_cons.mp hnodup).1
  | later hgoes h ih =>
    cases h' with
    | first _ =>
      have hmem := h.mem
      rw [hblock] at hmem
      exact absurd hmem (List.nodup_cons.mp hnodup).1
    | later hgoes' h' =>
      cases hgoes.symm.trans hgoes'
      exact ih h' (List.nodup_cons.mp hnodup).2 hblock

/-- The regions of a construct are gone through in order, each by its block if it has one. -/
inductive RegionsPassed (f : Routine) (settings : Settings) (treat : OpPass) :
    List RegionId → Session → List RegionOutcome → Session → Prop
  | nil {s : Session} : RegionsPassed f settings treat [] s [] s
  | empty {g : RegionId} {rest : List RegionId} {s s' : Session} {regions : List RegionOutcome} :
      f.blocksOf g = [] → RegionsPassed f settings treat rest s regions s' →
      RegionsPassed f settings treat (g :: rest) s (⟨g, 0, .none⟩ :: regions) s'
  | block {g : RegionId} {b : BlockId} {rest : List RegionId} {s mid s' : Session} {out : Outcome}
      {regions : List RegionOutcome} : f.blocksOf g = [b] →
      Transit.Goes settings treat ⟨b, true, s, out, mid⟩ →
      RegionsPassed f settings treat rest mid regions s' →
      RegionsPassed f settings treat (g :: rest) s (⟨g, (f.argsOf b).length, out⟩ :: regions) s'

/-- A pass through regions is one through their blocks. -/
theorem RegionsPassed.blocks (h : RegionsPassed f settings treat gs s regions s') :
    ∃ outs, BlocksPassed settings treat true (gs.flatMap f.blocksOf) s outs s' ∧
      (∀ out ∈ outs, ∃ region ∈ regions, region.outcome = out) ∧
      ∀ region ∈ regions, region.outcome = .none ∨ region.outcome ∈ outs := by
  induction h with
  | nil => exact ⟨[], .nil, by simp, by simp⟩
  | empty hnone _ ih =>
    -- such a region has an outcome of its own, which no block gave
    rcases ih with ⟨outs, hpassed, hto, hfrom⟩
    refine ⟨outs, by simpa [hnone] using hpassed, fun out hout => ?_, by simpa using hfrom⟩
    rcases hto out hout with ⟨region, hmem, hout⟩
    exact ⟨region, by simp [hmem], hout⟩
  | @block g b rest s mid s' out regions hblock hgoes _ ih =>
    rcases ih with ⟨outs, hpassed, hto, hfrom⟩
    refine ⟨out :: outs, ?_, ?_, ?_⟩
    · rw [List.flatMap_cons, hblock]
      exact .cons hgoes hpassed
    · intro out' hout'
      rcases List.mem_cons.mp hout' with rfl | hout'
      · exact ⟨_, List.mem_cons_self, rfl⟩
      · rcases hto out' hout' with ⟨region, hmem, hout⟩
        exact ⟨region, by simp [hmem], hout⟩
    · intro region hmem
      rcases List.mem_cons.mp hmem with rfl | hmem
      · exact .inr (by simp)
      · exact (hfrom region hmem).imp_right (List.mem_cons_of_mem _)

/-- The regions of a construct are gone through by their blocks, and a loop releases nothing. -/
theorem throughRegions_passed {site : ConstructSite} {kind : ConstructKind}
    (htreat : OpSpec f treat) (hw : f.WellFormed) (hd : f.op? o = some d)
    (hcons : d.kind.construct?.isSome = true) (hat : AtBlocks f s o (gs.flatMap f.blocksOf))
    (hsingle : ∀ g ∈ gs, (f.blocksOf g).length ≤ 1)
    (h : Pass.throughRegions settings treat site kind gs s = .ok (regions, s')) :
    RegionsPassed f settings treat gs s regions s' ∧
      (kind = .loop → ∀ region ∈ regions, region.outcome.released = ∅) := by
  induction gs generalizing s regions with
  | nil =>
    cases h
    exact ⟨.nil, by simp⟩
  | cons g rest ih =>
    obtain ⟨first, mid, hfirst, h⟩ := Pass.bind_eq_ok.mp h
    obtain ⟨others, last, hothers, h⟩ := Pass.bind_eq_ok.mp h
    cases h
    rw [List.flatMap_cons] at hat
    obtain ⟨hrun, -⟩ := throughRegion_spec htreat hw hd hcons hat.first (hsingle g (by simp)) hfirst
    obtain ⟨hpassed, hloop⟩ :=
      ih (hat.next hw hrun) (fun g' hg' => hsingle g' (by simp [hg'])) hothers
    obtain ⟨args, hargs, hfirst⟩ := Pass.ask_bind_eq_ok.mp hfirst
    obtain ⟨b?, hb?, hfirst⟩ := Pass.ask_bind_eq_ok.mp hfirst
    have hblocks := hat.threaded.blocksOf g
    have hargs := regionArgs_eq_ok hargs
    cases b? with
    | none =>
      cases hfirst
      have hnone := blocksOf_eq_nil hb? (by rw [hblocks]; exact hsingle g (by simp))
      have hcount : args.length = 0 := by simp [hargs, hnone]
      rw [hcount]
      refine ⟨.empty (hblocks.symm.trans hnone) hpassed, fun hkind region hmem => ?_⟩
      rcases List.mem_cons.mp hmem with rfl | hmem
      · rfl
      · exact hloop hkind region hmem
    | some b =>
      have hblock : f.blocksOf g = [b] := hblocks.symm.trans (singleBlock?_eq_some hb?)
      obtain ⟨outcome, mid', hgoes, hfirst⟩ := Pass.bind_eq_ok.mp hfirst
      split at hfirst
      · exact absurd hfirst Pass.reject_ne_ok
      · rename_i hallowed
        cases hfirst
        have hcount : args.length = (f.argsOf b).length := by
          rw [hargs, hblocks, hblock, ← (hat.untouched b (by simp [hblock])).args]
          rfl
        rw [hcount]
        refine ⟨.block hblock hgoes hpassed, fun hkind region hmem => ?_⟩
        rcases List.mem_cons.mp hmem with rfl | hmem
        · -- a loop with a block that releases something is rejected
          exact ValueSet.isEmpty_iff.mp (by simpa [hkind] using hallowed)
        · exact hloop hkind region hmem

/-- Blocks of unknown control flow are gone through one by one, and release and acquire nothing. -/
theorem throughUnknownBlocks_passed
    (h : Pass.throughUnknownBlocks settings treat o bs s = .ok (out, s')) :
    out = .none ∧ ∃ outs, BlocksPassed settings treat false bs s outs s' ∧
      ∀ out ∈ outs, out.released = ∅ ∧ out.acquired = [] := by
  induction bs generalizing s with
  | nil =>
    cases h
    exact ⟨rfl, [], .nil, by simp⟩
  | cons b rest ih =>
    obtain ⟨first, mid, hgoes, h⟩ := Pass.bind_eq_ok.mp h
    split at h
    · rename_i hempty
      obtain ⟨hacquired, hreleased⟩ := Bool.and_eq_true_iff.mp hempty
      rcases ih h with ⟨hnone, outs, hpassed, houts⟩
      refine ⟨hnone, first :: outs, .cons hgoes hpassed, fun out hout => ?_⟩
      rcases List.mem_cons.mp hout with rfl | hout
      · exact ⟨ValueSet.isEmpty_iff.mp hreleased, List.isEmpty_iff.mp hacquired⟩
      · exact houts out hout
    · obtain ⟨_, _, -, h⟩ := Pass.bind_eq_ok.mp h
      exact absurd h Pass.reject_ne_ok

end Blocks

/-- A transit of a block of an operation that is called for. -/
theorem Transits.of_blockCalls {K k : Transit} {c : Call} {outs : List Outcome}
    (hK : Transits f settings (fuel + 1) K)
    (hc : K.Calls (Pass.throughOpWithin settings (fuel + 1)) c) (hd : f.op? c.op = some d)
    (hat : AtBlocks f c.before c.op (d.regions.flatMap f.blocksOf))
    (hpassed : BlocksPassed settings (Pass.throughOpWithin settings fuel) (f.isConstruct c.op)
      (d.regions.flatMap f.blocksOf) c.before outs mid)
    (hk : BlockCalls settings (Pass.throughOpWithin settings fuel) (f.isConstruct c.op)
      (d.regions.flatMap f.blocksOf) c.before k) : Transits f settings fuel k := by
  obtain ⟨-, -, bs₁, bs₂, _, _, hbs, -⟩ := hk.split hpassed
  exact .inner hK hc hd (hat.enters k.block (by simp [hbs])) hk

/-! ## The treatment of an operation -/

/-- An operation frees a value, as the one at the given place among those that it frees. -/
def Routine.FreesAt (r : Routine) (o : OpId) (n : Nat) (v : ValueId) : Prop :=
  ∃ d, r.op? o = some d ∧ d.freed[n]? = some v

instance Routine.FreesAt.decidable (r : Routine) (o : OpId) (n : Nat) (v : ValueId) :
    Decidable (r.FreesAt o n v) :=
  decidable_of_iff ((r.op? o).bind (fun d => d.freed[n]?) = some v) Option.bind_eq_some_iff

def Routine.Frees (r : Routine) (o : OpId) (v : ValueId) : Prop :=
  ∃ d, r.op? o = some d ∧ v ∈ d.freed

theorem Routine.FreesAt.frees {n : Nat} (h : r.FreesAt o n v) : r.Frees o v := by
  obtain ⟨d, hd, hv⟩ := h
  exact ⟨d, hd, List.mem_of_getElem? hv⟩

/-- What the treatment of an operation does, by the class of the operation. -/
inductive OpCase (f : Routine) (settings : Settings) (treat : OpPass) (o : OpId) (d : Op)
    (owned : ValueSet) (b : BlockId) (front rest : List OpId) (s : Session) (out : Outcome)
    (s' : Session) : Prop
  | effects (next : OpId) (post : List OpId) : d.classify = .effects d.allocated d.freed →
      rest = next :: post → Pass.ownAll (.before next) d.allocated s = .ok (out.acquired, s') →
      (∀ v, v ∈ out.released ↔ s.routine.Frees o v) →
      OpCase f settings treat o d owned b front rest s out s'
  | plain (pairs : List (ValueId × ValueId)) : d.classify = .plain → out = .none →
      s'.routine = s.routine → s'.aliases = s.aliases.unionAll pairs →
      s.routine.plainAliases o = .ok pairs → s'.tally = s.tally →
      OpCase f settings treat o d owned b front rest s out s'
  | unknown (outs : List Outcome) : d.classify = .unknownRegions → out = .none →
      AtBlocks f s o (d.regions.flatMap f.blocksOf) →
      BlocksPassed settings treat false (d.regions.flatMap f.blocksOf) s outs s' →
      (∀ out ∈ outs, out.released = ∅ ∧ out.acquired = []) →
      OpCase f settings treat o d owned b front rest s out s'
  | construct (kind : ConstructKind) (site : ConstructSite) (outs : List Outcome)
      (regions : List RegionOutcome) (mid : Session) : d.kind.construct? = some kind →
      AtBlocks f s o (d.regions.flatMap f.blocksOf) →
      BlocksPassed settings treat true (d.regions.flatMap f.blocksOf) s outs mid →
      (∀ out ∈ outs, ∃ region ∈ regions, region.outcome = out) →
      (∀ region ∈ regions, region.outcome = .none ∨ region.outcome ∈ outs) →
      (∀ region ∈ regions, Ready f mid.routine region.region region.outcome.acquired) →
      (kind = .loop → ∀ out ∈ outs, out.released = ∅) →
      Nonempty (ConstructPass f settings o d owned site regions mid b front rest out s') →
      RegionsPassed f settings treat d.regions s regions mid →
      OpCase f settings treat o d owned b front rest s out s'

/-- What an operation comes to, by its class. -/
theorem throughOp_cases (htreat : OpSpec f treat) (hw : f.WellFormed) (hd : f.op? o = some d)
    (hat : AtOp f s o owned b front rest)
    (h : Pass.throughOp settings treat o owned s = .ok (out, s')) :
    OpCase f settings treat o d owned b front rest s out s' := by
  obtain ⟨τ, hentry⟩ := hat.entry hw hd
  rw [Pass.throughOp_of hentry, Op.classify_map] at h
  have hspec := d.classify_spec
  cases hclass : d.classify with
  | construct kind =>
    simp only [hclass, Pass.byClass] at h hspec
    have hcons : d.kind.construct?.isSome = true := by simp [hspec]
    obtain ⟨walk⟩ := throughConstruct_stages hw hd hcons htreat hat h
    obtain ⟨hregions, hloop⟩ :=
      throughRegions_passed htreat hw hd hcons walk.atBlocks walk.single walk.regions
    rcases hregions.blocks with ⟨outs, hpassed, hto, hfrom⟩
    refine .construct kind walk.site outs walk.outs walk.mid hspec walk.atBlocks hpassed hto hfrom
      walk.ready (fun hkind out hout => ?_) ⟨walk.pass⟩ hregions
    rcases hto out hout with ⟨region, hmem, rfl⟩
    exact hloop hkind region hmem
  | effects allocated freed =>
    simp only [hclass, Pass.byClass] at h hspec
    obtain ⟨-, rfl, rfl⟩ := hspec
    obtain ⟨next, post, hrest, hreleased, hown⟩ := hat.throughEffects h
    refine .effects next post hclass hrest hown fun v => ?_
    rw [hreleased, ValueSet.mem_ofList, ← Op.freed_map]
    constructor
    · exact fun hv => ⟨_, hentry, hv⟩
    · rintro ⟨e, he, hv⟩
      obtain rfl := Option.mem_unique he hentry
      exact hv
  | routine => exact absurd hclass (hat.not_routine hw hd)
  | unknownRegions =>
    simp only [hclass, Pass.byClass] at h
    rw [throughUnknownRegions_split hw hd hat h] at h
    rcases throughUnknownBlocks_passed h with ⟨hnone, outs, hpassed, houts⟩
    exact .unknown outs hclass hnone
      (hat.atBlocks hw hd fun c => (enters_iff_of_unknown hd hclass).mp) hpassed houts
  | plain =>
    simp only [hclass, Pass.byClass] at h
    obtain ⟨hnone, hroutine, ⟨pairs, hpairs, haliases⟩, htally⟩ := throughPlain_eq_ok h
    exact .plain pairs hclass hnone hroutine haliases hpairs htally

/-- The treatment of an operation at any depth. -/
theorem throughOpWithin_cases (hw : f.WellFormed) (hd : f.op? o = some d)
    (hat : AtOp f s o owned b front rest)
    (h : Pass.throughOpWithin settings fuel o owned s = .ok (out, s')) :
    ∃ n, fuel = n + 1 ∧
      OpCase f settings (Pass.throughOpWithin settings n) o d owned b front rest s out s' := by
  cases fuel with
  | zero => cases h
  | succ n => exact ⟨n, rfl, throughOp_cases (throughOpWithin_spec hw settings n) hw hd hat h⟩

end BufferOwnership
