import BufferOwnership.Proofs.Names

/-!
# The stages of a run

Threading changes a session at five points only: where a block is opened or closed, where an
operation with effects or a plain one is treated, and where a construct is finished. A `Stage` is
one of these, with what is known where it begins; the constructs before it have been rebuilt by
then. Every pass that comes to its end is a sequence of stages, so what each stage keeps holds at
the end.
-/

namespace BufferOwnership

open Routine

variable {f : Routine} {s s' final : Session} {b : BlockId} {o t x : OpId}
variable {front before l : List OpId} {settings : Settings} {treat : OpPass} {out : Outcome}

/-- The outcomes of a construct's regions, in order, with how many arguments each had at first. -/
structure Sited (f : Routine) (gs : List RegionId) (outs : List RegionOutcome) : Prop where
  regions : outs.map (·.region) = gs
  args : ∀ out ∈ outs, (f.blocksOf out.region = [] ∧ out.argCount = 0) ∨
    ∃ b, f.blocksOf out.region = [b] ∧ out.argCount = (f.argsOf b).length

theorem RegionsPassed.sited {gs : List RegionId} {regions : List RegionOutcome}
    (h : RegionsPassed f settings treat gs s regions s') : Sited f gs regions := by
  induction h with
  | nil => exact ⟨rfl, by simp⟩
  | empty hnone _ ih =>
    refine ⟨congrArg _ ih.regions, fun region hmem => ?_⟩
    rcases List.mem_cons.mp hmem with rfl | hmem
    · exact .inl ⟨hnone, rfl⟩
    · exact ih.args region hmem
  | @block g b _ _ _ _ _ _ hblock _ _ ih =>
    refine ⟨congrArg _ ih.regions, fun region hmem => ?_⟩
    rcases List.mem_cons.mp hmem with rfl | hmem
    · exact .inr ⟨b, hblock, rfl⟩
    · exact ih.args region hmem

/-- A point at which threading changes a session. -/
inductive Stage (f : Routine) (settings : Settings) : Session → Session → Prop
  | opens {s s' : Session} {b : BlockId} {owned : ValueSet} : Threaded f s → f.Opened b →
      s.routine.argsOf b = f.argsOf b → Pass.openBlock b true s = .ok (owned, s') →
      Stage f settings s s'
  | effects {s s' : Session} {o next : OpId} {d : Op} {owned : ValueSet} {b : BlockId}
      {front post : List OpId} {indicators : List ValueId} :
      AtOp f s o owned b front (next :: post) → f.op? o = some d →
      d.classify = .effects d.allocated d.freed →
      Pass.ownAll (.before next) d.allocated s = .ok (indicators, s') → Stage f settings s s'
  | plain {s s' : Session} {o : OpId} {d : Op} {owned : ValueSet} {b : BlockId}
      {front rest : List OpId} {pairs : List (ValueId × ValueId)} :
      AtOp f s o owned b front rest → Cleared f s.routine o → f.op? o = some d →
      d.classify = .plain → s.routine.plainAliases o = .ok pairs → s'.routine = s.routine →
      s'.aliases = s.aliases.unionAll pairs → s'.tally = s.tally → Stage f settings s s'
  | closes {s s' : Session} {b : BlockId} {t : OpId} {front : List OpId} {owned : ValueSet}
      {acquired : List ValueId} : Threaded f s → s.routine.opsOf b = front ++ [t] →
      f.Reached t → Intact f s.routine t → (∀ i ∈ owned, Token f s.routine b front i) →
      Cleared f s.routine t → Pass.closeBlock settings t owned s = .ok (acquired, s') →
      Stage f settings s s'
  | finishes {s s' : Session} {o : OpId} {d : Op} {owned : ValueSet} {site : ConstructSite}
      {regions : List RegionOutcome} {b : BlockId} {front rest : List OpId} {out : Outcome} :
      Threaded f s → f.VisitedConstruct o → f.op? o = some d → Cleared f s.routine o →
      Sited f d.regions regions →
      ConstructPass f settings o d owned site regions s b front rest out s' →
      Done f s'.routine o → Stage f settings s s'

def Stages (f : Routine) (settings : Settings) : Session → Session → Prop :=
  Relation.ReflTransGen (Stage f settings)

/-! ## Stages are runs -/

/-- What is known before a stage, and what it changes. -/
theorem Stage.spec (h : Stage f settings s s') (hw : f.WellFormed) :
    Threaded f s ∧ Run f .all s s' := by
  cases h with
  | opens ht hopened hargs hopens =>
    exact ⟨ht, (openBlock_spec hw (fun _ => hopened) ht hargs hopens).1.anywhere⟩
  | @effects o next d owned b front post indicators hat hd hclass hown =>
    have hlist : s.routine.opsOf b = front ++ o :: ([] ++ next :: post) := hat.list
    obtain ⟨owns, hrun, -⟩ := ownAll_spec hw hat.threaded hlist (by simp)
      (fun v hv => ⟨hat.allocated_results hw hd v hv, o, d, hat.visited, hd, hat.parent, hv⟩) hown
    exact ⟨hat.threaded, hrun.anywhere⟩
  | plain hat _ _ _ _ hroutine haliases =>
    exact ⟨hat.threaded, Run.unionAll hroutine haliases⟩
  | closes ht hlist hreached hlast htokens _ hcloses =>
    obtain ⟨-, front', hins, -⟩ :=
      Pass.closeBlock_inserts hw ht hlist hreached hlast.live htokens hcloses
    exact ⟨ht, hins.run.anywhere⟩
  | finishes ht _ _ _ _ pass _ => exact ⟨ht, pass.run⟩

theorem Stages.run (h : Stages f settings s s') (hw : f.WellFormed) : Run f .all s s' := by
  induction h with
  | refl => exact .refl
  | tail _ hstage ih => exact ih.trans (hstage.spec hw).2

/-- What is made in the course of some stages is made in one of them. -/
theorem Stages.exists_made (h : Stages f settings s final) (hbefore : s.routine.op? x = none)
    (hafter : final.routine.op? x ≠ none) :
    ∃ s₁ s₂, Stage f settings s₁ s₂ ∧ s₁.routine.op? x = none ∧ s₂.routine.op? x ≠ none ∧
      Stages f settings s₂ final := by
  induction h using Relation.ReflTransGen.head_induction_on with
  | refl => exact absurd hbefore hafter
  | @head s mid hstage hrest ih =>
    by_cases hmid : mid.routine.op? x = none
    · exact ih hmid
    · exact ⟨s, mid, hstage, hbefore, hmid, hrest⟩

/-! ## Passes are stages -/

/-- A treatment comes to its end in stages, wherever the constructs before have been rebuilt. -/
def Staged (f : Routine) (settings : Settings) (treat : OpPass) : Prop :=
  ∀ {o : OpId} {owned : ValueSet} {s s' : Session} {out : Outcome} {b : BlockId}
    {front rest : List OpId}, AtOp f s o owned b front rest → Cleared f s.routine o →
    treat o owned s = .ok (out, s') → Stages f settings s s'

section Passes

variable {ownsInputs : Bool}

variable (hw : f.WellFormed) (htreat : OpSpec f treat) (hstaged : Staged f settings treat)
include hw htreat hstaged

theorem throughOps_stages {held held' : Holdings} (hat : AtOps f s b front l t held.owned)
    (hlist : f.opsOf b = before ++ (l ++ [t]))
    (hbefore : ∀ p ∈ before, f.VisitedConstruct p → s.routine.isErased p = true)
    (hholder : f.holder? b = some o) (hcleared : Cleared f s.routine o)
    (h : Pass.throughOps treat l held s = .ok (held', s')) :
    Stages f settings s s' ∧ Cleared f s'.routine t := by
  induction l generalizing s front held before with
  | nil =>
    cases h
    exact ⟨.refl, hcleared.in_block hw.linked hholder hlist hbefore⟩
  | cons q l ih =>
    obtain ⟨out, mid, hout, h⟩ := throughOps_cons h
    obtain ⟨front', hat', hrun, hdone⟩ := hat.next htreat hw hout
    have hfirst : Stages f settings s mid := by
      apply hstaged hat.first _ hout
      exact hcleared.in_block hw.linked hholder hlist hbefore
    -- the operation joins those before the next one
    have hlist' : f.opsOf b = (before ++ [q]) ++ (l ++ [t]) := by simpa using hlist
    obtain ⟨hrest, hlast⟩ := ih hat' hlist'
      (fun p hp hvisited => by
        rcases List.mem_append.mp hp with hp | hp
        · exact hrun.keeps.isErased (hbefore p hp hvisited)
        · obtain rfl := List.mem_singleton.mp hp
          exact (hdone p .refl hvisited.2).1)
      (hcleared.keep hrun.keeps) h
    exact ⟨hfirst.trans hrest, hlast⟩

theorem BlockPass.stages (pass : BlockPass f settings treat b ownsInputs s out s')
    (ht : Threaded f s) (hargs : s.routine.argsOf b = f.argsOf b)
    (hopened : ownsInputs = true → f.Opened b) (hholder : f.holder? b = some o)
    (hcleared : Cleared f s.routine o) : Stages f settings s s' := by
  have hopens : Stages f settings s pass.opened := by
    cases ownsInputs with
    | true => exact .single (.opens ht (hopened rfl) hargs pass.opens)
    | false =>
      -- a block that does not own its arguments is opened as it is
      obtain ⟨-, hsame⟩ := Pass.pure_eq_ok.mp pass.opens
      rw [← hsame]
      exact .refl
  have hlist : f.opsOf b = [] ++ (pass.body ++ [pass.t]) := pass.original
  obtain ⟨hwalks, hlast⟩ := throughOps_stages hw htreat hstaged pass.atOps hlist (by simp) hholder
    (hcleared.keep pass.run_opens.keeps) pass.walks
  exact (hopens.trans hwalks).trans (.single
    (.closes pass.threaded pass.list pass.reached pass.last pass.tokens hlast pass.closes))

theorem BlocksPassed.stages {bs : List BlockId} {outs : List Outcome}
    (h : BlocksPassed settings treat ownsInputs bs s outs s') (hat : AtBlocks f s o bs)
    (howns : ownsInputs = true → f.isConstruct o = true) (hcleared : Cleared f s.routine o) :
    Stages f settings s s' := by
  induction h with
  | nil => exact .refl
  | @cons b rest s mid s' out outs hgoes _ ih =>
    have henters := hat.enters b (by simp)
    have huntouched := hat.untouched b (by simp)
    have hopened : ownsInputs = true → f.Opened b := fun h =>
      henters.opened hat.visited (howns h)
    obtain ⟨pass⟩ := throughBlock_stages htreat hw hat.threaded hat.visited henters hopened
      huntouched hgoes
    have hfirst := pass.stages hw htreat hstaged hat.threaded huntouched.args hopened
      (henters.holder? hw.linked) hcleared
    obtain ⟨hrun, hat', -⟩ := hat.goes htreat hw howns hgoes
    exact hfirst.trans (ih hat' (hcleared.keep hrun.keeps))

/-- The treatment of an operation comes to its end in stages, if that of those inside does. -/
theorem throughOp_staged : Staged f settings (Pass.throughOp settings treat) := by
  intro o owned s s' out b front rest hat hcleared h
  obtain ⟨d, hd, -⟩ := exists_op?_of_parent? hat.parent
  have hcase := throughOp_cases htreat hw hd hat h
  cases hcase with
  | effects next post hclass hrest hown _ =>
    subst hrest
    exact .single (.effects hat hd hclass hown)
  | plain pairs hclass _ hroutine haliases hpairs htally =>
    exact .single (.plain hat hcleared hd hclass hpairs hroutine haliases htally)
  | unknown outs _ _ hblocks hpassed _ =>
    exact hpassed.stages hw htreat hstaged hblocks (by simp) hcleared
  | construct kind site outs regions mid hkind hblocks hpassed _ _ _ _ hpass hregions =>
    obtain ⟨pass⟩ := hpass
    have hcons : f.isConstruct o = true := by simp [isConstruct_of hd, hkind]
    have hrun := hpassed.run htreat hw hblocks fun _ => hcons
    obtain ⟨_, -, -, -, hdone⟩ := throughOp_spec htreat hw hat h
    refine (hpassed.stages hw htreat hstaged hblocks (fun _ => hcons) hcleared).trans (.single ?_)
    exact .finishes (hat.threaded.run hw hrun) ⟨hat.visited, hcons⟩ hd (hcleared.keep hrun.keeps)
      hregions.sited pass hdone

end Passes

theorem throughOpWithin_staged (hw : f.WellFormed) (settings : Settings) (fuel : Nat) :
    Staged f settings (Pass.throughOpWithin settings fuel) := by
  induction fuel with
  | zero =>
    intro o owned s s' out b front rest _ _ h
    cases h
  | succ fuel ih => exact throughOp_staged hw (throughOpWithin_spec hw settings fuel) ih

/-- A run from the root is a sequence of stages. -/
theorem threadFromRoot_stages (hw : f.WellFormed)
    (hroot : f.threadFromRoot settings = .ok (out, final)) :
    Stages f settings (.start f) final := by
  obtain ⟨b, outcome, henters, hgoes, -⟩ := threadFromRoot_block hw hroot
  have hholder := henters.holder? hw.linked
  have huntouched := BlockUntouched.start hw henters
  have htreat : OpSpec f _ := throughOpWithin_spec hw settings f.ops.size
  obtain ⟨pass⟩ :=
    throughBlock_stages htreat hw (.start hw) .refl henters (by simp) huntouched hgoes
  exact pass.stages hw htreat (throughOpWithin_staged hw settings _) (.start hw) huntouched.args
    (by simp) hholder (.root hw)

end BufferOwnership
