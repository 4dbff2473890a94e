import BufferOwnership.Proofs.BlockWalk
import BufferOwnership.Proofs.Lockstep

/-!
# Blocks in lockstep

Two runs go through a block side by side. Until the block is closed its list is the same on both
sides; closing it puts the releases in, each run where it likes. `Standing` keeps what is inside an
operation in reach, `OpsAgree` is what is assumed about the operations of a block, and
`throughBlock_agree` what follows for the block.
-/

namespace BufferOwnership

open Routine Pass

variable {f r r' : Routine} {s₁ s₂ s₁' s₂' : Session} {b c : BlockId} {h o p t x : OpId}
variable {v i : ValueId} {P : BlockId → Prop} {group : EscapeGroup} {owned : ValueSet}

/-! ## Around an operation -/

/-- What is around a reached operation is reached. -/
theorem Routine.Reached.around (hroot : f.parent? f.root = none) (ho : f.Reached o)
    (hin : f.Inside p o) : f.Reached p := by
  rcases Inside.total ho hin with hp | hp
  · exact hp
  · exact hp.eq_root hroot ▸ .refl

/-- What is around the holder of a block stands in no block under it. -/
theorem Routine.Reached.not_under_around (hroot : f.parent? f.root = none) (hh : f.Reached h)
    (hb : f.holder? b = some h) (hin : f.Inside p h) (hparent : f.parent? p = some c) :
    ¬ f.Under b c := by
  have hp := hh.around hroot hin
  rintro (rfl | ⟨q, hq, m, hqm, hm⟩)
  · exact hp.not_inside_up hroot ((up?_of_parent? hparent).trans hb) hin
  · -- otherwise the operation that stands in the block would lie inside itself
    have hup : f.up? q = some h := (up?_of_parent? hq).trans hb
    have hpm : f.up? p = some m := (up?_of_parent? hparent).trans hm
    exact (hh.step hup).not_inside_up hroot hup ((hqm.step hpm).trans hin)

/-- All operations around an operation, itself included, are where they were at the start. -/
def Routine.Standing (f r : Routine) (o : OpId) : Prop :=
  ∀ p, f.Inside p o → r.parent? p = f.parent? p

namespace Routine.Standing

theorem start (f : Routine) (o : OpId) : Standing f f o := fun _ _ => rfl

section

variable (hs : Standing f r o) (hadv : Advance f r) (hf : f.Coherent)
include hs hadv hf

/-- An operation that stands has its regions. -/
theorem regionsOf (ho : f.Reached o) (hin : f.Inside p o) : r.regionsOf p = f.regionsOf p := by
  obtain ⟨d, hd⟩ := hf.exists_op?_of_reached (ho.around hf.root_unlinked hin)
  rcases hadv.regions p (by simp [hd]) with hsame | ⟨hlinked, hout, -⟩
  · exact hsame
  · exact absurd ((hs p hin).symm.trans hout) hlinked

theorem holder? (hr : r.Coherent) (ho : f.Reached o) (hin : f.Inside p o)
    (hb : f.holder? b = some p) : r.holder? b = some p := by
  obtain ⟨g, hg, hgb⟩ := hf.holder?_iff.mp hb
  refine hr.holder?_iff.mpr ⟨g, ?_, ?_⟩
  · rwa [hs.regionsOf hadv hf ho hin]
  · rwa [hadv.blocks]

theorem reached (hr : r.Coherent) (ho : f.Reached o) : r.Reached o := by
  induction ho with
  | refl =>
    rw [← hadv.root]
    exact .refl
  | @tail p o hp hup ih =>
    have hs' : Standing f r p := fun q hq => hs q (hq.step hup)
    obtain ⟨c, hparent, hholder⟩ := exists_parent?_of_up? hup
    have hholder' := hs'.holder? hadv hf hr hp .refl hholder
    refine (ih hs').step ?_
    rw [up?_of_parent? ((hs o .refl).trans hparent), hholder']

end

/-- Work elsewhere than in the blocks around an operation leaves it standing. -/
theorem later (hs : Standing f r h) (hf : f.Coherent) (hh : f.Reached h) (hr : r.Coherent)
    (hr' : r'.Coherent) (since : Advance f r) (hadv : Advance r r')
    (hlists : ∀ p c, f.Inside p h → f.parent? p = some c → r'.opsOf c = r.opsOf c) :
    Standing f r' h := by
  intro p hin
  obtain ⟨d, hd⟩ := hf.exists_op?_of_reached (hh.around hf.root_unlinked hin)
  have hthere := since.op?_ne_none (p := p) (by simp [hd])
  cases hparent : f.parent? p with
  | none => exact hadv.parent?_eq_none hthere ((hs p hin).trans hparent)
  | some c =>
    rw [← hr'.op_listed, hlists p c hin hparent, hr.op_listed, hs p hin, hparent]

/-- An operation in a block of one that stands does so too. -/
theorem inner (hs : Standing f r h) (hb : f.holder? b = some h) (hparent : f.parent? o = some b)
    (hlisted : r.parent? o = some b) : Standing f r o := by
  intro p hin
  rcases hin.cases_tail with rfl | ⟨q, hq, hup⟩
  · rw [hlisted, hparent]
  · rw [up?_of_parent? hparent, hb] at hup
    obtain rfl := Option.some.inj hup
    exact hs p hq

end Routine.Standing

/-! ## Operations on indicators -/

theorem Emit.single_ok {point : InsertPoint} {kind : OpKind} {operands : List ValueId} {ty : Ty}
    (h : operation point kind operands [ty] 0 r = .ok (x, r')) :
    single point kind operands ty r = .ok (⟨r.values.size⟩, r') := by
  rw [single, bind_of_ok h]
  rfl

namespace Level

variable {pre₁ post₁ pre₂ post₂ : List OpId}

/-- Both sides insert a retain, anywhere if it keeps nothing, else before the same operation. -/
theorem retain (hlevel : Level f s₁ s₂) (retained owned : List ValueId) {a₁ a₂ : OpId}
    (h₁ : a₁ ∈ s₁.routine.opsOf b) (h₂ : a₂ ∈ s₂.routine.opsOf b)
    (hplace : retained = [] ∨ a₁ = a₂ ∧ a₁.index < f.ops.size)
    (hknown : ∀ v ∈ retained ++ owned, v.index < s₁.routine.values.size) :
    Agree (Pass.retain (.before a₁) retained owned) (Pass.retain (.before a₂) retained owned)
      s₁ s₂ fun x s₁' s₂' => Abreast f (· = b) s₁ s₂ s₁' s₂' ∧
        ∃ d, s₁'.routine.op? x = some d ∧ ∀ v ∈ d.results, Held f s₁'.routine (· = b) v := by
  obtain ⟨pre₁, post₁, hl₁⟩ := List.append_of_mem h₁
  obtain ⟨pre₂, post₂, hl₂⟩ := List.append_of_mem h₂
  have hcounted := hlevel.count fun t => { t with retains := t.retains + 1 }
  obtain ⟨r₁', r₂', hr₁, hr₂, e₁, -, habreast⟩ :=
    hcounted.emit (.retain retained.length) (retained ++ owned) (retained.map fun _ => .ownership)
      hl₁ hl₂ hknown (fun n hn => by cases hn; simp)
      (hplace.imp_left fun hnil => by rw [hnil]; rfl)
  refine Agree.count (Agree.edit hr₁ hr₂ ⟨?_, _, e₁.op?_fresh, fun v hv => ?_⟩)
  · exact ⟨habreast.level, habreast.advance, habreast.left, habreast.right⟩
  · exact e₁.held hlevel.since_left.size_values hv

section

variable (hlevel : Level f s₁ s₂) (hl₁ : s₁.routine.opsOf b = pre₁ ++ o :: post₁)
variable (hl₂ : s₂.routine.opsOf b = pre₂ ++ o :: post₂) (ho : o.index < f.ops.size)
include hlevel hl₁ hl₂ ho

/-- Both sides insert an indicator that owns nothing before the same operation. -/
theorem null :
    Agree (Pass.null (.before o)) (Pass.null (.before o)) s₁ s₂ fun i s₁' s₂' =>
      Abreast f (· = b) s₁ s₂ s₁' s₂' ∧ Held f s₁'.routine (· = b) i ∧
        ∃ x, s₁'.routine.opsOf b = pre₁ ++ x :: o :: post₁ ∧
          s₂'.routine.opsOf b = pre₂ ++ x :: o :: post₂ := by
  have hcounted := hlevel.count fun t => { t with nulls := t.nulls + 1 }
  obtain ⟨r₁', r₂', hr₁, hr₂, e₁, e₂, habreast⟩ :=
    hcounted.emit .null [] [.ownership] hl₁ hl₂ (by simp) nofun (.inr ⟨rfl, ho⟩)
  have hs₁ := Emit.single_ok hr₁
  have hs₂ := Emit.single_ok hr₂
  rw [show s₂.routine.values = s₁.routine.values from hlevel.alike.values.symm] at hs₂
  refine Agree.count (Agree.edit hs₁ hs₂ ⟨?_, ?_, s₁.routine.freshOp, ?_, ?_⟩)
  · exact ⟨habreast.level, habreast.advance, habreast.left, habreast.right⟩
  · exact e₁.held hlevel.since_left.size_values (mem_freshValues.mpr (by simp))
  · exact (e₁.opsOf_eq b).trans (if_pos rfl)
  · exact ((e₂.opsOf_eq b).trans (if_pos rfl)).trans (by rw [hlevel.alike.freshOp_eq])

/-- Both sides make the indicator of a fresh buffer, and record it. -/
theorem own (hv : v.index < s₁.routine.values.size) :
    Agree (Pass.own (.before o) v) (Pass.own (.before o) v) s₁ s₂ fun i s₁' s₂' =>
      Abreast f (· = b) s₁ s₂ s₁' s₂' ∧ Held f s₁'.routine (fun _ => False) i ∧
        ∃ x, s₁'.routine.opsOf b = pre₁ ++ x :: o :: post₁ ∧
          s₂'.routine.opsOf b = pre₂ ++ x :: o :: post₂ := by
  obtain ⟨r₁', r₂', hr₁, hr₂, e₁, e₂, habreast⟩ :=
    hlevel.emit .own [v] [.ownership] hl₁ hl₂ (by simpa using hv) nofun (.inr ⟨rfl, ho⟩)
  have hs₁ := Emit.single_ok hr₁
  have hs₂ := Emit.single_ok hr₂
  rw [← hlevel.alike.values] at hs₂
  -- it comes from an operation of the right kind, wherever that stands
  have hheld : Held f r₁' (fun _ => False) ⟨s₁.routine.values.size⟩ := by
    have hin := e₁.held (v := ⟨s₁.routine.values.size⟩) hlevel.since_left.size_values
      (mem_freshValues.mpr (by simp))
    refine ⟨hin.made, hin.known, fun x k hx => .inl ?_⟩
    cases e₁.origin?_new (Nat.le_refl _) hx
    rw [e₁.kind?_eq, if_pos rfl]
  have hlevel' := habreast.level.setIndicator v hheld
  refine Agree.edit_bind hs₁ hs₂ ?_
  refine Agree.modifyAliases (Agree.count (Agree.pure ⟨?_, hheld, s₁.routine.freshOp, ?_, ?_⟩))
  · exact ⟨hlevel'.count fun t => { t with owns := t.owns + 1 }, habreast.advance, habreast.left,
      habreast.right⟩
  · exact (e₁.opsOf_eq b).trans (if_pos rfl)
  · exact ((e₂.opsOf_eq b).trans (if_pos rfl)).trans (by rw [hlevel.alike.freshOp_eq])

theorem ownAll {vs : List ValueId} (hvs : ∀ v ∈ vs, v.index < s₁.routine.values.size) :
    Agree (Pass.ownAll (.before o) vs) (Pass.ownAll (.before o) vs) s₁ s₂ fun is s₁' s₂' =>
      Abreast f (· = b) s₁ s₂ s₁' s₂' ∧ (∀ i ∈ is, Held f s₁'.routine (fun _ => False) i) ∧
        ∃ added, s₁'.routine.opsOf b = pre₁ ++ added ++ o :: post₁ ∧
          s₂'.routine.opsOf b = pre₂ ++ added ++ o :: post₂ := by
  induction vs generalizing s₁ s₂ pre₁ pre₂ with
  | nil => exact Agree.pure ⟨.refl hlevel, by simp, [], by simpa using hl₁, by simpa using hl₂⟩
  | cons v vs ih =>
    refine Agree.bind (hlevel.own hl₁ hl₂ ho (hvs v (by simp))) fun i t₁ t₂ ht => ?_
    obtain ⟨habreast, hheld, x, ht₁, ht₂⟩ := ht
    have hknown : ∀ w ∈ vs, w.index < t₁.routine.values.size := fun w hw =>
      Nat.lt_of_lt_of_le (hvs w (by simp [hw])) habreast.advance.size_values
    replace ht₁ : t₁.routine.opsOf b = (pre₁ ++ [x]) ++ o :: post₁ := by simpa using ht₁
    replace ht₂ : t₂.routine.opsOf b = (pre₂ ++ [x]) ++ o :: post₂ := by simpa using ht₂
    refine Agree.bind (ih habreast.level ht₁ ht₂ hknown) fun is u₁ u₂ hu => Agree.pure ?_
    obtain ⟨habreast', hheld', added, hu₁, hu₂⟩ := hu
    refine ⟨habreast.trans habreast', ?_, x :: added, by simpa using hu₁, by simpa using hu₂⟩
    intro j hj
    rcases List.mem_cons.mp hj with rfl | hj
    · exact hheld.later habreast.level.left habreast'.advance
    · exact hheld' j hj

end

/-! ## The start of a block -/

theorem ownArguments (hlevel : Level f s₁ s₂) (hb : s₁.routine.block? b ≠ none)
    {args : List ValueId} (howned : ∀ i ∈ owned, Held f s₁.routine P i) :
    Agree (Pass.ownArguments b args owned) (Pass.ownArguments b args owned) s₁ s₂
      fun owned' s₁' s₂' => Abreast f (fun _ => False) s₁ s₂ s₁' s₂' ∧
        ∀ i ∈ owned', Held f s₁'.routine P i := by
  induction args generalizing s₁ s₂ owned with
  | nil => exact Agree.pure ⟨.refl hlevel, howned⟩
  | cons arg args ih =>
    obtain ⟨B₁, hB₁⟩ := Option.ne_none_iff_exists'.mp hb
    obtain ⟨B₂, hB₂⟩ : ∃ B₂, s₂.routine.block? b = some B₂ := by
      have hblock := hlevel.alike.block b
      rw [hB₁, Option.map_some] at hblock
      obtain ⟨B₂, hB₂, -⟩ := Option.map_eq_some_iff.mp hblock.symm
      exact ⟨B₂, hB₂⟩
    obtain ⟨r₁', hr₁⟩ := addBlockArg_ok hB₁ .ownership
    obtain ⟨r₂', hr₂⟩ := addBlockArg_ok hB₂ .ownership
    rw [← hlevel.alike.values] at hr₂
    have hadv₁ := Advance.addBlockArg hr₁
    have hlevel' := hlevel.edited (.addBlockArg hr₁ hlevel.left) (.addBlockArg hr₂ hlevel.right)
      hadv₁ (.addBlockArg hr₂) (hlevel.alike.addBlockArg hlevel.left hlevel.right hr₁ hr₂)
    -- a new argument comes from no operation
    have hheld : ∀ P, Held f r₁' P ⟨s₁.routine.values.size⟩ := fun P => by
      refine ⟨hlevel.since_left.size_values, ?_, fun x k hx => ?_⟩
      · rw [size_values_addBlockArg hr₁]
        exact Nat.lt_succ_self _
      · rw [origin?_addBlockArg hr₁, if_pos rfl] at hx
        cases hx
    refine Agree.edit_bind hr₁ hr₂ (Agree.modifyAliases ?_)
    have howned' : ∀ i ∈ owned.insert ⟨s₁.routine.values.size⟩, Held f r₁' P i := by
      intro i hi
      rcases ValueSet.mem_insert.mp hi with rfl | hi
      · exact hheld P
      · exact (howned i hi).later hlevel.left hadv₁
    have hb' : r₁'.block? b ≠ none := by
      rw [block?_addBlockArg hr₁, if_pos rfl, hB₁]
      simp
    refine (ih (hlevel'.setIndicator arg (hheld _)) hb' howned').mono ?_
    rintro owned' t₁ t₂ ⟨habreast, hheld'⟩
    refine ⟨⟨habreast.level, hadv₁.trans habreast.advance, fun c hc => ?_, fun c hc => ?_⟩, hheld'⟩
    · exact (habreast.left c hc).trans (opsOf_addBlockArg hr₁ c)
    · exact (habreast.right c hc).trans (opsOf_addBlockArg hr₂ c)

end Level

/-! ## Two runs in a block -/

/-- Two runs are at work in a block of an operation, and what is around it stands. -/
structure AtBlock (f : Routine) (b : BlockId) (h : OpId) (s₁ s₂ : Session) : Prop where
  holder : f.holder? b = some h
  reached : f.Reached h
  level : Level f s₁ s₂
  standing : Standing f s₁.routine h

namespace AtBlock

section InBlock

variable (hat : AtBlock f b h s₁ s₂) (hf : f.Coherent)
include hat hf

theorem later (hab : Abreast f P s₁ s₂ s₁' s₂')
    (hP : ∀ c, P c → f.Under b c) : AtBlock f b h s₁' s₂' where
  holder := hat.holder
  reached := hat.reached
  level := hab.level
  standing := hat.standing.later hf hat.reached hat.level.left hab.level.left hat.level.since_left
    hab.advance fun _ c hin hparent => hab.left c fun hc =>
      hat.reached.not_under_around hf.root_unlinked hat.holder hin hparent (hP c hc)

/-- What is inside one operation of a block is not where work at another one goes on. -/
theorem not_inside_other
    (hparent : f.parent? o = some b) (hparent' : f.parent? p = some b) (hne : o ≠ p)
    (hc : f.InsideBlock p c) : ¬ (c = b ∨ f.InsideBlock o c) := by
  have hup : f.up? o = some h := (up?_of_parent? hparent).trans hat.holder
  have hup' : f.up? p = some h := (up?_of_parent? hparent').trans hat.holder
  rintro (rfl | hoc)
  · exact InsideBlock.not_parent hf.root_unlinked (hat.reached.step hup') hparent' hc
  · exact hoc.disjoint hf.root_unlinked (hat.reached.step hup) (hat.reached.step hup')
      (hup.trans hup'.symm) hne hc

theorem holder_left : s₁.routine.holder? b = some h :=
  hat.standing.holder? hat.level.since_left hf hat.level.left hat.reached .refl hat.holder

theorem reached_left : ∀ p ∈ s₁.routine.opsOf b, s₁.routine.Reached p := by
  have hh := hat.standing.reached hat.level.since_left hf hat.level.left hat.reached
  exact fun p hp => hat.level.left.reached_of_mem hh (hat.holder_left hf) hp

theorem reached_right : ∀ p ∈ s₂.routine.opsOf b, s₂.routine.Reached p := by
  intro p hp
  rw [← hat.level.alike.reached_iff]
  exact hat.reached_left hf p ((hat.level.alike.perm b).mem_iff.mpr hp)

/-- The block is in a region of its holder, on both sides. -/
theorem region :
    ∃ g, g ∈ s₁.routine.regionsOf h ∧ b ∈ s₁.routine.blocksOf g ∧ b ∈ s₂.routine.blocksOf g := by
  obtain ⟨g, hg, hb⟩ := hat.level.left.holder?_iff.mp (hat.holder_left hf)
  exact ⟨g, hg, hb, hat.level.alike.blocksOf_eq g ▸ hb⟩

theorem block?_left : s₁.routine.block? b ≠ none := by
  obtain ⟨g, -, hb, -⟩ := hat.region hf
  exact hat.level.left.inRange.blocks g b hb

end InBlock

/-- The last operation of the block is the same as at the start, on both sides. -/
theorem last (hat : AtBlock f b h s₁ s₂) {body : List OpId} (hlist : f.opsOf b = body ++ [t]) :
    t ∈ s₁.routine.opsOf b ∧ t ∈ s₂.routine.opsOf b := by
  have h₁ := hat.level.since_left.last b
  have h₂ := hat.level.since_right.last b
  rw [hlist, List.getLast?_concat] at h₁ h₂
  exact ⟨List.mem_of_getLast? h₁, List.mem_of_getLast? h₂⟩

end AtBlock

/-- What is listed at the start has an entry at the start. -/
theorem Routine.Coherent.lt_of_mem (hf : f.Coherent) (ho : o ∈ f.opsOf b) :
    o.index < f.ops.size := by
  obtain ⟨d, hd⟩ := hf.exists_op?_of_mem ho
  exact lt_of_op? hd

/-! ## The end of a block -/

/-- A group of escaping values: all have entries, and its indicators are held. -/
def EscapeGroup.HeldIn (f r : Routine) (b : BlockId) (group : EscapeGroup) : Prop :=
  (∀ e ∈ group.escaping, e.2.index < r.values.size) ∧
    ∀ i ∈ group.owned, Held f r (f.Under b) i

theorem EscapeGroup.HeldIn.later (hg : group.HeldIn f r b) (hr : r.Coherent) (hadv : Advance r r') :
    group.HeldIn f r' b :=
  ⟨fun e he => Nat.lt_of_lt_of_le (hg.1 e he) hadv.size_values,
    fun i hi => (hg.2 i hi).later hr hadv⟩

section Closing

variable (hf : f.Coherent) {body : List OpId} (hlist : f.opsOf b = body ++ [t])
variable {settings₁ settings₂ : Settings}
include hf hlist

section

variable (hat : AtBlock f b h s₁ s₂)
include hat

/-- Each run releases an indicator where it likes. -/
theorem releaseIndicator_agree (hi : i.index < s₁.routine.values.size) :
    Agree (releaseIndicator settings₁ t i) (releaseIndicator settings₂ t i) s₁ s₂
      fun _ s₁' s₂' => Abreast f (· = b) s₁ s₂ s₁' s₂' := by
  obtain ⟨ht₁, ht₂⟩ := hat.last hlist
  obtain ⟨a₁, ha₁, hq₁⟩ := hat.level.left.releaseAnchor (hat.reached_left hf) ht₁ settings₁
    s₁.aliases i
  obtain ⟨a₂, ha₂, hq₂⟩ := hat.level.right.releaseAnchor (hat.reached_right hf) ht₂ settings₂
    s₁.aliases i
  have hretain := hat.level.retain [] [i] ha₁ ha₂ (.inl rfl) (by simpa using hi)
  exact Agree.aliases hat.level.aliases (Agree.ask hq₁ hq₂ (hretain.mono fun _ _ _ hq => hq.1))

theorem releaseUnescaped_agree {escaping indicators : List ValueId}
    (hknown : ∀ i ∈ indicators, i.index < s₁.routine.values.size) :
    Agree (releaseUnescaped settings₁ t escaping indicators)
      (releaseUnescaped settings₂ t escaping indicators) s₁ s₂
      fun _ s₁' s₂' => Abreast f (· = b) s₁ s₂ s₁' s₂' := by
  induction indicators generalizing s₁ s₂ with
  | nil => exact Agree.pure (.refl hat.level)
  | cons i indicators ih =>
    refine Agree.aliases hat.level.aliases ?_
    have hrest : ∀ j ∈ indicators, j.index < s₁.routine.values.size :=
      fun j hj => hknown j (by simp [hj])
    split
    · exact ih hat hrest
    · refine Agree.bind (releaseIndicator_agree hf hlist hat (hknown i (by simp)))
        fun _ t₁ t₂ hab => ?_
      have hat' := hat.later hf hab fun c hc => .inl hc
      have hrest' : ∀ j ∈ indicators, j.index < t₁.routine.values.size := fun j hj =>
        Nat.lt_of_lt_of_le (hrest j hj) hab.advance.size_values
      exact (ih hat' hrest').mono fun _ _ _ hab' => hab.trans hab'

theorem settleGroup_agree (hgroup : group.HeldIn f s₁.routine b) :
    Agree (settleGroup t group) (settleGroup t group) s₁ s₂ fun settled s₁' s₂' =>
      Abreast f (· = b) s₁ s₂ s₁' s₂' ∧
        ∀ q ∈ settled, Held f s₁'.routine (f.Under b) q.2 := by
  obtain ⟨ht₁, ht₂⟩ := hat.last hlist
  have ht : t.index < f.ops.size := hf.lt_of_mem (b := b) (by simp [hlist])
  unfold settleGroup
  split
  · refine Agree.pure ⟨.refl hat.level, fun q hq => hgroup.2 q.2 ?_⟩
    exact (List.of_mem_zip (show (q.1, q.2) ∈ _ from hq)).2
  · have hknown : ∀ v ∈ group.escaping.map (·.2) ++ group.owned,
        v.index < s₁.routine.values.size := by
      intro v hv
      rcases List.mem_append.mp hv with hv | hv
      · obtain ⟨e, he, rfl⟩ := List.mem_map.mp hv
        exact hgroup.1 e he
      · exact (hgroup.2 v hv).known
    refine Agree.bind (hat.level.retain _ _ ht₁ ht₂ (.inr ⟨rfl, ht⟩) hknown) fun x t₁ t₂ hq => ?_
    obtain ⟨hab, d, hd, hheld⟩ := hq
    refine Agree.ask (op_of hd) (hab.level.op_right hd) ?_
    refine Agree.modifyAliases (Agree.pure ⟨?_, fun q hq => ?_⟩)
    · exact ⟨hab.level.unionAll _, hab.advance, hab.left, hab.right⟩
    · have hmem := (List.of_mem_zip (show (q.1, q.2) ∈ _ from hq)).2
      exact (hheld q.2 hmem).mono fun c hc => .inl hc

theorem settleGroups_agree {groups : List EscapeGroup}
    (hgroups : ∀ group ∈ groups, group.HeldIn f s₁.routine b) :
    Agree (settleGroups t groups) (settleGroups t groups) s₁ s₂ fun settled s₁' s₂' =>
      Abreast f (· = b) s₁ s₂ s₁' s₂' ∧
        ∀ q ∈ settled, Held f s₁'.routine (f.Under b) q.2 := by
  induction groups generalizing s₁ s₂ with
  | nil => exact Agree.pure ⟨.refl hat.level, by simp⟩
  | cons group groups ih =>
    refine Agree.bind (settleGroup_agree hf hlist hat (hgroups group (by simp)))
      fun settled t₁ t₂ hq => ?_
    obtain ⟨hab, hheld⟩ := hq
    have hat' := hat.later hf hab fun c hc => .inl hc
    have hrest : ∀ g ∈ groups, g.HeldIn f t₁.routine b := fun g hg =>
      (hgroups g (by simp [hg])).later hat.level.left hab.advance
    refine Agree.bind (ih hat' hrest) fun others u₁ u₂ hq' => Agree.pure ?_
    obtain ⟨hab', hheld'⟩ := hq'
    refine ⟨hab.trans hab', fun q hq => ?_⟩
    rcases List.mem_append.mp hq with hq | hq
    · exact (hheld q hq).later hab.level.left hab'.advance
    · exact hheld' q hq

theorem fillSlots_agree {settled : List (Nat × ValueId)} {null? : Option ValueId}
    {positions : List Nat} (hsettled : ∀ q ∈ settled, Held f s₁.routine (f.Under b) q.2)
    (hnull : ∀ i ∈ null?, Held f s₁.routine (f.Under b) i) :
    Agree (fillSlots t settled null? positions) (fillSlots t settled null? positions) s₁ s₂
      fun acquired s₁' s₂' => Abreast f (· = b) s₁ s₂ s₁' s₂' ∧
        ∀ i ∈ acquired, Held f s₁'.routine (f.Under b) i := by
  induction positions generalizing s₁ s₂ null? with
  | nil => exact Agree.pure ⟨.refl hat.level, by simp⟩
  | cons position positions ih =>
    -- an indicator that is there goes into the slot, and the rest follows
    have hput : ∀ {t₁ t₂ : Session} {i : ValueId} {null? : Option ValueId},
        AtBlock f b h t₁ t₂ → (∀ q ∈ settled, Held f t₁.routine (f.Under b) q.2) →
        Held f t₁.routine (f.Under b) i → (∀ j ∈ null?, Held f t₁.routine (f.Under b) j) →
        Agree (do return i :: (← fillSlots t settled null? positions))
          (do return i :: (← fillSlots t settled null? positions)) t₁ t₂
          fun acquired s₁' s₂' => Abreast f (· = b) t₁ t₂ s₁' s₂' ∧
            ∀ i ∈ acquired, Held f s₁'.routine (f.Under b) i := by
      intro t₁ t₂ i null? hat hsettled hi hnull
      refine Agree.bind (ih hat hsettled hnull) fun acquired u₁ u₂ hq => Agree.pure ?_
      obtain ⟨hab, hheld⟩ := hq
      refine ⟨hab, fun j hj => ?_⟩
      rcases List.mem_cons.mp hj with rfl | hj
      · exact hi.later hat.level.left hab.advance
      · exact hheld j hj
    unfold fillSlots
    cases hlookup : settled.lookup position with
    | some i =>
      obtain ⟨l₁, l₂, heq, -⟩ := List.lookup_eq_some_iff.mp hlookup
      exact hput hat hsettled (hsettled (position, i) (by simp [heq])) hnull
    | none =>
      cases null? with
      | some shared => exact hput hat hsettled (hnull shared rfl) hnull
      | none =>
        obtain ⟨ht₁, ht₂⟩ := hat.last hlist
        obtain ⟨pre₁, post₁, hl₁⟩ := List.append_of_mem ht₁
        obtain ⟨pre₂, post₂, hl₂⟩ := List.append_of_mem ht₂
        have ht : t.index < f.ops.size := hf.lt_of_mem (b := b) (by simp [hlist])
        refine Agree.bind (hat.level.null hl₁ hl₂ ht) fun i t₁ t₂ hq => ?_
        obtain ⟨hab, hi, -⟩ := hq
        have hi' : Held f t₁.routine (f.Under b) i := hi.mono fun c hc => .inl hc
        refine (hput (hat.later hf hab fun c hc => .inl hc)
          (fun q hq => (hsettled q hq).later hat.level.left hab.advance) hi' ?_).mono ?_
        · intro j hj
          cases hj
          exact hi'
        · exact fun _ _ _ hq => ⟨hab.trans hq.1, hq.2⟩

theorem closeBlock_agree (howned : ∀ i ∈ owned, Held f s₁.routine (f.Under b) i) :
    Agree (closeBlock settings₁ t owned) (closeBlock settings₂ t owned) s₁ s₂
      fun acquired s₁' s₂' => Abreast f (· = b) s₁ s₂ s₁' s₂' ∧
        ∀ i ∈ acquired, Held f s₁'.routine (f.Under b) i := by
  obtain ⟨d, hd⟩ := hat.level.left.exists_op?_of_mem (hat.last hlist).1
  have hknown : ∀ v ∈ d.operands, v.index < s₁.routine.values.size := fun v hv =>
    hat.level.left.operands_known t v (by rwa [operandsOf_of hd])
  obtain ⟨hquery₁, hquery₂⟩ := hat.level.operandBuffers hd
  refine Agree.ask hquery₁ hquery₂ ?_
  refine Agree.bind (releaseUnescaped_agree hf hlist hat fun i hi => (howned i hi).known)
    fun _ t₁ t₂ hab => ?_
  have hat₁ := hat.later hf hab fun c hc => .inl hc
  refine Agree.aliases hat₁.level.aliases ?_
  -- what is planned consists of what was sent and owned before the releases
  have hgroups : ∀ group ∈ t₁.aliases.planEscapes (d.operands.filter s₁.routine.holdsBuffer) owned,
      group.HeldIn f t₁.routine b := by
    intro group hgroup
    obtain ⟨hescaping, hgroup⟩ := mem_planEscapes hgroup
    refine ⟨fun e he => ?_, fun i hi => ?_⟩
    · have hlt := hknown e.2 (List.mem_filter.mp (hescaping e he)).1
      exact Nat.lt_of_lt_of_le hlt hab.advance.size_values
    · exact (howned i (hgroup i hi)).later hat.level.left hab.advance
  refine Agree.bind (settleGroups_agree hf hlist hat₁ hgroups) fun settled u₁ u₂ hq => ?_
  obtain ⟨hab₁, hsettled⟩ := hq
  have hat₂ := hat₁.later hf hab₁ fun c hc => .inl hc
  refine (fillSlots_agree hf hlist hat₂ hsettled (by simp)).mono fun acquired w₁ w₂ hq => ?_
  exact ⟨(hab.trans hab₁).trans hq.1, hq.2⟩

end

end Closing

/-! ## The operations of a block -/

/-- Two runs are at an operation of a block that is the same on both sides and goes on. -/
structure BothAt (f : Routine) (b : BlockId) (h o : OpId) (front rest : List OpId)
    (s₁ s₂ : Session) : Prop extends AtBlock f b h s₁ s₂ where
  parent : f.parent? o = some b
  left : s₁.routine.opsOf b = front ++ o :: rest
  right : s₂.routine.opsOf b = front ++ o :: rest
  more : rest ≠ []
  old : ∀ p ∈ rest, p.index < f.ops.size

/-- Two runs are about to treat an operation: nothing inside it has been touched. -/
structure AtNext (f : Routine) (b : BlockId) (h o : OpId) (front rest : List OpId)
    (s₁ s₂ : Session) : Prop extends BothAt f b h o front rest s₁ s₂ where
  inner_left : ∀ c, f.InsideBlock o c → s₁.routine.opsOf c = f.opsOf c
  inner_right : ∀ c, f.InsideBlock o c → s₂.routine.opsOf c = f.opsOf c

namespace BothAt

variable {front rest : List OpId}

section

variable (hat : BothAt f b h o front rest s₁ s₂)
include hat

theorem up? : f.up? o = some h :=
  (up?_of_parent? hat.parent).trans hat.holder

theorem reached_op : f.Reached o := hat.reached.step hat.up?

theorem lt : o.index < f.ops.size := by
  obtain ⟨d, hd, -⟩ := exists_op?_of_parent? hat.parent
  exact lt_of_op? hd

theorem op? : ∃ d, s₁.routine.op? o = some d :=
  hat.level.left.exists_op?_of_mem (b := b) (by simp [hat.left])

theorem standing_op : Standing f s₁.routine o :=
  hat.standing.inner hat.holder hat.parent
    ((hat.level.left.op_listed o b).mp (by simp [hat.left]))

theorem regionsOf (hf : f.Coherent) : s₁.routine.regionsOf o = f.regionsOf o :=
  hat.standing_op.regionsOf hat.level.since_left hf hat.reached_op .refl

/-- Work inside the operation leaves it in its place. -/
theorem inside (hf : f.Coherent) (hab : Abreast f (f.InsideBlock o) s₁ s₂ s₁' s₂') :
    BothAt f b h o front rest s₁' s₂' where
  toAtBlock := hat.later hf hab fun _ hc => .inr ⟨o, hat.parent, hc⟩
  parent := hat.parent
  left := (hab.left b (InsideBlock.not_parent hf.root_unlinked hat.reached_op hat.parent)).trans
    hat.left
  right := (hab.right b (InsideBlock.not_parent hf.root_unlinked hat.reached_op hat.parent)).trans
    hat.right
  more := hat.more
  old := hat.old

end

end BothAt

/-- Treating an operation has the same outcome on both sides, and leaves the block the same. -/
def OpDone (f : Routine) (b : BlockId) (o : OpId) (rest : List OpId) (s₁ s₂ : Session)
    (out : Outcome) (s₁' s₂' : Session) : Prop :=
  Abreast f (fun c => c = b ∨ f.InsideBlock o c) s₁ s₂ s₁' s₂' ∧
    (∃ front, s₁'.routine.opsOf b = front ++ rest ∧ s₂'.routine.opsOf b = front ++ rest) ∧
    ∀ i ∈ out.acquired, Held f s₁'.routine (f.Under b) i

/-- The two ways to treat an operation agree on all operations in the blocks of another. -/
def OpsAgree (f : Routine) (h : OpId) (treat₁ treat₂ : OpPass) : Prop :=
  ∀ ⦃b o front rest owned s₁ s₂⦄, AtNext f b h o front rest s₁ s₂ →
    (∀ i ∈ owned, Held f s₁.routine (f.Under b) i) →
    Agree (treat₁ o owned) (treat₂ o owned) s₁ s₂ (OpDone f b o rest s₁ s₂)

/-- What is inside an operation of a block is under the block. -/
theorem Routine.Under.of_inside (hparent : f.parent? o = some b)
    (hc : c = b ∨ f.InsideBlock o c) : f.Under b c :=
  hc.imp_right fun hc => ⟨o, hparent, hc⟩

variable {treat₁ treat₂ : OpPass}

theorem throughOps_agree (hf : f.Coherent) (htreat : OpsAgree f h treat₁ treat₂)
    {todo front : List OpId} {held : Holdings} (hat : AtBlock f b h s₁ s₂)
    (hparents : ∀ o ∈ todo, f.parent? o = some b)
    (hl₁ : s₁.routine.opsOf b = front ++ todo ++ [t])
    (hl₂ : s₂.routine.opsOf b = front ++ todo ++ [t])
    (hinner : ∀ o ∈ todo, ∀ c, f.InsideBlock o c →
      s₁.routine.opsOf c = f.opsOf c ∧ s₂.routine.opsOf c = f.opsOf c)
    (howned : ∀ i ∈ held.owned, Held f s₁.routine (f.Under b) i) :
    Agree (throughOps treat₁ todo held) (throughOps treat₂ todo held) s₁ s₂
      fun held' s₁' s₂' => Abreast f (f.Under b) s₁ s₂ s₁' s₂' ∧
        ∀ i ∈ held'.owned, Held f s₁'.routine (f.Under b) i := by
  induction todo generalizing s₁ s₂ front held with
  | nil => exact Agree.pure ⟨.refl hat.level, howned⟩
  | cons o todo ih =>
    have hparent := hparents o (by simp)
    have hold : ∀ p ∈ todo ++ [t], p.index < f.ops.size := by
      intro p hp
      rcases List.mem_append.mp hp with hp | hp
      · exact hf.lt_of_mem ((hf.op_listed p b).mpr (hparents p (by simp [hp])))
      · have hlast := hat.level.since_left.last b
        rw [hl₁, List.getLast?_concat] at hlast
        exact List.mem_singleton.mp hp ▸ hf.lt_of_mem (List.mem_of_getLast? hlast.symm)
    have hnext : AtNext f b h o front (todo ++ [t]) s₁ s₂ :=
      { toAtBlock := hat, parent := hparent, left := by simpa using hl₁, right := by simpa using hl₂
        more := by simp, old := hold
        inner_left := fun c hc => (hinner o (by simp) c hc).1
        inner_right := fun c hc => (hinner o (by simp) c hc).2 }
    refine Agree.bind (htreat hnext howned) fun out t₁ t₂ hq => ?_
    obtain ⟨hab, ⟨front', hl₁', hl₂'⟩, hacquired⟩ := hq
    have hunder : ∀ c, c = b ∨ f.InsideBlock o c → f.Under b c :=
      fun c hc => .of_inside hparent hc
    have hat' := hat.later hf hab hunder
    refine Agree.aliases hat'.level.aliases ?_
    -- what is inside the later operations has not been touched, as no operation is listed twice
    have hnodup := hat.level.left.ops_nodup b
    rw [hl₁] at hnodup
    have hfresh : o ∉ todo := by
      intro hmem
      have hsub := (List.nodup_append.mp (List.append_assoc .. ▸ hnodup)).2.1
      exact (List.nodup_cons.mp hsub).1 (by simp [hmem])
    have hinner' : ∀ q ∈ todo, ∀ c, f.InsideBlock q c →
        t₁.routine.opsOf c = f.opsOf c ∧ t₂.routine.opsOf c = f.opsOf c := by
      intro q hq c hc
      have hout := hat.not_inside_other hf hparent (hparents q (by simp [hq]))
        (fun e => hfresh (e ▸ hq)) hc
      have hold := hinner q (by simp [hq]) c hc
      exact ⟨(hab.left c hout).trans hold.1, (hab.right c hout).trans hold.2⟩
    have howned' : ∀ i ∈ (held.absorb t₁.aliases out).owned, Held f t₁.routine (f.Under b) i := by
      intro i hi
      rcases Holdings.mem_owned_absorb hi with hi | hi
      · exact (howned i hi).later hat.level.left hab.advance
      · exact hacquired i hi
    refine (ih hat' (fun q hq => hparents q (by simp [hq])) (by simpa using hl₁')
      (by simpa using hl₂') hinner' howned').mono fun held' u₁ u₂ hq => ?_
    exact ⟨(hab.mono hunder).trans hq.1, hq.2⟩

/-- The operations of a block before its terminator. -/
theorem Routine.InRange.bodyOps (hr : r.InRange) {g : RegionId} (hb : b ∈ r.blocksOf g)
    {body : List OpId} (hlist : r.opsOf b = body ++ [t]) (hterm : r.isTerminator t = true) :
    r.bodyOps b = .ok body := by
  obtain ⟨B, hB, hops, -⟩ := hr.block hb
  have hlast : r.lastTerminator? b = some t := by simp [lastTerminator?, hlist, hterm]
  rw [Routine.bodyOps, bind_of_ok hB, bind_of_ok (hr.terminator? hb), hlast, hops, hlist]
  simp [pure, Except.pure]

theorem Level.lastTerminator? (hlevel : Level f s₁ s₂) (b : BlockId) :
    s₁.routine.lastTerminator? b = s₂.routine.lastTerminator? b := by
  have hterm : s₁.routine.isTerminator = s₂.routine.isTerminator := funext fun p => by
    rw [isTerminator, isTerminator, hlevel.alike.kind?_eq]
  rw [Routine.lastTerminator?, Routine.lastTerminator?, hlevel.since_left.last,
    hlevel.since_right.last, hterm]

theorem openBlock_agree (hf : f.Coherent) (hat : AtBlock f b h s₁ s₂) (ownsInputs : Bool) :
    Agree (openBlock b ownsInputs) (openBlock b ownsInputs) s₁ s₂ fun owned s₁' s₂' =>
      Abreast f (fun _ => False) s₁ s₂ s₁' s₂' ∧
        ∀ i ∈ owned, Held f s₁'.routine (f.Under b) i := by
  obtain ⟨g, -, hb₁, hb₂⟩ := hat.region hf
  unfold openBlock
  split
  · obtain ⟨B₁, hB₁, -, hargs₁⟩ := hat.level.left.inRange.block hb₁
    obtain ⟨B₂, hB₂, -, hargs₂⟩ := hat.level.right.inRange.block hb₂
    have hquery₁ : (do s₁.routine.buffers (← s₁.routine.block b).args) =
        .ok ((s₁.routine.argsOf b).filter s₁.routine.holdsBuffer) := by
      rw [bind_of_ok hB₁, hargs₁, buffers_ok (hat.level.left.args_known b)]
    have hquery₂ : (do s₂.routine.buffers (← s₂.routine.block b).args) =
        .ok ((s₁.routine.argsOf b).filter s₁.routine.holdsBuffer) := by
      rw [bind_of_ok hB₂, hargs₂, ← hat.level.alike.argsOf_eq,
        hat.level.buffers_right (hat.level.left.args_known b)]
    exact Agree.ask hquery₁ hquery₂
      (hat.level.ownArguments (hat.block?_left hf) fun i hi => absurd hi ValueSet.not_mem_empty)
  · exact Agree.pure ⟨.refl hat.level, fun i hi => absurd hi ValueSet.not_mem_empty⟩

/-- A block without a terminator is rejected on both sides, with the same text. -/
theorem rejectOpenEnded_agree (hf : f.Coherent) (hat : AtBlock f b h s₁ s₂)
    {Q : Outcome → Session → Session → Prop} :
    Agree (rejectOpenEnded b) (rejectOpenEnded b) s₁ s₂ Q := by
  obtain ⟨g, hg, hb₁, hb₂⟩ := hat.region hf
  -- either side finds the holder from the block
  have hquery : ∀ {r : Routine}, r.Coherent → g ∈ r.regionsOf h → b ∈ r.blocksOf g →
      (do return (← r.region (← r.block b).parent).parent) = Except.ok h := by
    intro r hr hg hb
    obtain ⟨B, hB, -⟩ := hr.inRange.block hb
    obtain ⟨G, hG, -⟩ := hr.inRange.region hg
    have hhome := (hr.block_listed b g).mp hb
    have howner := (hr.region_listed g h).mp hg
    rw [home?_of (block_eq_ok.mp hB), Option.some.injEq] at hhome
    rw [owner?_of (region_eq_ok.mp hG), Option.some.injEq] at howner
    rw [bind_of_ok hB, hhome, bind_of_ok hG, howner]
    rfl
  obtain ⟨d, hd, -⟩ := exists_op?_of_mem_regionsOf hg
  refine Agree.ask (hquery hat.level.left hg hb₁)
    (hquery hat.level.right (hat.level.alike.regionsOf_eq h ▸ hg) hb₂) ?_
  exact Agree.ask (op_of hd) (hat.level.op_right hd) (Agree.reject _)

/-- Two runs go through a block that neither of them has touched. -/
theorem throughBlock_agree (hf : f.Coherent) (htreat : OpsAgree f h treat₁ treat₂)
    {settings₁ settings₂ : Settings} {ownsInputs : Bool} (hat : AtBlock f b h s₁ s₂)
    (hfresh : ∀ c, f.Under b c → s₁.routine.opsOf c = f.opsOf c ∧ s₂.routine.opsOf c = f.opsOf c) :
    Agree (throughBlock settings₁ treat₁ b ownsInputs) (throughBlock settings₂ treat₂ b ownsInputs)
      s₁ s₂ fun out s₁' s₂' => Abreast f (f.Under b) s₁ s₂ s₁' s₂' ∧
        ∀ i ∈ out.acquired, Held f s₁'.routine (f.Under b) i := by
  obtain ⟨g, -, hb₁, hb₂⟩ := hat.region hf
  refine Agree.ask (hat.level.left.inRange.terminator? hb₁)
    (hat.level.lastTerminator? b ▸ hat.level.right.inRange.terminator? hb₂) ?_
  cases hlast : s₁.routine.lastTerminator? b with
  | none => exact rejectOpenEnded_agree hf hat
  | some t =>
    obtain ⟨ht, hterm⟩ := Option.filter_eq_some_iff.mp hlast
    have hlist : s₁.routine.opsOf b = (s₁.routine.opsOf b).dropLast ++ [t] :=
      (List.dropLast_append_getLast? t ht).symm
    obtain ⟨hsame₁, hsame₂⟩ := hfresh b (.inl rfl)
    generalize (s₁.routine.opsOf b).dropLast = body at hlist
    have hstart : f.opsOf b = body ++ [t] := hsame₁ ▸ hlist
    -- the block is opened: it gets arguments, and its list stays
    refine Agree.bind (openBlock_agree hf hat ownsInputs) fun owned t₁ t₂ hq => ?_
    obtain ⟨hab, howned⟩ := hq
    have hat₁ := hat.later hf hab fun c hc => hc.elim
    have hl₁ : t₁.routine.opsOf b = [] ++ body ++ [t] := (hab.left b id).trans hlist
    have hl₂ : t₂.routine.opsOf b = [] ++ body ++ [t] :=
      (hab.right b id).trans (hsame₂.trans hstart)
    have hkind : t₁.routine.isTerminator t = true := by
      rw [isTerminator, hab.advance.kind?_eq (hat.level.left.inRange.ops b t (by simp [hlist]))]
      exact hterm
    have hkind' : t₂.routine.isTerminator t = true := by
      rwa [isTerminator, ← hat₁.level.alike.kind?_eq]
    obtain ⟨g', -, hb₁', hb₂'⟩ := hat₁.region hf
    refine Agree.ask (hat₁.level.left.inRange.bodyOps hb₁' hl₁ hkind)
      (hat₁.level.right.inRange.bodyOps hb₂' hl₂ hkind') ?_
    -- then come its operations, and none of their blocks has been touched
    have hparents : ∀ o ∈ body, f.parent? o = some b := fun o ho =>
      (hf.op_listed o b).mp (by simp [hstart, ho])
    have hinner : ∀ o ∈ body, ∀ c, f.InsideBlock o c →
        t₁.routine.opsOf c = f.opsOf c ∧ t₂.routine.opsOf c = f.opsOf c := by
      intro o ho c hc
      have hsame := hfresh c (.of_inside (hparents o ho) (.inr hc))
      exact ⟨(hab.left c id).trans hsame.1, (hab.right c id).trans hsame.2⟩
    refine Agree.bind (throughOps_agree hf htreat hat₁ hparents hl₁ hl₂ hinner howned)
      fun held u₁ u₂ hq => ?_
    obtain ⟨hab₁, howned'⟩ := hq
    have hat₂ := hat₁.later hf hab₁ fun c hc => hc
    -- and it is closed
    refine Agree.bind (closeBlock_agree hf hstart hat₂ howned') fun acquired w₁ w₂ hq => ?_
    obtain ⟨hab₂, hacquired⟩ := hq
    refine Agree.pure ⟨((hab.mono fun c hc => hc.elim).trans hab₁).trans ?_, hacquired⟩
    exact hab₂.mono fun c hc => .inl hc

end BufferOwnership
