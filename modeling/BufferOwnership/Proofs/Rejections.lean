import BufferOwnership.Ownership.Threading

/-!
# Rejections during the work

Only the check at the end looks at the shape of a routine. Most steps of the work before it never
reject at all (`Sure`), and the others do not for a defect of shape (`ShapeBlind`). Sequences of
such steps are of that form again, and so is the whole traversal, by induction on the depth.
-/

namespace BufferOwnership

namespace Pass

variable {α β : Type} {f : α → Pass β} {x : Pass α} {reason : Rejection} {s : Session}

/-! ## Steps that never reject -/

/-- A step that never rejects. -/
def Sure (x : Pass α) : Prop :=
  ∀ s reason, x s ≠ .error (.rejected reason)

/-- Two steps fail if the first one does, or the second one in the session that the first leaves. -/
theorem bind_eq_error {failure : Failure Rejection} (h : (x >>= f) s = .error failure) :
    x s = .error failure ∨ ∃ a mid, x s = .ok (a, mid) ∧ f a mid = .error failure := by
  have hsteps : (x s >>= fun p => f p.1 p.2) = .error failure := h
  cases hxs : x s with
  | ok p =>
    rw [hxs] at hsteps
    exact .inr ⟨p.1, p.2, rfl, hsteps⟩
  | error failure' =>
    rw [hxs] at hsteps
    cases hsteps
    exact .inl rfl

namespace Sure

theorem pure (a : α) : Sure (Pure.pure a : Pass α) := nofun

theorem bind (hx : Sure x) (hf : ∀ a, Sure (f a)) : Sure (x >>= f) := by
  intro s reason h
  rcases bind_eq_error h with h | ⟨a, mid, -, h⟩
  · exact hx s reason h
  · exact hf a mid reason h

/-- What is rejected after a step that never rejects is rejected by the rest. -/
theorem passes (hx : Sure x) (h : (x >>= f) s = .error (.rejected reason)) :
    ∃ a mid, x s = .ok (a, mid) ∧ f a mid = .error (.rejected reason) :=
  (bind_eq_error h).resolve_left (hx s reason)

theorem ask (query : Routine → Except Fault α) : Sure (Pass.ask query) := by
  intro s reason h
  unfold Pass.ask at h
  split at h <;> cases h

theorem edit (change : Edit α) : Sure (Pass.edit change) := by
  intro s reason h
  unfold Pass.edit at h
  split at h <;> cases h

theorem aliases : Sure Pass.aliases := nofun

theorem modifyAliases (f : AliasClasses → AliasClasses) : Sure (Pass.modifyAliases f) := nofun

theorem count (f : Tally → Tally) : Sure (Pass.count f) := nofun

theorem forM {f : β → Pass Unit} (hf : ∀ b, Sure (f b)) :
    ∀ l : List β, Sure (l.forM f)
  | [] => .pure ()
  | b :: l => (hf b).bind fun _ => forM hf l

/-! ### Inserting operations -/

theorem own (point : InsertPoint) (buffer : ValueId) : Sure (Pass.own point buffer) :=
  (edit _).bind fun _ => (modifyAliases _).bind fun _ => (count _).bind fun _ => .pure _

theorem ownAll (point : InsertPoint) : ∀ buffers, Sure (Pass.ownAll point buffers)
  | [] => .pure _
  | _ :: rest => (own point _).bind fun _ => (ownAll point rest).bind fun _ => .pure _

theorem retain (point : InsertPoint) (retained owned : List ValueId) :
    Sure (Pass.retain point retained owned) :=
  (count _).bind fun _ => edit _

theorem null (point : InsertPoint) : Sure (Pass.null point) :=
  (count _).bind fun _ => edit _

/-! ### Blocks -/

theorem ownArguments (b : BlockId) : ∀ args owned, Sure (Pass.ownArguments b args owned)
  | [], _ => .pure _
  | _ :: rest, _ =>
    (edit _).bind fun _ => (modifyAliases _).bind fun _ => ownArguments b rest _

theorem openBlock (b : BlockId) (ownsInputs : Bool) : Sure (Pass.openBlock b ownsInputs) := by
  unfold Pass.openBlock
  split
  · exact (ask _).bind fun _ => ownArguments b _ _
  · exact .pure _

theorem releaseIndicator (settings : Settings) (terminator : OpId) (indicator : ValueId) :
    Sure (Pass.releaseIndicator settings terminator indicator) :=
  aliases.bind fun _ => (ask _).bind fun _ => retain _ _ _

theorem releaseUnescaped (settings : Settings) (terminator : OpId) (escaping : List ValueId) :
    ∀ indicators, Sure (Pass.releaseUnescaped settings terminator escaping indicators)
  | [] => .pure _
  | indicator :: rest => by
    apply aliases.bind
    intro classes
    have hrest := releaseUnescaped settings terminator escaping rest
    split
    · exact hrest
    · exact (releaseIndicator settings terminator indicator).bind fun _ => hrest

theorem settleGroup (terminator : OpId) (group : EscapeGroup) :
    Sure (Pass.settleGroup terminator group) := by
  unfold Pass.settleGroup
  split
  · exact .pure _
  · exact (retain _ _ _).bind fun _ => (ask _).bind fun _ => (modifyAliases _).bind fun _ => .pure _

theorem settleGroups (terminator : OpId) :
    ∀ groups, Sure (Pass.settleGroups terminator groups)
  | [] => .pure _
  | _ :: rest =>
    (settleGroup terminator _).bind fun _ => (settleGroups terminator rest).bind fun _ => .pure _

theorem fillSlots (terminator : OpId) (settled : List (Nat × ValueId)) :
    ∀ null? positions, Sure (Pass.fillSlots terminator settled null? positions)
  | _, [] => .pure _
  | null?, position :: rest => by
    have hrest : ∀ n, Sure (Pass.fillSlots terminator settled n rest) := fun n =>
      fillSlots terminator settled n rest
    unfold Pass.fillSlots
    split
    · exact (hrest _).bind fun _ => .pure _
    · exact (hrest _).bind fun _ => .pure _
    · exact (null _).bind fun _ => (hrest _).bind fun _ => .pure _

theorem closeBlock (settings : Settings) (terminator : OpId) (owned : ValueSet) :
    Sure (Pass.closeBlock settings terminator owned) :=
  (ask _).bind fun _ => (releaseUnescaped settings terminator _ _).bind fun _ =>
    aliases.bind fun _ => (settleGroups terminator _).bind fun _ => fillSlots terminator _ _ _

/-! ### Constructs -/

theorem dropIfDead (indicator : ValueId) : Sure (Pass.dropIfDead indicator) := by
  apply (ask _).bind
  intro data
  cases data.origin with
  | argument _ _ => exact .pure _
  | result o _ =>
    apply (ask _).bind
    intro op
    apply (ask _).bind
    intro unused
    split
    · exact (edit _).bind fun _ => count _
    · exact .pure _

theorem sendAcquired (g : RegionOutcome) : Sure (Pass.sendAcquired g) := by
  apply (ask _).bind
  intro b?
  cases b? with
  | none => exact .pure _
  | some b =>
    apply (ask _).bind
    intro terminator?
    cases terminator? with
    | none => exact .pure _
    | some _ => exact edit _

theorem transferable? (settings : Settings) (o : OpId) (owned released : ValueSet)
    (operand : ValueId) :
    Sure (Pass.transferable? settings o owned released operand) := by
  unfold Pass.transferable?
  split
  · apply aliases.bind
    intro classes
    cases owned.toList.find? (classes.same operand) with
    | none => exact .pure _
    | some indicator =>
      simp only
      split
      · exact .pure _
      · apply (ask _).bind
        intro last
        split
        · exact .pure _
        · exact .pure _
  · exact .pure _

theorem transferOperands (settings : Settings) (o : OpId) (owned : ValueSet) :
    ∀ operands released,
      Sure (Pass.transferOperands settings o owned operands released)
  | [], _ => .pure _
  | operand :: rest, released => by
    have hrest := transferOperands settings o owned rest
    apply (transferable? settings o owned released operand).bind
    intro indicator?
    cases indicator? with
    | none => exact (null _).bind fun _ => (hrest _).bind fun _ => .pure _
    | some _ => exact (count _).bind fun _ => (hrest _).bind fun _ => .pure _

theorem bodyBlock? (o : OpId) : Sure (Pass.bodyBlock? o) := by
  apply (ask _).bind
  intro data
  cases data.regions with
  | nil => exact .pure _
  | cons g _ => exact ask _

end Sure

/-! ## Steps that look at no shape -/

/-- A step that never rejects for a defect of shape. -/
def ShapeBlind (x : Pass α) : Prop :=
  ∀ s defect, x s ≠ .error (.rejected (.verification defect))

/-- What comes after a step that never rejects decides. -/
theorem Sure.before (hx : Sure x) (hf : ∀ a, ShapeBlind (f a)) : ShapeBlind (x >>= f) := by
  intro s defect h
  rcases bind_eq_error h with h | ⟨a, mid, -, h⟩
  · exact hx s _ h
  · exact hf a mid defect h

namespace ShapeBlind

theorem pure (a : α) : ShapeBlind (Pure.pure a : Pass α) := nofun

theorem bind (hx : ShapeBlind x) (hf : ∀ a, ShapeBlind (f a)) : ShapeBlind (x >>= f) := by
  intro s defect h
  rcases bind_eq_error h with h | ⟨a, mid, -, h⟩
  · exact hx s defect h
  · exact hf a mid defect h

theorem reject (h : ∀ defect, reason ≠ .verification defect) :
    ShapeBlind (Pass.reject reason : Pass α) := by
  intro s defect heq
  cases heq
  exact h defect rfl

/-! ### Blocks -/

theorem throughOps {treat : OpPass} (htreat : ∀ o owned, ShapeBlind (treat o owned)) :
    ∀ ops held, ShapeBlind (Pass.throughOps treat ops held)
  | [], _ => .pure _
  | _ :: rest, _ =>
    (htreat _ _).bind fun _ => Sure.aliases.before fun _ => throughOps htreat rest _

theorem throughBlock (settings : Settings) {treat : OpPass}
    (htreat : ∀ o owned, ShapeBlind (treat o owned)) (b : BlockId) (ownsInputs : Bool) :
    ShapeBlind (Pass.throughBlock settings treat b ownsInputs) := by
  apply (Sure.ask _).before
  intro terminator?
  cases terminator? with
  | none =>
    -- a block without terminator is rejected as such
    exact (Sure.ask _).before fun _ => (Sure.ask _).before fun _ => reject nofun
  | some terminator =>
    exact (Sure.openBlock b ownsInputs).before fun _ => (Sure.ask _).before fun _ =>
      (throughOps htreat _ _).bind fun _ =>
        (Sure.closeBlock settings terminator _).before fun _ => .pure _

/-! ### Constructs -/

theorem capture (site : ConstructSite) (region : RegionId) (acquired : List ValueId) (v : ValueId) :
    ShapeBlind (Pass.capture site region acquired v) := by
  apply (Sure.ask _).before
  intro data
  cases data.blocks with
  | nil => exact reject nofun
  | cons b _ =>
    apply (Sure.ask _).before
    intro yielded
    apply (Sure.ask _).before
    intro slot?
    cases slot? with
    | none => exact reject nofun
    | some slot =>
      cases hslot : acquired[slot]? with
      | none =>
        simp only [hslot]
        exact reject nofun
      | some displaced =>
        simp only [hslot]
        apply Sure.aliases.before
        intro classes
        cases classes.indicatorOf? v with
        | none => exact reject nofun
        | some indicator => exact (Sure.modifyAliases _).before fun _ => .pure _

theorem captureAll (site : ConstructSite) (region : RegionId) :
    ∀ vs acquired, ShapeBlind (Pass.captureAll site region vs acquired)
  | [], _ => .pure _
  | _ :: rest, _ =>
    (capture site region _ _).bind fun _ => (captureAll site region rest _).bind fun _ => .pure _

theorem reconcile (site : ConstructSite) (regions : List RegionOutcome) :
    ShapeBlind (Pass.reconcile site regions) := by
  unfold Pass.reconcile
  split
  · exact .pure _
  · split
    · unfold Pass.reconcilePair
      simp only
      split
      · exact .pure _
      · exact (captureAll site _ _ _).bind fun _ => (captureAll site _ _ _).bind fun _ => .pure _
    · exact reject nofun

section Treatment

variable (settings : Settings) {treat : OpPass}
variable (htreat : ∀ o owned, ShapeBlind (treat o owned))
include htreat

theorem throughRegion (site : ConstructSite) (kind : ConstructKind)
    (g : RegionId) : ShapeBlind (Pass.throughRegion settings treat site kind g) := by
  apply (Sure.ask _).before
  intro args
  apply (Sure.ask _).before
  intro b?
  cases b? with
  | none => exact .pure _
  | some b =>
    apply (throughBlock settings htreat b true).bind
    intro outcome
    split
    · exact reject nofun
    · exact .pure _

theorem throughRegions (site : ConstructSite) (kind : ConstructKind) :
    ∀ gs, ShapeBlind (Pass.throughRegions settings treat site kind gs)
  | [] => .pure _
  | _ :: rest =>
    (throughRegion settings htreat site kind _).bind fun _ =>
      (throughRegions site kind rest).bind fun _ => .pure _

theorem throughConstruct (kind : ConstructKind) (o : OpId)
    (owned : ValueSet) : ShapeBlind (Pass.throughConstruct settings treat kind o owned) := by
  apply (Sure.ask _).before
  intro data
  apply (Sure.ask _).before
  intro multi
  split
  · exact reject nofun
  · exact (throughRegions settings htreat _ kind _).bind fun _ => (reconcile _ _).bind fun _ =>
      (Sure.forM Sure.sendAcquired _).before fun _ => (Sure.forM Sure.dropIfDead _).before fun _ =>
      (Sure.ask _).before fun _ => (Sure.transferOperands settings o owned _ _).before fun _ =>
      (Sure.ask _).before fun _ => (Sure.edit _).before fun _ => (Sure.ask _).before fun _ =>
      (Sure.modifyAliases _).before fun _ => (Sure.ask _).before fun _ => .pure _

/-! ### Operations -/

theorem throughRoutine (o : OpId) : ShapeBlind (Pass.throughRoutine settings treat o) := by
  apply (Sure.ask _).before
  intro name
  apply (Sure.bodyBlock? o).before
  intro b?
  cases b? with
  | none => exact reject nofun
  | some b =>
    apply (throughBlock settings htreat b false).bind
    intro outcome
    split
    · exact .pure _
    · exact reject nofun

theorem throughUnknownBlocks (o : OpId) :
    ∀ blocks, ShapeBlind (Pass.throughUnknownBlocks settings treat o blocks)
  | [] => .pure _
  | b :: rest => by
    apply (throughBlock settings htreat b false).bind
    intro outcome
    split
    · exact throughUnknownBlocks o rest
    · exact (Sure.ask _).before fun _ => reject nofun

theorem throughUnknownRegions (o : OpId) :
    ShapeBlind (Pass.throughUnknownRegions settings treat o) := by
  apply (Sure.ask _).before
  intro data
  apply (Sure.ask _).before
  intro returnsBuffer
  split
  · exact reject nofun
  · exact (Sure.ask _).before fun _ => throughUnknownBlocks settings htreat o _

/-- Treating an operation looks at no shape, if treating those inside it does not. -/
theorem throughOp (o : OpId) (owned : ValueSet) :
    ShapeBlind (Pass.throughOp settings treat o owned) := by
  apply (Sure.ask _).before
  intro data
  cases data.classify with
  | construct kind => exact throughConstruct settings htreat kind o owned
  | effects allocated _ =>
    exact (Sure.ask _).before fun _ => (Sure.ownAll _ allocated).before fun _ => .pure _
  | routine => exact throughRoutine settings htreat o
  | unknownRegions => exact throughUnknownRegions settings htreat o
  | plain => exact (Sure.ask _).before fun _ => (Sure.modifyAliases _).before fun _ => .pure _

end Treatment

/-- The whole traversal never rejects for a defect of shape, whatever its depth. -/
theorem throughOpWithin (settings : Settings) (fuel : Nat) (o : OpId) (owned : ValueSet) :
    ShapeBlind (Pass.throughOpWithin settings fuel o owned) := by
  induction fuel generalizing o owned with
  | zero => exact nofun
  | succ fuel ih => exact throughOp settings ih o owned

end ShapeBlind

end Pass

end BufferOwnership
