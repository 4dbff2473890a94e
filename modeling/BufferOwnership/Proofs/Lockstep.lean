import BufferOwnership.Ownership.Threading
import BufferOwnership.Proofs.Advance
import BufferOwnership.Proofs.Aliases

/-!
# Two runs side by side

Two runs from one routine that differ only in where they put releases do the same at every step.
`Pass.Agree` relates two passes, each in a session of its own; neither ends in a fault. `Alike`
relates routines and `Level` sessions, and each edit on both sides keeps them level. `Held` is an
indicator that a run has made.
-/

namespace BufferOwnership

variable {pre post pre₁ post₁ pre₂ post₂ : List OpId} {vs operands : List ValueId} {types : List Ty}
variable {kind : OpKind} {d : Op} {f r r' r₁ r₂ r₁' r₂' : Routine} {b : BlockId} {o x : OpId}
variable {v i : ValueId}

open Routine

/-! ## Passes that agree -/

/-- Both passes reject for one reason, or both give one answer in sessions that are related. -/
def Pass.Agree {α : Type} (x₁ x₂ : Pass α) (s₁ s₂ : Session)
    (Q : α → Session → Session → Prop) : Prop :=
  (∃ reason, x₁ s₁ = .error (.rejected reason) ∧ x₂ s₂ = .error (.rejected reason)) ∨
    ∃ a s₁' s₂', x₁ s₁ = .ok (a, s₁') ∧ x₂ s₂ = .ok (a, s₂') ∧ Q a s₁' s₂'

namespace Pass.Agree

variable {α β : Type} {x₁ x₂ : Pass α} {f₁ f₂ : α → Pass β} {s₁ s₂ : Session} {a : α}
variable {Q Q' : α → Session → Session → Prop} {R : β → Session → Session → Prop}
variable {change₁ change₂ : Edit α}

theorem mono (h : Agree x₁ x₂ s₁ s₂ Q) (hQ : ∀ a s₁' s₂', Q a s₁' s₂' → Q' a s₁' s₂') :
    Agree x₁ x₂ s₁ s₂ Q' := by
  rcases h with hreject | ⟨a, s₁', s₂', h₁, h₂, hq⟩
  · exact .inl hreject
  · exact .inr ⟨a, s₁', s₂', h₁, h₂, hQ a s₁' s₂' hq⟩

theorem pure (h : Q a s₁ s₂) : Agree (Pure.pure a) (Pure.pure a) s₁ s₂ Q :=
  .inr ⟨a, s₁, s₂, rfl, rfl, h⟩

theorem reject (reason : Rejection) : Agree (Pass.reject reason) (Pass.reject reason) s₁ s₂ Q :=
  .inl ⟨reason, rfl, rfl⟩

/-- Agreement goes on from one step to the next. -/
theorem bind (hx : Agree x₁ x₂ s₁ s₂ Q)
    (hf : ∀ a s₁' s₂', Q a s₁' s₂' → Agree (f₁ a) (f₂ a) s₁' s₂' R) :
    Agree (x₁ >>= f₁) (x₂ >>= f₂) s₁ s₂ R := by
  have hbind : ∀ (x : Pass α) (f : α → Pass β) (s : Session),
      (x >>= f) s = (x s >>= fun p => f p.1 p.2) := fun _ _ _ => rfl
  rcases hx with ⟨reason, h₁, h₂⟩ | ⟨a, s₁', s₂', h₁, h₂, hq⟩
  · refine .inl ⟨reason, ?_, ?_⟩
    · rw [hbind, h₁]
      rfl
    · rw [hbind, h₂]
      rfl
  · rcases hf a s₁' s₂' hq with ⟨reason, h₁', h₂'⟩ | ⟨c, t₁, t₂, h₁', h₂', hr⟩
    · refine .inl ⟨reason, ?_, ?_⟩
      · rw [hbind, h₁]
        exact h₁'
      · rw [hbind, h₂]
        exact h₂'
    · refine .inr ⟨c, t₁, t₂, ?_, ?_, hr⟩
      · rw [hbind, h₁]
        exact h₁'
      · rw [hbind, h₂]
        exact h₂'

/-- Two steps that succeed, and what comes after them. -/
theorem after {y₁ y₂ : Pass α} {a₁ a₂ : α} {t₁ t₂ : Session} (h₁ : y₁ s₁ = .ok (a₁, t₁))
    (h₂ : y₂ s₂ = .ok (a₂, t₂)) (h : Agree (f₁ a₁) (f₂ a₂) t₁ t₂ R) :
    Agree (y₁ >>= f₁) (y₂ >>= f₂) s₁ s₂ R := by
  have hbind : ∀ {y : Pass α} {g : α → Pass β} {s t : Session} {a : α}, y s = .ok (a, t) →
      (y >>= g) s = g a t := fun {y g s t a} hy => by
    show (y s >>= fun p => g p.1 p.2) = _
    rw [hy]
    rfl
  rw [Agree, hbind h₁, hbind h₂]
  exact h

/-- Queries that have answers. Those may be different ones on the two sides. -/
theorem ask {query₁ query₂ : Routine → Except Fault α} {a₁ a₂ : α}
    (h₁ : query₁ s₁.routine = .ok a₁) (h₂ : query₂ s₂.routine = .ok a₂)
    (h : Agree (f₁ a₁) (f₂ a₂) s₁ s₂ R) :
    Agree (Pass.ask query₁ >>= f₁) (Pass.ask query₂ >>= f₂) s₁ s₂ R :=
  after (ask_eq_ok.mpr ⟨h₁, rfl⟩) (ask_eq_ok.mpr ⟨h₂, rfl⟩) h

section

variable (h₁ : change₁ s₁.routine = .ok (a, r₁)) (h₂ : change₂ s₂.routine = .ok (a, r₂))
include h₁ h₂

/-- An edit that succeeds with one answer on both sides. -/
theorem edit (h : Q a { s₁ with routine := r₁ } { s₂ with routine := r₂ }) :
    Agree (Pass.edit change₁) (Pass.edit change₂) s₁ s₂ Q :=
  .inr ⟨a, _, _, edit_eq_ok.mpr ⟨r₁, h₁, rfl⟩, edit_eq_ok.mpr ⟨r₂, h₂, rfl⟩, h⟩

theorem edit_bind (h : Agree (f₁ a) (f₂ a) { s₁ with routine := r₁ } { s₂ with routine := r₂ } R) :
    Agree (Pass.edit change₁ >>= f₁) (Pass.edit change₂ >>= f₂) s₁ s₂ R :=
  after (edit_eq_ok.mpr ⟨r₁, h₁, rfl⟩) (edit_eq_ok.mpr ⟨r₂, h₂, rfl⟩) h

end

theorem aliases {f₁ f₂ : AliasClasses → Pass β} (h : s₁.aliases = s₂.aliases)
    (hf : Agree (f₁ s₁.aliases) (f₂ s₁.aliases) s₁ s₂ R) :
    Agree (Pass.aliases >>= f₁) (Pass.aliases >>= f₂) s₁ s₂ R := by
  have h₁ : Pass.aliases s₁ = .ok (s₁.aliases, s₁) := rfl
  have h₂ : Pass.aliases s₂ = .ok (s₁.aliases, s₂) := by
    rw [h]
    rfl
  exact after h₁ h₂ hf

theorem modifyAliases {g : AliasClasses → AliasClasses} {f₁ f₂ : Unit → Pass β}
    (h : Agree (f₁ ()) (f₂ ()) { s₁ with aliases := g s₁.aliases }
      { s₂ with aliases := g s₂.aliases } R) :
    Agree (Pass.modifyAliases g >>= f₁) (Pass.modifyAliases g >>= f₂) s₁ s₂ R := h

theorem count {g : Tally → Tally} {f₁ f₂ : Unit → Pass β}
    (h : Agree (f₁ ()) (f₂ ()) { s₁ with tally := g s₁.tally } { s₂ with tally := g s₂.tally } R) :
    Agree (Pass.count g >>= f₁) (Pass.count g >>= f₂) s₁ s₂ R := h

/-- What is done for each member of a list, with a relation that each round keeps. -/
theorem forM {γ : Type} {g₁ g₂ : γ → Pass Unit} {l : List γ} {I : Session → Session → Prop}
    (hI : I s₁ s₂) (hg : ∀ c ∈ l, ∀ t₁ t₂, I t₁ t₂ → Agree (g₁ c) (g₂ c) t₁ t₂ fun _ => I) :
    Agree (l.forM g₁) (l.forM g₂) s₁ s₂ fun _ => I := by
  induction l generalizing s₁ s₂ with
  | nil => exact pure hI
  | cons c l ih =>
    refine bind (hg c (by simp) s₁ s₂ hI) fun _ t₁ t₂ ht => ?_
    exact ih ht fun c' hc' => hg c' (by simp [hc'])

end Pass.Agree

/-! ## Routines that differ in where releases stand -/

namespace Routine

/-- A retain without retained values, put into a routine in the course of a run from `f`. -/
def isNewRelease (f r : Routine) (x : OpId) : Bool :=
  decide (f.ops.size ≤ x.index) && decide (r.kind? x = some (.retain 0))

/-- Two routines into which a run from `f` has put the same operations. Only releases may stand in
different places, each of them in the same block. -/
structure Alike (f r₁ r₂ : Routine) : Prop where
  values : r₁.values = r₂.values
  ops : r₁.ops = r₂.ops
  regions : r₁.regions = r₂.regions
  root : r₁.root = r₂.root
  block : ∀ b, (r₁.block? b).map (fun B => (B.args, B.parent)) =
    (r₂.block? b).map fun B => (B.args, B.parent)
  kept : ∀ b, (r₁.opsOf b).filter (fun x => !f.isNewRelease r₁ x) =
    (r₂.opsOf b).filter fun x => !f.isNewRelease r₁ x
  perm : ∀ b, (r₁.opsOf b).Perm (r₂.opsOf b)

theorem Alike.refl (f r : Routine) : Alike f r r where
  values := rfl
  ops := rfl
  regions := rfl
  root := rfl
  block _ := rfl
  kept _ := rfl
  perm _ := .refl _

theorem ops_ext (h : ∀ p, r₁.op? p = r₂.op? p) : r₁.ops = r₂.ops :=
  Array.ext_getElem? fun i => h ⟨i⟩

theorem values_ext (h : ∀ v, r₁.value? v = r₂.value? v) : r₁.values = r₂.values :=
  Array.ext_getElem? fun i => h ⟨i⟩

theorem regions_ext (h : ∀ g, r₁.region? g = r₂.region? g) : r₁.regions = r₂.regions :=
  Array.ext_getElem? fun i => h ⟨i⟩

/-- What was there at the start is no release of the run. -/
theorem isNewRelease_old (hx : x.index < f.ops.size) : f.isNewRelease r x = false := by
  have hx' : ¬ f.ops.size ≤ x.index := by omega
  simp [isNewRelease, hx']

theorem Advance.isNewRelease_eq (h : Advance r r') (hx : r.op? x ≠ none) :
    f.isNewRelease r' x = f.isNewRelease r x := by
  rw [isNewRelease, isNewRelease, h.kind?_eq hx]

namespace Alike

variable (h : Alike f r₁ r₂)
include h

theorem op?_eq (p : OpId) : r₁.op? p = r₂.op? p := by rw [op?, op?, h.ops]

theorem value?_eq (v : ValueId) : r₁.value? v = r₂.value? v := by rw [value?, value?, h.values]

theorem region?_eq (g : RegionId) : r₁.region? g = r₂.region? g := by
  rw [region?, region?, h.regions]

theorem freshOp_eq : r₁.freshOp = r₂.freshOp := by rw [freshOp, freshOp, h.ops]

theorem parent?_eq (p : OpId) : r₁.parent? p = r₂.parent? p := by rw [parent?, parent?, h.op?_eq]

theorem kind?_eq (p : OpId) : r₁.kind? p = r₂.kind? p := by rw [kind?, kind?, h.op?_eq]

theorem regionsOf_eq (p : OpId) : r₁.regionsOf p = r₂.regionsOf p := by
  rw [regionsOf, regionsOf, h.op?_eq]

theorem operandsOf_eq (p : OpId) : r₁.operandsOf p = r₂.operandsOf p := by
  rw [operandsOf, operandsOf, h.op?_eq]

theorem resultsOf_eq (p : OpId) : r₁.resultsOf p = r₂.resultsOf p := by
  rw [resultsOf, resultsOf, h.op?_eq]

theorem blocksOf_eq (g : RegionId) : r₁.blocksOf g = r₂.blocksOf g := by
  rw [blocksOf, blocksOf, h.region?_eq]

theorem owner?_eq (g : RegionId) : r₁.owner? g = r₂.owner? g := by
  rw [owner?, owner?, h.region?_eq]

theorem argsOf_eq (b : BlockId) : r₁.argsOf b = r₂.argsOf b := by
  have hsame := congrArg (Option.elim · [] Prod.fst) (h.block b)
  simpa [argsOf, Option.elim_map, Function.comp_def] using hsame

theorem home?_eq (b : BlockId) : r₁.home? b = r₂.home? b := by
  have hsame := congrArg (Option.map Prod.snd) (h.block b)
  simpa [home?, Option.map_map, Function.comp_def] using hsame

theorem holder?_eq (b : BlockId) : r₁.holder? b = r₂.holder? b := by
  rw [holder?, holder?, h.home?_eq]
  exact congrArg _ (funext h.owner?_eq)

theorem up?_eq (p : OpId) : r₁.up? p = r₂.up? p := by
  rw [up?, up?, h.parent?_eq]
  exact congrArg _ (funext h.holder?_eq)

theorem inside_iff (o p : OpId) : r₁.Inside o p ↔ r₂.Inside o p := by
  have hup : (fun p o => r₁.up? o = some p) = fun p o => r₂.up? o = some p := by
    funext p o
    rw [h.up?_eq]
  rw [Inside, Inside, hup]

theorem reached_iff (o : OpId) : r₁.Reached o ↔ r₂.Reached o := by
  rw [Reached, Reached, h.root, h.inside_iff]

theorem touches_iff (test : ValueId → Bool) (o : OpId) (withOperands : Bool) :
    r₁.Touches test o withOperands ↔ r₂.Touches test o withOperands := by
  simp only [Touches, h.operandsOf_eq, h.resultsOf_eq, h.up?_eq, h.inside_iff]

theorem holdsBuffer_eq (v : ValueId) : r₁.holdsBuffer v = r₂.holdsBuffer v := by
  rw [holdsBuffer, holdsBuffer, ty?, ty?, h.value?_eq]

theorem isNewRelease_eq (x : OpId) : f.isNewRelease r₁ x = f.isNewRelease r₂ x := by
  rw [isNewRelease, isNewRelease, h.kind?_eq]

/-- Lists that agree do so later as well, when more operations are known to be releases. -/
theorem kept_later (hc₁ : r₁.Coherent) (hc₂ : r₂.Coherent) (hadv : Advance r₁ r) (c : BlockId) :
    (r₁.opsOf c).filter (fun x => !f.isNewRelease r x) =
      (r₂.opsOf c).filter fun x => !f.isNewRelease r x := by
  have hleft : ∀ x ∈ r₁.opsOf c, (!f.isNewRelease r x) = !f.isNewRelease r₁ x := by
    intro x hx
    rw [hadv.isNewRelease_eq (hc₁.inRange.ops c x hx)]
  have hright : ∀ x ∈ r₂.opsOf c, (!f.isNewRelease r x) = !f.isNewRelease r₁ x := by
    intro x hx
    rw [hadv.isNewRelease_eq (by rw [h.op?_eq]; exact hc₂.inRange.ops c x hx)]
  rw [List.filter_congr hleft, List.filter_congr hright, h.kept]

end Alike

/-- Lists that agree on a test still do after an operation is put before one that passes it. -/
theorem filter_insert_eq {P : OpId → Bool} {a : OpId} (ha : P a = true)
    (hnodup : (pre₂ ++ a :: post₂).Nodup)
    (h : (pre₁ ++ a :: post₁).filter P = (pre₂ ++ a :: post₂).filter P) :
    (pre₁ ++ x :: a :: post₁).filter P = (pre₂ ++ x :: a :: post₂).filter P := by
  obtain ⟨-, hpost, hpre⟩ := List.nodup_append.mp hnodup
  have hpre : a ∉ pre₂.filter P := fun hm => hpre a (List.mem_filter.mp hm).1 a (by simp) rfl
  have hpost : a ∉ post₂.filter P := fun hm =>
    (List.nodup_cons.mp hpost).1 (List.mem_filter.mp hm).1
  simp only [List.filter_append, List.filter_cons_of_pos ha] at h
  obtain ⟨hp, -, hq⟩ := (List.append_cons_inj_of_notMem hpre hpost).mp h.symm
  simp only [List.filter_append, List.filter_cons, ha, if_true, hp, hq]

section BothCoherent

variable (h : Alike f r₁ r₂) (hc₁ : r₁.Coherent) (hc₂ : r₂.Coherent)
include h hc₁ hc₂

/-- An operation goes into both blocks: a release anywhere, another before the same operation. -/
theorem Alike.emitted (hsize : f.ops.size ≤ r₁.ops.size) (hadv : Advance r₁ r₁')
    (e₁ : Emitted r₁ r₁' b pre₁ (a₁ :: post₁) kind operands types)
    (e₂ : Emitted r₂ r₂' b pre₂ (a₂ :: post₂) kind operands types)
    (hplace : kind = .retain 0 ∨ a₁ = a₂ ∧ a₁.index < f.ops.size) : Alike f r₁' r₂' := by
  have hfresh := h.freshOp_eq
  have hvalues : r₁.values.size = r₂.values.size := by rw [h.values]
  refine { values := values_ext fun v => ?_, ops := ops_ext fun p => ?_, regions := ?_
           root := ?_, block := fun c => ?_, kept := fun c => ?_, perm := fun c => ?_ }
  · rw [e₁.value, e₂.value, hvalues, hfresh, h.value?_eq]
  · rw [e₁.op, e₂.op, hfresh, h.op?_eq, freshValues, freshValues, hvalues]
  · rw [e₁.regions, e₂.regions, h.regions]
  · rw [e₁.root, e₂.root, h.root]
  · rw [e₁.block, e₂.block]
    have hsame := h.block c
    split
    · rw [Option.map_map, Option.map_map]
      exact hsame
    · exact hsame
  · -- a new release does not count, and anything else comes in before the same operation
    have hold := h.kept_later hc₁ hc₂ hadv c
    rw [e₁.opsOf_eq, e₂.opsOf_eq, ← hfresh]
    split
    · rename_i hc
      rw [hc, e₁.opsOf_old, e₂.opsOf_old] at hold
      rcases hplace with hkind | ⟨rfl, hanchor⟩
      · have hnew : f.isNewRelease r₁' r₁.freshOp = true := by
          rw [isNewRelease, e₁.kind?_eq, if_pos rfl, hkind]
          simp [freshOp, hsize]
        simpa [List.filter_append, List.filter_cons, hnew] using hold
      · have hnodup := hc₂.ops_nodup b
        rw [e₂.opsOf_old] at hnodup
        exact filter_insert_eq (by simp [isNewRelease_old hanchor]) hnodup hold
    · exact hold
  · rw [e₁.opsOf_eq, e₂.opsOf_eq, hfresh]
    split
    · have hperm := h.perm b
      rw [e₁.opsOf_old, e₂.opsOf_old] at hperm
      exact List.perm_middle.trans ((hperm.cons _).trans List.perm_middle.symm)
    · exact h.perm c

theorem Alike.addBlockArg (e₁ : r₁.addBlockArg b .ownership = .ok (v, r₁'))
    (e₂ : r₂.addBlockArg b .ownership = .ok (v, r₂')) : Alike f r₁' r₂' := by
  obtain ⟨hops₁, hregions₁, hroot₁⟩ := tables_addBlockArg e₁
  obtain ⟨hops₂, hregions₂, hroot₂⟩ := tables_addBlockArg e₂
  refine { values := values_ext fun w => ?_, ops := ?_, regions := ?_, root := ?_
           block := fun c => ?_, kept := fun c => ?_, perm := fun c => ?_ }
  · rw [value?_addBlockArg e₁, value?_addBlockArg e₂, h.argsOf_eq, h.value?_eq]
  · rw [hops₁, hops₂, h.ops]
  · rw [hregions₁, hregions₂, h.regions]
  · rw [hroot₁, hroot₂, h.root]
  · rw [block?_addBlockArg e₁, block?_addBlockArg e₂]
    have hsame := h.block c
    split
    · have hmap := congrArg (Option.map fun q : List ValueId × RegionId => (q.1 ++ [v], q.2)) hsame
      simpa [Option.map_map, Function.comp_def] using hmap
    · exact hsame
  · rw [opsOf_addBlockArg e₁, opsOf_addBlockArg e₂]
    exact h.kept_later hc₁ hc₂ (.addBlockArg e₁) c
  · rw [opsOf_addBlockArg e₁, opsOf_addBlockArg e₂]
    exact h.perm c

theorem Alike.appendOperands (e₁ : r₁.appendOperands o vs = .ok r₁')
    (e₂ : r₂.appendOperands o vs = .ok r₂') : Alike f r₁' r₂' := by
  obtain ⟨hvalues₁, hblocks₁, hregions₁, hroot₁, -⟩ := tables_appendOperands e₁
  obtain ⟨hvalues₂, hblocks₂, hregions₂, hroot₂, -⟩ := tables_appendOperands e₂
  have hlist₁ := opsOf_congr hblocks₁
  have hlist₂ := opsOf_congr hblocks₂
  refine { values := ?_, ops := ops_ext fun p => ?_, regions := ?_, root := ?_
           block := fun c => ?_, kept := fun c => ?_, perm := fun c => ?_ }
  · rw [hvalues₁, hvalues₂, h.values]
  · rw [op?_appendOperands e₁, op?_appendOperands e₂, h.op?_eq]
  · rw [hregions₁, hregions₂, h.regions]
  · rw [hroot₁, hroot₂, h.root]
  · simpa only [block?, hblocks₁, hblocks₂] using h.block c
  · rw [hlist₁, hlist₂]
    exact h.kept_later hc₁ hc₂ (.appendOperands e₁) c
  · rw [hlist₁, hlist₂]
    exact h.perm c

theorem Alike.eraseLeaf (hd : r₁.op? x = some d) (hleaf : d.regions = []) (hadv : Advance r₁ r₁')
    (e₁ : r₁.eraseOp x = .ok r₁') (e₂ : r₂.eraseOp x = .ok r₂') : Alike f r₁' r₂' := by
  have hd₂ : r₂.op? x = some d := by rw [← h.op?_eq, hd]
  obtain ⟨hop₁, hblock₁, hregions₁, hvalues₁, hroot₁, -, -⟩ := eraseOp_leaf_entries hd hleaf e₁
  obtain ⟨hop₂, hblock₂, hregions₂, hvalues₂, hroot₂, -, -⟩ := eraseOp_leaf_entries hd₂ hleaf e₂
  refine { values := ?_, ops := ops_ext fun p => ?_, regions := ?_, root := ?_
           block := fun c => ?_, kept := fun c => ?_, perm := fun c => ?_ }
  · rw [hvalues₁, hvalues₂, h.values]
  · rw [hop₁, hop₂, h.op?_eq]
  · rw [hregions₁, hregions₂, h.regions]
  · rw [hroot₁, hroot₂, h.root]
  · rw [hblock₁, hblock₂]
    have hsame := h.block c
    split
    · rw [Option.map_map, Option.map_map]
      exact hsame
    · exact hsame
  · rw [opsOf_eraseOp hc₁.toNested hd hleaf e₁, opsOf_eraseOp hc₂.toNested hd₂ hleaf e₂,
      List.filter_comm, List.filter_comm (p := fun p => !f.isNewRelease r₁' p),
      h.kept_later hc₁ hc₂ hadv]
  · rw [opsOf_eraseOp hc₁.toNested hd hleaf e₁, opsOf_eraseOp hc₂.toNested hd₂ hleaf e₂]
    exact (h.perm c).filter _

/-- A construct is rebuilt in a block that is the same on both sides. -/
theorem Alike.replaced {d₂ : Op} {indicators : List ValueId} {types₂ : List Ty}
    (hadv : Advance r₁ r₁') (e₁ : Rebuilt r₁ r₁' o d b pre post indicators types)
    (e₂ : Rebuilt r₂ r₂' o d₂ b pre post indicators types₂) : Alike f r₁' r₂' := by
  -- the old operation and the types of its results are the same on both sides
  obtain rfl : d = d₂ := by
    have hold := e₁.old
    rw [h.op?_eq, e₂.old] at hold
    exact (Option.some.inj hold).symm
  have hty : r₁.ty? = r₂.ty? := funext fun v => by rw [ty?, ty?, h.value?_eq]
  obtain rfl : types = types₂ := by
    have htyped := e₁.typed
    rw [hty, e₂.typed] at htyped
    exact (List.map_injective_iff.mpr (Option.some_injective _) htyped).symm
  have hfresh := h.freshOp_eq
  have hvalues : r₁.values.size = r₂.values.size := by rw [h.values]
  have hnew : ∀ n, r₁.freshValues n = r₂.freshValues n := fun n => by
    rw [freshValues, freshValues, hvalues]
  have hrenewed : r₁.renewed d.results types = r₂.renewed d.results types := by
    rw [renewed, renewed, hnew]
  refine { values := values_ext fun v => ?_, ops := ops_ext fun p => ?_
           regions := regions_ext fun g => ?_, root := ?_, block := fun c => ?_
           kept := fun c => ?_, perm := fun c => ?_ }
  · rw [e₁.value, e₂.value, hvalues, hfresh, h.value?_eq]
  · rw [e₁.op, e₂.op, hfresh, hrenewed, hnew, h.op?_eq]
  · rw [e₁.region, e₂.region, hfresh, h.region?_eq]
  · rw [e₁.root, e₂.root, h.root]
  · rw [e₁.block, e₂.block]
    have hsame := h.block c
    split
    · rw [Option.map_map, Option.map_map]
      exact hsame
    · exact hsame
  · rw [e₁.opsOf_eq, e₂.opsOf_eq, ← hfresh]
    split
    · rfl
    · exact h.kept_later hc₁ hc₂ hadv c
  · rw [e₁.opsOf_eq, e₂.opsOf_eq, ← hfresh]
    split
    · exact .refl _
    · exact h.perm c

end BothCoherent

/-! ## Indicators of a run -/

/-- An indicator that a run from `f` has made. If it comes from an operation, that is one that
makes an indicator for a fresh buffer, or it stands in one of the given blocks if anywhere. -/
structure Held (f r : Routine) (P : BlockId → Prop) (i : ValueId) : Prop where
  made : f.values.size ≤ i.index
  known : i.index < r.values.size
  place : ∀ x k, r.origin? i = some (.result x k) →
    r.kind? x = some .own ∨ ∀ c, r.parent? x = some c → P c

namespace Held

variable {P P' : BlockId → Prop}

theorem mono (h : Held f r P i) (hP : ∀ c, P c → P' c) : Held f r P' i where
  made := h.made
  known := h.known
  place x k hx := (h.place x k hx).imp_right fun hplace c hc => hP c (hplace c hc)

theorem later (h : Held f r P i) (hc : r.Coherent) (hadv : Advance r r') : Held f r' P i where
  made := h.made
  known := Nat.lt_of_lt_of_le h.known hadv.size_values
  place x k hx := by
    rw [hadv.origin?_eq h.known] at hx
    have hthere := op?_ne_none (hc.origin_known i x k hx)
    rcases h.place x k hx with hown | hplace
    · exact .inl (hadv.kind x _ hown)
    · exact .inr fun c hparent => hplace c (hadv.parent x c hthere hparent)

end Held

end Routine

/-! ## Sessions in step -/

/-- Two sessions of runs from `f` that differ only in where releases stand. -/
structure Level (f : Routine) (s₁ s₂ : Session) : Prop where
  left : s₁.routine.Coherent
  right : s₂.routine.Coherent
  since_left : Advance f s₁.routine
  since_right : Advance f s₂.routine
  alike : Alike f s₁.routine s₂.routine
  aliases : s₁.aliases = s₂.aliases
  tally : s₁.tally = s₂.tally
  recorded : ∀ v i, (v, i) ∈ s₁.aliases.indicators → Held f s₁.routine (fun _ => False) i

/-- Two level sessions are level again, and only blocks that pass have other lists of operations. -/
structure Abreast (f : Routine) (P : BlockId → Prop) (s₁ s₂ s₁' s₂' : Session) : Prop where
  level : Level f s₁' s₂'
  advance : Advance s₁.routine s₁'.routine
  left : ∀ c, ¬ P c → s₁'.routine.opsOf c = s₁.routine.opsOf c
  right : ∀ c, ¬ P c → s₂'.routine.opsOf c = s₂.routine.opsOf c

section Level

variable {s₁ s₂ s₁' s₂' s₁'' s₂'' : Session} {P P' : BlockId → Prop}

theorem Level.start (hf : f.Coherent) : Level f (.start f) (.start f) where
  left := hf
  right := hf
  since_left := .refl f
  since_right := .refl f
  alike := .refl f f
  aliases := rfl
  tally := rfl
  recorded v i hi := by cases hi

namespace Abreast

theorem refl (h : Level f s₁ s₂) : Abreast f P s₁ s₂ s₁ s₂ where
  level := h
  advance := .refl _
  left _ _ := rfl
  right _ _ := rfl

theorem mono (h : Abreast f P s₁ s₂ s₁' s₂') (hP : ∀ c, P c → P' c) :
    Abreast f P' s₁ s₂ s₁' s₂' where
  level := h.level
  advance := h.advance
  left c hc := h.left c fun hp => hc (hP c hp)
  right c hc := h.right c fun hp => hc (hP c hp)

theorem trans (h : Abreast f P s₁ s₂ s₁' s₂') (h' : Abreast f P s₁' s₂' s₁'' s₂'') :
    Abreast f P s₁ s₂ s₁'' s₂'' where
  level := h'.level
  advance := h.advance.trans h'.advance
  left c hc := (h'.left c hc).trans (h.left c hc)
  right c hc := (h'.right c hc).trans (h.right c hc)

end Abreast

/-! ### What does not change the routine -/

section

variable (h : Level f s₁ s₂)
include h

/-- The classes change in the same way, and what is recorded afterwards is held. -/
theorem Level.modifyAliases (g : AliasClasses → AliasClasses)
    (hg : ∀ v i, (v, i) ∈ (g s₁.aliases).indicators → Held f s₁.routine (fun _ => False) i) :
    Level f { s₁ with aliases := g s₁.aliases } { s₂ with aliases := g s₂.aliases } where
  left := h.left
  right := h.right
  since_left := h.since_left
  since_right := h.since_right
  alike := h.alike
  aliases := congrArg g h.aliases
  tally := h.tally
  recorded := hg

theorem Level.count (g : Tally → Tally) :
    Level f { s₁ with tally := g s₁.tally } { s₂ with tally := g s₂.tally } where
  left := h.left
  right := h.right
  since_left := h.since_left
  since_right := h.since_right
  alike := h.alike
  aliases := h.aliases
  tally := congrArg g h.tally
  recorded := h.recorded

theorem Level.unionAll (pairs : List (ValueId × ValueId)) :
    Level f { s₁ with aliases := s₁.aliases.unionAll pairs }
      { s₂ with aliases := s₂.aliases.unionAll pairs } := by
  refine h.modifyAliases (·.unionAll pairs) fun v i hi => ?_
  rw [AliasClasses.indicators_unionAll] at hi
  exact h.recorded v i hi

theorem Level.setIndicator (v : ValueId) (hi : Held f s₁.routine (fun _ => False) i) :
    Level f { s₁ with aliases := s₁.aliases.setIndicator v i }
      { s₂ with aliases := s₂.aliases.setIndicator v i } := by
  refine h.modifyAliases (·.setIndicator v i) fun w j hj => ?_
  have hmem := AliasClasses.indicators_setIndicator_subset _ _ _ hj
  rcases List.mem_cons.mp hmem with heq | hj
  · cases heq
    exact hi
  · exact h.recorded w j hj

theorem Level.dropIndicator (v : ValueId) :
    Level f { s₁ with aliases := s₁.aliases.dropIndicator v }
      { s₂ with aliases := s₂.aliases.dropIndicator v } := by
  refine h.modifyAliases (·.dropIndicator v) fun w j hj => ?_
  exact h.recorded w j (List.filter_sublist.subset hj)

end

/-! ### Edits on both sides -/

/-- Both routines have changed, and all that is asked of each of them holds. -/
theorem Level.edited (h : Level f s₁ s₂) (hc₁ : r₁'.Coherent) (hc₂ : r₂'.Coherent)
    (hadv₁ : Advance s₁.routine r₁') (hadv₂ : Advance s₂.routine r₂') (halike : Alike f r₁' r₂') :
    Level f { s₁ with routine := r₁' } { s₂ with routine := r₂' } where
  left := hc₁
  right := hc₂
  since_left := h.since_left.trans hadv₁
  since_right := h.since_right.trans hadv₂
  alike := halike
  aliases := h.aliases
  tally := h.tally
  recorded v i hi := (h.recorded v i hi).later h.left hadv₁

theorem Level.emit (h : Level f s₁ s₂) (kind : OpKind) (operands : List ValueId) (types : List Ty)
    (hl₁ : s₁.routine.opsOf b = pre₁ ++ a₁ :: post₁)
    (hl₂ : s₂.routine.opsOf b = pre₂ ++ a₂ :: post₂)
    (hknown : ∀ v ∈ operands, v.index < s₁.routine.values.size)
    (hkind : ∀ n, kind = .retain n → types.length = n ∧ n ≤ operands.length)
    (hplace : kind = .retain 0 ∨ a₁ = a₂ ∧ a₁.index < f.ops.size) :
    ∃ r₁' r₂', Emit.operation (.before a₁) kind operands types 0 s₁.routine =
        .ok (s₁.routine.freshOp, r₁') ∧
      Emit.operation (.before a₂) kind operands types 0 s₂.routine =
        .ok (s₁.routine.freshOp, r₂') ∧
      Emitted s₁.routine r₁' b pre₁ (a₁ :: post₁) kind operands types ∧
      Emitted s₂.routine r₂' b pre₂ (a₂ :: post₂) kind operands types ∧
      Abreast f (· = b) s₁ s₂ { s₁ with routine := r₁' } { s₂ with routine := r₂' } := by
  obtain ⟨r₁', hr₁, e₁⟩ := h.left.emit hl₁ kind operands types
  obtain ⟨r₂', hr₂, e₂⟩ := h.right.emit hl₂ kind operands types
  have hadv₁ := e₁.advance (by simp) hkind
  have hadv₂ := e₂.advance (by simp) hkind
  have hknown₂ := h.alike.values ▸ hknown
  -- both sides have as many operations, so the new one has one name
  refine ⟨r₁', r₂', hr₁, by rw [h.alike.freshOp_eq]; exact hr₂, e₁, e₂, ?_⟩
  exact {
    level := h.edited (e₁.coherent h.left (h.left.operation hr₁) hknown)
      (e₂.coherent h.right (h.right.operation hr₂) hknown₂) hadv₁ hadv₂
      (h.alike.emitted h.left h.right h.since_left.size_ops hadv₁ e₁ e₂ hplace)
    advance := hadv₁
    left := fun c hc => by rw [e₁.opsOf_eq, if_neg hc]
    right := fun c hc => by rw [e₂.opsOf_eq, if_neg hc] }

/-- The results of an operation that was put into a block are indicators of the run. -/
theorem Emitted.held {r r' : Routine} (e : Emitted r r' b pre post kind operands types)
    (hsize : f.values.size ≤ r.values.size) (hv : v ∈ r.freshValues types.length) :
    Held f r' (· = b) v := by
  obtain ⟨hge, hlt⟩ := mem_freshValues.mp hv
  refine ⟨Nat.le_trans hsize hge, by rw [e.size_values]; exact hlt, fun x k hx => .inr ?_⟩
  cases e.origin?_new hge hx
  intro c hc
  rw [e.parent?_eq, if_pos rfl] at hc
  exact (Option.some.inj hc).symm

/-! ### Queries with one answer -/

/-- Two queries have one answer. -/
def Concur {α : Type} (x₁ x₂ : Except Fault α) : Prop := ∃ a, x₁ = .ok a ∧ x₂ = .ok a

theorem Concur.bind {α β : Type} {x₁ x₂ : Except Fault α} {f₁ f₂ : α → Except Fault β}
    (hx : Concur x₁ x₂) (hf : ∀ a, x₁ = .ok a → Concur (f₁ a) (f₂ a)) :
    Concur (x₁ >>= f₁) (x₂ >>= f₂) := by
  obtain ⟨a, h₁, h₂⟩ := hx
  rw [bind_of_ok h₁, bind_of_ok h₂]
  exact hf a h₁

theorem Level.op_right (h : Level f s₁ s₂) (hd : s₁.routine.op? o = some d) :
    s₂.routine.op o = .ok d :=
  op_of (by rw [← h.alike.op?_eq, hd])

/-- The right side finds the same buffers as the left. -/
theorem Level.buffers_right (h : Level f s₁ s₂) (hvs : ∀ v ∈ vs, v.index < s₁.routine.values.size) :
    s₂.routine.buffers vs = .ok (vs.filter s₁.routine.holdsBuffer) := by
  rw [buffers_ok (by rw [← h.alike.values]; exact hvs), funext h.alike.holdsBuffer_eq]

/-- Both sides find the same buffers among the operands of an operation. -/
theorem Level.operandBuffers (h : Level f s₁ s₂) (hd : s₁.routine.op? o = some d) :
    (do s₁.routine.buffers (← s₁.routine.op o).operands) =
        .ok (d.operands.filter s₁.routine.holdsBuffer) ∧
      (do s₂.routine.buffers (← s₂.routine.op o).operands) =
        .ok (d.operands.filter s₁.routine.holdsBuffer) := by
  have hknown : ∀ v ∈ d.operands, v.index < s₁.routine.values.size := fun v hv =>
    h.left.operands_known o v (by rwa [operandsOf_of hd])
  rw [bind_of_ok (op_of hd), bind_of_ok (h.op_right hd)]
  exact ⟨buffers_ok hknown, h.buffers_right hknown⟩

theorem Level.buffers (h : Level f s₁ s₂) (hvs : ∀ v ∈ vs, v.index < s₁.routine.values.size) :
    Concur (s₁.routine.buffers vs) (s₂.routine.buffers vs) :=
  ⟨_, buffers_ok hvs, h.buffers_right hvs⟩

end Level

end BufferOwnership
