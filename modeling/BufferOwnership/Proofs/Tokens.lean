import BufferOwnership.Proofs.Queries
import BufferOwnership.Proofs.Run

/-!
# Indicators on their way through a block

The indicators that a block owns at some point are tokens: the run made them, and they are arguments
of the block or results of operations before that point. So they can be used from there on to the
end of the block, which turns them into one token for each buffer that escapes.
-/

namespace BufferOwnership

open Routine

/-- An indicator made by the run that is at hand in a block after the operations `front`. -/
structure Token (f r : Routine) (b : BlockId) (front : List OpId) (i : ValueId) : Prop where
  typed : r.ty? i = some .ownership
  later : f.values.size ≤ i.index
  here : i ∈ r.argsOf b ∨ ∃ p ∈ front, i ∈ r.resultsOf p

variable {f r r' : Routine} {F : Footprint} {s s' : Session} {b : BlockId} {p : OpId}
variable {point : InsertPoint} {u : Unit} {front front' : List OpId} {t : OpId} {i v : ValueId}
variable {owned : ValueSet} {indicators : List ValueId} {groups : List EscapeGroup}
variable {null? : Option ValueId} {c : AliasClasses} {δ : Delta}

namespace Token

theorem visible (h : Token f r b front i) : r.Visible b front i := by
  rcases h.here with harg | ⟨p, hp, hres⟩
  · exact .argument harg
  · exact .earlier hp hres

theorem known (h : Token f r b front i) : i.index < r.values.size := by
  obtain ⟨V, hV, -⟩ := Option.map_eq_some_iff.mp h.typed
  exact lt_of_value? hV

theorem keep (h : Token f r b front i) (hkept : Kept r r') (hsub : ∀ p ∈ front, p ∈ front') :
    Token f r' b front' i where
  typed := hkept.ty? h.typed
  later := h.later
  here := by
    refine h.here.imp (fun harg => (hkept.args b).subset harg) ?_
    rintro ⟨p, hp, hres⟩
    exact ⟨p, hsub p hp, hkept.mem_resultsOf hres⟩

end Token

theorem Threaded.size_values (h : Threaded f s) : f.values.size ≤ s.routine.values.size := by
  obtain ⟨δ, hδ⟩ := h.embedded
  exact hδ.change.keeps.size_values

/-! ## Putting operations into a block -/

/-- Only the operations of one block change. -/
def Footprint.emission (b : BlockId) : Footprint where
  ops _ := False
  blocks c := c = b
  args _ := False

/-- The kinds of operations that are inserted. -/
def Insertable (kind : OpKind) (operands : List ValueId) (types : List Ty) : Prop :=
  kind = .own ∨ kind = .null ∨ ∃ n, kind = .retain n ∧ n ≤ operands.length ∧ types.length = n

section Emission

variable {kind : OpKind} {operands : List ValueId} {types : List Ty} {pre post : List OpId}
variable {anchor x : OpId}

/-- The results of an inserted operation are indicators, if all its types say so. -/
theorem Emitted.ty?_fresh (h : Emitted r r' b pre post kind operands types)
    (htypes : ∀ ty ∈ types, ty = .ownership) (hi : i ∈ r.freshValues types.length) :
    r'.ty? i = some .ownership := by
  obtain ⟨hge, hlt⟩ := mem_freshValues.mp hi
  have hval := h.value i
  rw [if_neg (by omega), List.getElem?_eq_getElem (by omega), Option.map_some] at hval
  rw [ty?_of hval]
  exact congrArg some (htypes _ (List.getElem_mem _))

theorem Emitted.legal (h : Emitted r r' b pre post kind operands types) (hw : r.WellFormed)
    (hl' : r'.Linked) (hpost : post ≠ []) (hkind : Insertable kind operands types)
    (htypes : ∀ ty ∈ types, ty = .ownership)
    (howns : kind = .own → ∃ v, operands = [v] ∧ f.AllocatedIn b v)
    (hvis : ∀ v ∈ operands, r.Visible b pre v) : Legal f (.emission b) r r' h.delta where
  change := h.change hw.linked hpost hkind
  sound := h.sound hw (h.change hw.linked hpost hkind) hvis
  linked := hl'
  later :=
    { lost := fun _ hx => by cases hx
      renamed := fun _ hx => absurd rfl hx
      added := fun _ _ hv => by cases hv }
  ops p hp := by
    rcases hp with hp | hp
    · exact absurd rfl hp
    · exact absurd rfl hp
  blocks c hc := (h.opsOf_eq c).trans (if_neg hc)
  args c _ := h.argsOf_eq c
  renamed p hp := absurd rfl hp
  added p hp := absurd rfl hp
  opened c hc := absurd (h.argsOf_eq c) hc
  made x hx hx' := by
    -- the operation that was put in is the only new one
    obtain rfl : x = r.freshOp := by
      by_contra hne
      exact hx' ((h.op?_of_ne hne).trans hx)
    constructor
    · intro _ v hv
      rw [resultsOf_of h.op?_fresh] at hv
      exact h.ty?_fresh htypes hv
    · intro hown
      rw [kind?_of h.op?_fresh] at hown
      obtain ⟨v, hoperands, halloc⟩ := howns (Option.some.inj hown)
      have hv : r'.operandsOf r.freshOp = [v] := (operandsOf_of h.op?_fresh).trans hoperands
      exact ⟨b, v, parent?_of h.op?_fresh, hv, halloc⟩

/-- An operation that is put before another stands right before it. -/
theorem Emit.operation_before (hl : r.Linked) (hlist : r.opsOf b = pre ++ anchor :: post)
    (h : Emit.operation (.before anchor) kind operands types 0 r = .ok (x, r')) :
    x = r.freshOp ∧ Emitted r r' b pre (anchor :: post) kind operands types := by
  obtain ⟨hx, c, pre', post', ⟨-, -, rest, rfl⟩, hem⟩ := Emit.operation_emitted h
  obtain ⟨rfl, rfl, rfl⟩ := hl.place_unique hlist hem.opsOf_old
  exact ⟨hx, hem⟩

section

variable (ht : Threaded f s) (hlist : s.routine.opsOf b = pre ++ anchor :: post)
variable (h : Emit.operation (.before anchor) kind operands types 0 s.routine = .ok (x, s'.routine))
include ht hlist h

/-- An emission is a step. -/
theorem Threaded.emit (haliases : s'.aliases = s.aliases) (hkind : Insertable kind operands types)
    (htypes : ∀ ty ∈ types, ty = .ownership)
    (howns : kind = .own → ∃ v, operands = [v] ∧ f.AllocatedIn b v)
    (hvis : ∀ v ∈ operands, s.routine.Visible b pre v) :
    Run f (.emission b) s s' ∧ s'.routine.opsOf b = pre ++ x :: anchor :: post ∧
      s'.routine.kind? x = some kind ∧ s'.routine.regionsOf x = [] ∧
      s'.routine.resultsOf x = s.routine.freshValues types.length := by
  obtain ⟨rfl, hem⟩ := Emit.operation_before ht.wellFormed.linked hlist h
  have hlegal := hem.legal (f := f) ht.wellFormed (ht.wellFormed.linked.operation h) (by simp) hkind
    htypes howns hvis
  refine ⟨.single (.edit _ hlegal haliases), by simp [hem.opsOf_eq], ?_, ?_, ?_⟩
  · rw [kind?_of hem.op?_fresh]
  · rw [regionsOf_of hem.op?_fresh]
  · rw [resultsOf_of hem.op?_fresh]

/-- The results of an inserted operation are tokens after it. -/
theorem Threaded.emit_token (htypes : ∀ ty ∈ types, ty = .ownership) (hx : x ∈ front)
    (hi : i ∈ s.routine.freshValues types.length) : Token f s'.routine b front i := by
  obtain ⟨rfl, hem⟩ := Emit.operation_before ht.wellFormed.linked hlist h
  have hge := (mem_freshValues.mp hi).1
  exact ⟨hem.ty?_fresh htypes hi, Nat.le_trans ht.size_values hge,
    .inr ⟨_, hx, by rwa [resultsOf_of hem.op?_fresh]⟩⟩

end

end Emission

/-! ## Runs that only insert -/

/-- Where nothing is renamed and nothing gets operands, operands stay as they are. -/
theorem Run.operandsOf (h : Run f F s s') (hops : ∀ p, ¬ F.ops p)
    (hf : f.op? p ≠ none) (hp : s.routine.isErased p = false) (hr : s.routine.op? p ≠ none) :
    s'.routine.operandsOf p = s.routine.operandsOf p ∧ s'.routine.isErased p = false ∧
      s'.routine.op? p ≠ none := by
  refine h.preserves (P := fun r => r.operandsOf p = _ ∧ r.isErased p = false ∧ r.op? p ≠ none)
    ⟨rfl, hp, hr⟩ fun {_ _ δ} _ hlegal _ ih => ?_
  obtain ⟨hsame, hlive, hentry⟩ := ih
  obtain ⟨hlive', hoperands⟩ := hlegal.operandsOf hf hentry hlive (hops p)
  -- values move only with an operation that gets another name
  have hvalue : ∀ v, δ.value v = v := by
    intro v
    by_contra hne
    obtain ⟨q, hq, -⟩ := hlegal.change.moved v hne
    exact hops q (hlegal.ops q (.inl hq))
  refine ⟨?_, hlive', hlegal.change.keeps.op?_ne_none hentry⟩
  rw [hoperands, hsame]
  exact (List.map_congr_left fun v _ => hvalue v).trans (List.map_id _)

/-! ## What is reached -/

/-- What is reached in the original routine is reached under its new name. -/
theorem Embedding.reached (h : Embedding f r δ) (hw : f.WellFormed) (hp : f.Reached p) :
    r.Reached (δ.op p) := by
  induction hp with
  | refl =>
    rw [h.change.op_eq_self hw.isConstruct_root, ← h.change.root]
    exact .refl
  | @tail m p hm hup ih =>
    refine ih.step ?_
    obtain ⟨c, hparent, hholder⟩ := exists_parent?_of_up? hup
    obtain ⟨d, hd, hdparent⟩ := exists_op?_of_parent? hparent
    have hlive := hw.live p (Reached.step hm hup)
    obtain ⟨e, he, hgrown⟩ := h.change.image_of_live hd hlive (h.lossless p)
    have hparent' : r.parent? (δ.op p) = some c := by
      rw [parent?_of he, hgrown.parent, hdparent]
    rw [up?_of_parent? hparent', h.change.holder?, hholder]
    rfl

/-- An operation of the original routine that is not erased has its own name. -/
theorem Embedding.op_eq_self (h : Embedding f r δ) (hp : r.isErased p = false) : δ.op p = p := by
  by_contra hne
  rw [(h.change.renamed p hne).2.2.2] at hp
  cases hp

/-- One that is erased has got another name. -/
theorem Embedding.op_ne_of_gone (h : Embedding f r δ) (hw : f.WellFormed) (hp : f.Reached p)
    (hgone : r.isErased p = true) : δ.op p ≠ p := by
  intro hop
  obtain ⟨d, hd⟩ := Option.ne_none_iff_exists'.mp (hw.op?_of_reached hp)
  obtain ⟨e, he, hgrown⟩ := h.change.image_of_live hd (hw.live p hp) (h.lossless p)
  rw [hop] at he
  rw [isErased_of he, hgrown.live] at hgone
  cases hgone

theorem Threaded.reached (h : Threaded f s) (hw : f.WellFormed) (hp : f.Reached p)
    (hlive : s.routine.isErased p = false) : s.routine.Reached p := by
  obtain ⟨δ, hδ⟩ := h.embedded
  have hreached := hδ.reached hw hp
  rwa [hδ.op_eq_self hlive] at hreached

/-! ## Inserting in a session -/

namespace Emit

theorem single_eq_ok {kind : OpKind} {operands : List ValueId} {ty : Ty}
    (h : single point kind operands ty r = .ok (v, r')) :
    v = ⟨r.values.size⟩ ∧ ∃ x, operation point kind operands [ty] 0 r = .ok (x, r') := by
  obtain ⟨⟨x, after⟩, hop, hrest⟩ := bind_eq_ok.mp h
  cases hrest
  exact ⟨rfl, x, hop⟩

end Emit

namespace Pass

variable {g : AliasClasses → AliasClasses}

theorem aliases_eq_ok (h : aliases s = .ok (c, s')) : c = s.aliases ∧ s = s' := by
  unfold aliases at h
  simp only [Except.ok.injEq, Prod.mk.injEq] at h
  exact ⟨h.1.symm, h.2⟩

theorem aliases_bind_eq_ok {α : Type} {f : AliasClasses → Pass α} {a : α} :
    (aliases >>= f) s = .ok (a, s') ↔ f s.aliases s = .ok (a, s') := .rfl

theorem modifyAliases_eq_ok (h : modifyAliases g s = .ok (u, s')) :
    s'.routine = s.routine ∧ s'.aliases = g s.aliases := by
  unfold modifyAliases at h
  simp only [Except.ok.injEq, Prod.mk.injEq] at h
  exact h.2 ▸ ⟨rfl, rfl⟩

theorem modifyAliases_tally (h : modifyAliases g s = .ok (u, s')) : s'.tally = s.tally := by
  unfold modifyAliases at h
  simp only [Except.ok.injEq, Prod.mk.injEq] at h
  exact h.2 ▸ rfl

theorem count_eq_ok {g : Tally → Tally} (h : count g s = .ok (u, s')) :
    s'.routine = s.routine ∧ s'.aliases = s.aliases := by
  unfold count at h
  simp only [Except.ok.injEq, Prod.mk.injEq] at h
  exact h.2 ▸ ⟨rfl, rfl⟩

theorem count_tally {g : Tally → Tally} (h : count g s = .ok (u, s')) : s'.tally = g s.tally := by
  unfold count at h
  simp only [Except.ok.injEq, Prod.mk.injEq] at h
  exact h.2 ▸ rfl

theorem counted_edit_eq_ok {α : Type} {g : Tally → Tally} {run : Edit α} {a : α}
    (h : (do count g; edit run) s = .ok (a, s')) :
    run s.routine = .ok (a, s'.routine) ∧ s'.aliases = s.aliases ∧ s'.tally = g s.tally := by
  obtain ⟨_, mid, hcount, h⟩ := Pass.bind_eq_ok.mp h
  obtain ⟨hroutine, haliases⟩ := count_eq_ok hcount
  obtain ⟨r', hedit, rfl⟩ := edit_eq_ok.mp h
  rw [hroutine] at hedit
  exact ⟨hedit, haliases, (count_tally hcount :)⟩

theorem retain_eq_ok {retained owned : List ValueId} {x : OpId}
    (h : retain point retained owned s = .ok (x, s')) :
    Emit.operation point (.retain retained.length) (retained ++ owned)
      (retained.map fun _ => .ownership) 0 s.routine = .ok (x, s'.routine) ∧
      s'.aliases = s.aliases := by
  obtain ⟨hedit, haliases, -⟩ := counted_edit_eq_ok h
  exact ⟨hedit, haliases⟩

theorem null_eq_ok (h : null point s = .ok (i, s')) :
    i = ⟨s.routine.values.size⟩ ∧ s'.aliases = s.aliases ∧
      ∃ x, Emit.operation point .null [] [.ownership] 0 s.routine = .ok (x, s'.routine) := by
  obtain ⟨hedit, haliases, -⟩ := counted_edit_eq_ok h
  obtain ⟨hi, hop⟩ := Emit.single_eq_ok hedit
  exact ⟨hi, haliases, hop⟩

theorem own_eq_ok (h : own point v s = .ok (i, s')) :
    i = ⟨s.routine.values.size⟩ ∧ s'.aliases = s.aliases.setIndicator v i ∧
      ∃ x, Emit.operation point .own [v] [.ownership] 0 s.routine = .ok (x, s'.routine) := by
  obtain ⟨j, mid, hmid, h⟩ := Pass.bind_eq_ok.mp h
  obtain ⟨r', hedit, rfl⟩ := edit_eq_ok.mp hmid
  obtain ⟨_, mid', hmod, h⟩ := Pass.bind_eq_ok.mp h
  obtain ⟨hroutine, haliases⟩ := modifyAliases_eq_ok hmod
  obtain ⟨_, mid'', hcount, h⟩ := Pass.bind_eq_ok.mp h
  obtain ⟨hroutine', haliases'⟩ := count_eq_ok hcount
  cases h
  obtain ⟨hi, hop⟩ := Emit.single_eq_ok hedit
  rw [hroutine', hroutine, haliases', haliases]
  exact ⟨hi, rfl, hop⟩

theorem ownAll_cons {buffers : List ValueId}
    (h : ownAll point (v :: buffers) s = .ok (indicators, s')) :
    ∃ i others mid, indicators = i :: others ∧ own point v s = .ok (i, mid) ∧
      ownAll point buffers mid = .ok (others, s') := by
  obtain ⟨i, mid, hown, h⟩ := Pass.bind_eq_ok.mp h
  obtain ⟨others, last, hothers, h⟩ := Pass.bind_eq_ok.mp h
  cases h
  exact ⟨i, others, mid, rfl, hown, hothers⟩

section Closing

variable {settings : Settings} {escaping : List ValueId} {group : EscapeGroup}
variable {settled : List (Nat × ValueId)} {acquired : List ValueId}

/-- Of the owned indicators in order, the first is released unless its class escapes. -/
theorem releaseUnescaped_cons {rest : List ValueId}
    (h : releaseUnescaped settings t escaping (i :: rest) s = .ok (u, s')) :
    ((∃ v ∈ escaping, s.aliases.same v i = true) ∧
      releaseUnescaped settings t escaping rest s = .ok (u, s')) ∨
    ((∀ v ∈ escaping, s.aliases.same v i = false) ∧ ∃ anchor x mid,
      s.routine.releaseAnchor settings s.aliases t i = .ok anchor ∧
      retain (.before anchor) [] [i] s = .ok (x, mid) ∧
      releaseUnescaped settings t escaping rest mid = .ok (u, s')) := by
  rw [releaseUnescaped] at h
  rw [aliases_bind_eq_ok] at h
  split at h
  · rename_i hescapes
    exact .inl ⟨List.any_eq_true.mp hescapes, h⟩
  · rename_i hescapes
    obtain ⟨x, mid, hrelease, h⟩ := Pass.bind_eq_ok.mp h
    obtain ⟨anchor, hanchor, hrelease⟩ := ask_bind_eq_ok.mp (aliases_bind_eq_ok.mp hrelease)
    refine .inr ⟨by simpa using hescapes, anchor, x, mid, hanchor, hrelease, h⟩

/-- A group leaves with the indicator that is there for it, or with the results of a retain. -/
theorem settleGroup_eq_ok (h : settleGroup t group s = .ok (settled, s')) :
    (group.isDirect = true ∧ settled = (group.escaping.map (·.1)).zip group.owned ∧ s' = s) ∨
    ∃ x mid, retain (.before t) (group.escaping.map (·.2)) group.owned s = .ok (x, mid) ∧
      s'.routine = mid.routine ∧
      s'.aliases = s.aliases.unionAll
        ((mid.routine.resultsOf x).zip (group.escaping.map (·.2))) ∧
      settled = (group.escaping.map (·.1)).zip (mid.routine.resultsOf x) := by
  unfold settleGroup at h
  split at h
  · rename_i hdirect
    cases h
    exact .inl ⟨hdirect, rfl, rfl⟩
  · obtain ⟨x, mid, hretain, h⟩ := Pass.bind_eq_ok.mp h
    obtain ⟨d, hd, h⟩ := Pass.ask_bind_eq_ok.mp h
    obtain ⟨_, mid', hunion, h⟩ := Pass.bind_eq_ok.mp h
    obtain ⟨hroutine, haliases⟩ := modifyAliases_eq_ok hunion
    cases h
    rw [(retain_eq_ok hretain).2] at haliases
    rw [← resultsOf_of (op_eq_ok.mp hd)] at haliases ⊢
    exact .inr ⟨x, mid, hretain, hroutine, haliases, rfl⟩

theorem settleGroups_cons (h : settleGroups t (group :: groups) s = .ok (settled, s')) :
    ∃ first others mid, settled = first ++ others ∧ settleGroup t group s = .ok (first, mid) ∧
      settleGroups t groups mid = .ok (others, s') := by
  obtain ⟨first, mid, hfirst, h⟩ := Pass.bind_eq_ok.mp h
  obtain ⟨others, last, hothers, h⟩ := Pass.bind_eq_ok.mp h
  cases h
  exact ⟨first, others, mid, rfl, hfirst, hothers⟩

/-- The first of some positions gets what is settled for it, or a null. The null is made for the
first position that needs one, and is shared by the others. -/
theorem fillSlots_cons {position : Nat} {rest : List Nat}
    (h : fillSlots t settled null? (position :: rest) s = .ok (acquired, s')) :
    ∃ i others mid shared?, acquired = i :: others ∧
      fillSlots t settled shared? rest mid = .ok (others, s') ∧
      ((settled.lookup position = some i ∧ shared? = null? ∧ mid = s) ∨
        (settled.lookup position = none ∧ shared? = some i ∧
          ((null? = some i ∧ mid = s) ∨ null (.before t) s = .ok (i, mid)))) := by
  -- whatever comes first, the others follow
  have hcons : ∀ {i : ValueId} {mid : Session} {shared? : Option ValueId},
      (do return i :: (← fillSlots t settled shared? rest)) mid = .ok (acquired, s') →
      ∃ others, acquired = i :: others ∧
        fillSlots t settled shared? rest mid = .ok (others, s') := by
    intro i mid shared? hrest
    obtain ⟨others, last, hothers, hrest⟩ := Pass.bind_eq_ok.mp hrest
    cases hrest
    exact ⟨others, rfl, hothers⟩
  cases hlookup : settled.lookup position with
  | some i =>
    simp only [fillSlots, hlookup] at h
    obtain ⟨others, hacquired, hothers⟩ := hcons h
    exact ⟨i, others, s, null?, hacquired, hothers, .inl ⟨rfl, rfl, rfl⟩⟩
  | none =>
    cases null? with
    | some i =>
      simp only [fillSlots, hlookup] at h
      obtain ⟨others, hacquired, hothers⟩ := hcons h
      exact ⟨i, others, s, some i, hacquired, hothers, .inr ⟨rfl, rfl, .inl ⟨rfl, rfl⟩⟩⟩
    | none =>
      simp only [fillSlots, hlookup] at h
      obtain ⟨i, mid, hnull, h⟩ := Pass.bind_eq_ok.mp h
      obtain ⟨others, hacquired, hothers⟩ := hcons h
      exact ⟨i, others, mid, some i, hacquired, hothers, .inr ⟨rfl, rfl, .inr hnull⟩⟩

/-- A block closes in three steps. -/
theorem closeBlock_eq_ok (h : closeBlock settings t owned s = .ok (acquired, s')) :
    ∃ escaping mid₁ settled mid₂, escaping = (s.routine.operandsOf t).filter s.routine.holdsBuffer ∧
      releaseUnescaped settings t escaping owned.toList s = .ok ((), mid₁) ∧
      settleGroups t (mid₁.aliases.planEscapes escaping owned) mid₁ = .ok (settled, mid₂) ∧
      fillSlots t settled none (List.range escaping.length) mid₂ = .ok (acquired, s') := by
  obtain ⟨escaping, hescaping, h⟩ := Pass.ask_bind_eq_ok.mp h
  obtain ⟨d, hd, hbuffers⟩ := BufferOwnership.bind_eq_ok.mp hescaping
  obtain ⟨_, mid₁, hrelease, h⟩ := Pass.bind_eq_ok.mp h
  rw [aliases_bind_eq_ok] at h
  obtain ⟨settled, mid₂, hsettle, h⟩ := Pass.bind_eq_ok.mp h
  refine ⟨escaping, mid₁, settled, mid₂, ?_, hrelease, hsettle, h⟩
  rw [operandsOf_of (op_eq_ok.mp hd), buffers_eq_ok hbuffers]

/-! ### What single steps establish together -/

section Chains

variable {R : Session → Session → Prop} (hrefl : ∀ s, R s s)
variable (htrans : ∀ {s₁ s₂ s₃}, R s₁ s₂ → R s₂ s₃ → R s₁ s₃)
include hrefl htrans

theorem releaseUnescaped_chain
    (hrelease : ∀ {i anchor x s s'}, i ∈ indicators → (∀ v ∈ escaping, s.aliases.same v i = false) →
      s.routine.releaseAnchor settings s.aliases t i = .ok anchor →
      retain (.before anchor) [] [i] s = .ok (x, s') → R s s')
    (h : releaseUnescaped settings t escaping indicators s = .ok (u, s')) : R s s' := by
  induction indicators generalizing s with
  | nil =>
    cases h
    exact hrefl _
  | cons i rest ih =>
    have hrest : ∀ {s}, releaseUnescaped settings t escaping rest s = .ok (u, s') → R s s' :=
      ih fun hi => hrelease (.tail _ hi)
    rcases releaseUnescaped_cons h with ⟨-, h⟩ | ⟨hnone, anchor, x, mid, hanchor, hretain, h⟩
    · exact hrest h
    · exact htrans (hrelease (.head _) hnone hanchor hretain) (hrest h)

theorem settleGroups_chain
    (hgroup : ∀ {group first s s'}, group ∈ groups →
      settleGroup t group s = .ok (first, s') → R s s')
    (h : settleGroups t groups s = .ok (settled, s')) : R s s' := by
  induction groups generalizing s settled with
  | nil =>
    cases h
    exact hrefl _
  | cons group groups ih =>
    obtain ⟨first, others, mid, -, hfirst, hothers⟩ := settleGroups_cons h
    exact htrans (hgroup (.head _) hfirst) (ih (fun hg => hgroup (.tail _ hg)) hothers)

theorem fillSlots_chain (hnull : ∀ {i s s'}, null (.before t) s = .ok (i, s') → R s s')
    (h : fillSlots t settled null? positions s = .ok (acquired, s')) : R s s' := by
  induction positions generalizing s null? acquired with
  | nil =>
    cases h
    exact hrefl _
  | cons position rest ih =>
    obtain ⟨i, others, mid, shared?, -, hothers, hfirst⟩ := fillSlots_cons h
    rcases hfirst with ⟨-, -, rfl⟩ | ⟨-, -, ⟨-, rfl⟩ | hshared⟩
    · exact ih hothers
    · exact ih hothers
    · exact htrans (hnull hshared) (ih hothers)

end Chains

end Closing

end Pass

/-! ## Recorded indicators -/

theorem Run.unionAll {pairs : List (ValueId × ValueId)} (hroutine : s'.routine = s.routine)
    (haliases : s'.aliases = s.aliases.unionAll pairs) : Run f F s s' := by
  refine .single (.forget hroutine ?_ ?_)
  · rw [haliases, AliasClasses.indicators_unionAll]
    exact List.Subset.refl _
  · rw [haliases]
    exact .unionAll _ pairs

/-! ## The end of a block -/

/-- What escapes through the last operation of a block is visible before it. -/
theorem Threaded.visible_operand (ht : Threaded f s) (hw : f.WellFormed)
    (hlist : s.routine.opsOf b = front ++ [t]) (hreached : f.Reached t)
    (hlive : s.routine.isErased t = false) (hv : v ∈ s.routine.operandsOf t) :
    s.routine.Visible b front v :=
  (ht.wellFormed.in_scope t (ht.reached hw hreached hlive) v hv).visible ht.wellFormed.linked hlist

/-- A run that puts operations into a block, before its last one. -/
structure Inserts (f : Routine) (b : BlockId) (t : OpId) (front : List OpId) (s : Session)
    (front' : List OpId) (s' : Session) : Prop where
  run : Run f (.emission b) s s'
  list : s'.routine.opsOf b = front' ++ [t]
  front : ∀ p ∈ front, p ∈ front'

namespace Inserts

theorem refl (h : s.routine.opsOf b = front ++ [t]) : Inserts f b t front s front s :=
  ⟨.refl, h, fun _ hp => hp⟩

theorem trans {front'' : List OpId} {s'' : Session} (h : Inserts f b t front s front' s')
    (h' : Inserts f b t front' s' front'' s'') : Inserts f b t front s front'' s'' :=
  ⟨h.run.trans h'.run, h'.list, fun p hp => h'.front p (h.front p hp)⟩

theorem token (h : Inserts f b t front s front' s') (hi : Token f s.routine b front i) :
    Token f s'.routine b front' i :=
  hi.keep h.run.keeps h.front

/-- Operations put into a block change no operands. -/
theorem operandsOf (h : Inserts f b t front s front' s')
    (hf : f.op? p ≠ none) (hlive : s.routine.isErased p = false)
    (hr : s.routine.op? p ≠ none) :
    s'.routine.operandsOf p = s.routine.operandsOf p ∧ s'.routine.isErased p = false ∧
      s'.routine.op? p ≠ none :=
  h.run.operandsOf (fun _ => id) hf hlive hr

/-- Before the last operation, any place will do. -/
theorem of_emit {pre post : List OpId} {anchor x : OpId}
    (hlist : s.routine.opsOf b = front ++ [t]) (hplace : s.routine.opsOf b = pre ++ anchor :: post)
    (hrun : Run f (.emission b) s s') (hlist' : s'.routine.opsOf b = pre ++ x :: anchor :: post) :
    ∃ front', Inserts f b t front s front' s' ∧ x ∈ front' := by
  rw [hplace] at hlist
  rcases List.eq_nil_or_concat post with rfl | ⟨init, last, rfl⟩
  · -- the place is the last operation itself
    obtain ⟨rfl, hlast⟩ := List.append_inj' hlist rfl
    obtain rfl : anchor = t := by simpa using hlast
    exact ⟨pre ++ [x], ⟨hrun, by simp [hlist'], fun p hp => by simp [hp]⟩, by simp⟩
  · rw [List.concat_eq_append, ← List.cons_append, ← List.append_assoc] at hlist
    obtain ⟨rfl, hlast⟩ := List.append_inj' hlist rfl
    obtain rfl : last = t := by simpa using hlast
    refine ⟨pre ++ x :: anchor :: init, ⟨hrun, by simp [hlist'], fun p hp => ?_⟩, by simp⟩
    simp only [List.mem_append, List.mem_cons] at hp ⊢
    rcases hp with hp | hp | hp
    · exact .inl hp
    · exact .inr (.inr (.inl hp))
    · exact .inr (.inr (.inr hp))

end Inserts

namespace Pass

variable {settings : Settings} {anchor : OpId} {escaping acquired : List ValueId}
variable {group : EscapeGroup}

/-- The place where an indicator is released comes after everything that defines it. -/
theorem releaseAnchor_eq_ok (hl : r.Linked) (hlist : r.opsOf b = front ++ [t])
    (hi : Token f r b front i) {classes : AliasClasses}
    (h : r.releaseAnchor settings classes t i = .ok anchor) :
    ∃ pre post, r.opsOf b = pre ++ anchor :: post ∧ r.Visible b pre i := by
  obtain ⟨pre, post, hplace, hpassed⟩ := releaseAnchor_place hl hlist h
  refine ⟨pre, post, hplace, ?_⟩
  rcases hi.here with harg | ⟨p, hp, hres⟩
  · exact .argument harg
  · refine .earlier (p := p) ?_ hres
    -- the operation that defines the indicator touches it
    by_contra hout
    have hself := touches_eq_false (hpassed p hp hout) hres
    simp [AliasClasses.same] at hself

theorem release_inserts {x : OpId} (ht : Threaded f s) (hlist : s.routine.opsOf b = front ++ [t])
    (hi : Token f s.routine b front i)
    (hanchor : s.routine.releaseAnchor settings s.aliases t i = .ok anchor)
    (h : retain (.before anchor) [] [i] s = .ok (x, s')) :
    ∃ front', Inserts f b t front s front' s' := by
  obtain ⟨pre, post, hplace, hvis⟩ :=
    releaseAnchor_eq_ok ht.wellFormed.linked hlist hi hanchor
  obtain ⟨hemit, haliases⟩ := retain_eq_ok h
  obtain ⟨hrun, hlist', -⟩ := ht.emit hplace hemit haliases
    (.inr (.inr ⟨0, by simp⟩)) (by simp) (by simp) (by simpa using hvis)
  obtain ⟨front', hins, -⟩ := Inserts.of_emit hlist hplace hrun hlist'
  exact ⟨front', hins⟩

section AtEnd

variable {settled : List (Nat × ValueId)}

variable (hw : f.WellFormed) (ht : Threaded f s) (hlist : s.routine.opsOf b = front ++ [t])
include hw ht hlist

theorem releaseUnescaped_inserts (htokens : ∀ i ∈ indicators, Token f s.routine b front i)
    (h : releaseUnescaped settings t escaping indicators s = .ok (u, s')) :
    ∃ front', Inserts f b t front s front' s' := by
  induction indicators generalizing s front with
  | nil =>
    cases h
    exact ⟨front, .refl hlist⟩
  | cons i rest ih =>
    rcases releaseUnescaped_cons h with ⟨-, h⟩ | ⟨-, anchor, x, mid, hanchor, hrelease, h⟩
    · exact ih ht hlist (fun j hj => htokens j (by simp [hj])) h
    · obtain ⟨front₁, hins₁⟩ := release_inserts ht hlist (htokens i (by simp)) hanchor hrelease
      obtain ⟨front₂, hins₂⟩ := ih (ht.run hw hins₁.run) hins₁.list
        (fun j hj => hins₁.token (htokens j (by simp [hj]))) h
      exact ⟨front₂, hins₁.trans hins₂⟩

theorem settleGroup_inserts (hreached : f.Reached t) (hlive : s.routine.isErased t = false)
    (hescaping : ∀ e ∈ group.escaping, e.2 ∈ s.routine.operandsOf t)
    (howned : ∀ i ∈ group.owned, Token f s.routine b front i)
    (h : settleGroup t group s = .ok (settled, s')) :
    ∃ front', Inserts f b t front s front' s' ∧
      ∀ e ∈ settled, Token f s'.routine b front' e.2 := by
  rcases settleGroup_eq_ok h with
    ⟨-, rfl, rfl⟩ | ⟨x, mid, hretain, hroutine, hunion, rfl⟩
  · exact ⟨front, .refl hlist, fun e he => howned _ (List.of_mem_zip he).2⟩
  · -- one retain, of what escapes and of all that is owned
    obtain ⟨hemit, haliases⟩ := retain_eq_ok hretain
    have hvis : ∀ v ∈ group.escaping.map (·.2) ++ group.owned, s.routine.Visible b front v := by
      intro v hv
      rcases List.mem_append.mp hv with hv | hv
      · obtain ⟨e, he, rfl⟩ := List.mem_map.mp hv
        exact ht.visible_operand hw hlist hreached hlive (hescaping e he)
      · exact (howned v hv).visible
    obtain ⟨hrun, hlist', -, -, hres⟩ := ht.emit hlist hemit haliases
      (.inr (.inr ⟨_, rfl, by simp, by simp⟩)) (by simp +contextual [eq_comm]) (by simp) hvis
    rw [← haliases] at hunion
    have hins : Inserts f b t front s (front ++ [x]) s' :=
      ⟨hrun.trans (Run.unionAll hroutine hunion), by simp [hroutine, hlist'],
        fun p hp => by simp [hp]⟩
    refine ⟨front ++ [x], hins, fun e he => ?_⟩
    have hmem := (List.of_mem_zip he).2
    rw [hres] at hmem
    rw [hroutine]
    refine ht.emit_token hlist hemit (fun ty hty => ?_) (by simp) hmem
    obtain ⟨_, -, rfl⟩ := List.mem_map.mp hty
    rfl

theorem settleGroups_inserts (hreached : f.Reached t) (hlive : s.routine.isErased t = false)
    (hescaping : ∀ group ∈ groups, ∀ e ∈ group.escaping, e.2 ∈ s.routine.operandsOf t)
    (howned : ∀ group ∈ groups, ∀ i ∈ group.owned, Token f s.routine b front i)
    (h : settleGroups t groups s = .ok (settled, s')) :
    ∃ front', Inserts f b t front s front' s' ∧
      ∀ e ∈ settled, Token f s'.routine b front' e.2 := by
  induction groups generalizing s front settled with
  | nil =>
    cases h
    exact ⟨front, .refl hlist, by simp⟩
  | cons group groups ih =>
    obtain ⟨first, others, mid, rfl, hfirst, hothers⟩ := settleGroups_cons h
    obtain ⟨front₁, hins₁, htokens₁⟩ := settleGroup_inserts hw ht hlist hreached hlive
      (hescaping group (by simp)) (howned group (by simp)) hfirst
    have hentry := ht.wellFormed.linked.op?_of_listed (o := t) (b := b) (by simp [hlist])
    -- the last operation still sends what it did, so the other groups are as planned
    obtain ⟨hsame, hlive₁, -⟩ := hins₁.operandsOf (hw.op?_of_reached hreached) hlive hentry
    obtain ⟨front₂, hins₂, htokens₂⟩ := ih (ht.run hw hins₁.run) hins₁.list hlive₁
      (fun group' hg e he => by rw [hsame]; exact hescaping group' (by simp [hg]) e he)
      (fun group' hg j hj => hins₁.token (howned group' (by simp [hg]) j hj)) hothers
    refine ⟨front₂, hins₁.trans hins₂, fun e he => ?_⟩
    rcases List.mem_append.mp he with he | he
    · exact hins₂.token (htokens₁ e he)
    · exact htokens₂ e he

theorem fillSlots_inserts {positions : List Nat}
    (hsettled : ∀ e ∈ settled, Token f s.routine b front e.2)
    (hnull : ∀ i, null? = some i → Token f s.routine b front i)
    (h : fillSlots t settled null? positions s = .ok (acquired, s')) :
    acquired.length = positions.length ∧ ∃ front', Inserts f b t front s front' s' ∧
      ∀ i ∈ acquired, Token f s'.routine b front' i := by
  induction positions generalizing s front null? acquired with
  | nil =>
    cases h
    exact ⟨rfl, front, .refl hlist, by simp⟩
  | cons position rest ih =>
    obtain ⟨i, others, mid, shared?, rfl, hothers, hfirst⟩ := fillSlots_cons h
    -- in each case one token comes first, and the others follow
    have hcons : ∀ {i : ValueId} {mid : Session} {front₁ : List OpId} {null? : Option ValueId},
        Inserts f b t front s front₁ mid → Token f mid.routine b front₁ i →
        (∀ j, null? = some j → Token f mid.routine b front₁ j) →
        fillSlots t settled null? rest mid = .ok (others, s') →
        (i :: others).length = (position :: rest).length ∧
          ∃ front', Inserts f b t front s front' s' ∧
            ∀ j ∈ i :: others, Token f s'.routine b front' j := by
      intro i mid front₁ null? hins hi hnull hothers
      obtain ⟨hlen, front₂, hins₂, htokens⟩ := ih (ht.run hw hins.run) hins.list
        (fun e he => hins.token (hsettled e he)) hnull hothers
      refine ⟨by simp [hlen], front₂, hins.trans hins₂, fun j hj => ?_⟩
      rcases List.mem_cons.mp hj with rfl | hj
      · exact hins₂.token hi
      · exact htokens j hj
    rcases hfirst with ⟨hlookup, rfl, rfl⟩ | ⟨-, rfl, ⟨rfl, rfl⟩ | hshared⟩
    · obtain ⟨l₁, l₂, rfl, -⟩ := List.lookup_eq_some_iff.mp hlookup
      exact hcons (.refl hlist) (hsettled (position, i) (by simp)) hnull hothers
    · exact hcons (.refl hlist) (hnull i rfl) hnull hothers
    · obtain ⟨rfl, haliases, x, hemit⟩ := null_eq_ok hshared
      obtain ⟨hrun, hlist', -⟩ := ht.emit hlist hemit haliases (.inr (.inl rfl)) (by simp)
        (by simp) (by simp)
      have htoken : Token f mid.routine b (front ++ [x]) ⟨s.routine.values.size⟩ :=
        ht.emit_token hlist hemit (by simp) (by simp) (by simp [mem_freshValues])
      have hins : Inserts f b t front s (front ++ [x]) mid :=
        ⟨hrun, by simp [hlist'], fun p hp => by simp [hp]⟩
      exact hcons hins htoken (fun j hj => by cases hj; exact htoken) hothers

end AtEnd

/-- What comes into a group comes from the escaping values and the owned indicators. -/
theorem mem_planEscapes (h : group ∈ c.planEscapes escaping owned) :
    (∀ e ∈ group.escaping, e.2 ∈ escaping) ∧ ∀ i ∈ group.owned, i ∈ owned := by
  obtain ⟨leader, -, rfl⟩ := List.mem_map.mp h
  constructor
  · intro e he
    obtain ⟨⟨v, position⟩, hmem, he⟩ := List.mem_filterMap.mp he
    simp only [Option.ite_none_right_eq_some, Option.some.injEq] at he
    obtain ⟨-, rfl⟩ := he
    exact (List.mem_zipIdx hmem).2.2 ▸ List.getElem_mem _
  · intro i hi
    exact (List.mem_filter.mp hi).1

/-- Closing a block gives a token for each buffer that its last operation sends. -/
theorem closeBlock_inserts (hw : f.WellFormed) (ht : Threaded f s)
    (hlist : s.routine.opsOf b = front ++ [t]) (hreached : f.Reached t)
    (hlive : s.routine.isErased t = false) (howned : ∀ i ∈ owned, Token f s.routine b front i)
    (h : closeBlock settings t owned s = .ok (acquired, s')) :
    acquired.length = s.routine.bufferCount (s.routine.operandsOf t) ∧
      ∃ front', Inserts f b t front s front' s' ∧
        ∀ i ∈ acquired, Token f s'.routine b front' i := by
  have hentry := ht.wellFormed.linked.op?_of_listed (o := t) (b := b) (by simp [hlist])
  obtain ⟨escaping, mid₁, settled, mid₂, hescaping, hrelease, hsettle, h⟩ := closeBlock_eq_ok h
  obtain ⟨front₁, hins₁⟩ := releaseUnescaped_inserts hw ht hlist howned hrelease
  obtain ⟨hsame, hlive₁, -⟩ := hins₁.operandsOf (hw.op?_of_reached hreached) hlive hentry
  have ht₁ := ht.run hw hins₁.run
  obtain ⟨front₂, hins₂, htokens₂⟩ := settleGroups_inserts hw ht₁ hins₁.list hreached hlive₁
    (fun group hgroup e he => by
      have hmem := (mem_planEscapes hgroup).1 e he
      rw [hescaping] at hmem
      rw [hsame]
      exact (List.mem_filter.mp hmem).1)
    (fun group hgroup i hi => hins₁.token (howned i ((mem_planEscapes hgroup).2 i hi))) hsettle
  obtain ⟨hlen, front₃, hins₃, htokens₃⟩ := fillSlots_inserts hw (ht₁.run hw hins₂.run)
    hins₂.list htokens₂ (by simp) h
  refine ⟨?_, front₃, (hins₁.trans hins₂).trans hins₃, htokens₃⟩
  rw [hlen, List.length_range, hescaping, bufferCount, List.countP_eq_length_filter]

end Pass

end BufferOwnership
