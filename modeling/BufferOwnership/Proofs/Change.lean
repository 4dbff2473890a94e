import BufferOwnership.Proofs.Scope

/-!
# Changes of a routine

Whatever ownership threading does to a routine, it does by changes of one form: some operations
are renamed, some get more operands, some are lost and some are new; every block keeps its
operations in order, and ends in the same one. `Change` says this once, and what it keeps is
derived from it: reachability, scopes and companions.
-/

namespace BufferOwnership

variable {v : ValueId} {d : Op} {p q x : OpId} {b : BlockId}

open Routine

/-! ## Lists with some members renamed, dropped and added -/

section Lists

variable {α : Type} {l l' : List α} {P Q : α → Bool} {σ : α → α}

/-- A place in the old list is found again in the new one, after what came before it. -/
theorem exists_split_of_filter_eq (h : l'.filter P = (l.filter Q).map σ) {front rest : List α}
    {x : α} (hl : l = front ++ x :: rest) (hx : Q x = true) :
    ∃ front' rest', l' = front' ++ σ x :: rest' ∧
      front'.filter P = (front.filter Q).map σ := by
  subst hl
  rw [List.filter_append, List.filter_cons_of_pos hx, List.map_append, List.map_cons] at h
  obtain ⟨front₁, tail, rfl, hfront, htail⟩ := List.filter_eq_append_iff.mp h
  obtain ⟨skipped, rest', rfl, hskipped, -, -⟩ := List.filter_eq_cons_iff.mp htail
  -- what was added right before the place belongs to its front
  have hnone : skipped.filter P = [] := List.filter_eq_nil_iff.mpr hskipped
  refine ⟨front₁ ++ skipped, rest', by simp, ?_⟩
  rw [List.filter_append, hnone, List.append_nil, hfront]

/-- A place in the new list that is not added comes from one in the old list. -/
theorem exists_split_of_map_eq (h : l'.filter P = (l.filter Q).map σ) {front' rest' : List α}
    {y : α} (hl : l' = front' ++ y :: rest') (hy : P y = true) :
    ∃ front x rest, l = front ++ x :: rest ∧ Q x = true ∧ σ x = y ∧
      front'.filter P = (front.filter Q).map σ := by
  subst hl
  rw [List.filter_append, List.filter_cons_of_pos hy] at h
  obtain ⟨kept, tail, hkept, hfront, htail⟩ := List.map_eq_append_iff.mp h.symm
  obtain ⟨x, tail', rfl, hx, -⟩ := List.map_eq_cons_iff.mp htail
  obtain ⟨front₁, rest₁, rfl, hfront₁, hrest₁⟩ := List.filter_eq_append_iff.mp hkept
  obtain ⟨skipped, rest, rfl, hskipped, hQ, -⟩ := List.filter_eq_cons_iff.mp hrest₁
  have hnone : skipped.filter Q = [] := List.filter_eq_nil_iff.mpr hskipped
  refine ⟨front₁ ++ skipped, x, rest, by simp, hQ, hx, ?_⟩
  rw [List.filter_append, hnone, List.append_nil, hfront₁, hfront]

end Lists

/-! ## Changes -/

/-- What a change does: the new names of operations and values, which operations are lost and
which are new, and the operands that an operation gets. -/
structure Delta where
  op : OpId → OpId := id
  value : ValueId → ValueId := id
  lost : OpId → Bool := fun _ => false
  new : OpId → Bool := fun _ => false
  added : OpId → List ValueId := fun _ => []

/-- An operation as it is inserted: it makes, joins or stands in for indicators, and is a leaf. -/
structure Op.Inserted (d : Op) : Prop where
  kind : d.kind = .own ∨ d.kind = .null ∨
    ∃ n, d.kind = .retain n ∧ n ≤ d.operands.length ∧ d.results.length = n
  regions : d.regions = []
  live : d.erased = false

namespace Routine

def bufferCount (r : Routine) (vs : List ValueId) : Nat := vs.countP r.holdsBuffer

/-- Is an operation there, and structured control flow? -/
def isConstruct (r : Routine) (o : OpId) : Bool := (r.kind? o).any fun k => k.construct?.isSome

/-- Is an operation there, and of a kind that ends a block? -/
def isTerminator (r : Routine) (o : OpId) : Bool := (r.kind? o).any OpKind.isTerminator

theorem isConstruct_of {r : Routine} (h : r.op? p = some d) :
    r.isConstruct p = d.kind.construct?.isSome := by
  simp [isConstruct, kind?_of h]

theorem WellFormed.isConstruct_root {r : Routine} (h : r.WellFormed) :
    r.isConstruct r.root = false := by
  obtain ⟨name, hkind⟩ := h.root_routine
  simp [isConstruct, hkind, OpKind.construct?]

theorem isTerminator_of {r : Routine} (h : r.op? p = some d) :
    r.isTerminator p = d.kind.isTerminator := by
  simp [isTerminator, kind?_of h]

end Routine

/-- Values stay as they are, operations keep kinds and results, and blocks keep their arguments. -/
structure Kept (r r' : Routine) : Prop where
  value : ∀ v V, r.value? v = some V → r'.value? v = some V
  op : ∀ p d, r.op? p = some d → ∃ e, r'.op? p = some e ∧ e.kind = d.kind ∧
    e.results = d.results ∧ (d.erased = true → e.erased = true)
  args : ∀ b, r.argsOf b <+: r'.argsOf b

namespace Kept

variable {r r' : Routine}

theorem refl (r : Routine) : Kept r r :=
  ⟨fun _ _ hV => hV, fun _ d hd => ⟨d, hd, rfl, rfl, id⟩, fun _ => List.prefix_rfl⟩

section

variable (h : Kept r r')
include h

theorem trans {r'' : Routine} (h' : Kept r' r'') : Kept r r'' where
  value v V hV := h'.value v V (h.value v V hV)
  op p d hd := by
    obtain ⟨e, he, hkind, hres, herased⟩ := h.op p d hd
    obtain ⟨g, hg, hkind', hres', herased'⟩ := h'.op p e he
    exact ⟨g, hg, hkind'.trans hkind, hres'.trans hres, fun hd => herased' (herased hd)⟩
  args b := (h.args b).trans (h'.args b)

theorem ty? {ty : Ty} (hv : r.ty? v = some ty) : r'.ty? v = some ty := by
  obtain ⟨V, hV, rfl⟩ := Option.map_eq_some_iff.mp hv
  exact ty?_of (h.value v V hV)

theorem mem_resultsOf (hv : v ∈ r.resultsOf p) : v ∈ r'.resultsOf p := by
  obtain ⟨d, hd, hv⟩ := exists_op?_of_mem_resultsOf hv
  obtain ⟨e, he, -, hres, -⟩ := h.op p d hd
  rwa [resultsOf_of he, hres]

theorem isErased (hp : r.isErased p = true) : r'.isErased p = true := by
  obtain ⟨d, hd, herased⟩ : ∃ d, r.op? p = some d ∧ d.erased = true := by
    simpa [Routine.isErased, Option.any_eq_true] using hp
  obtain ⟨e, he, -, -, hkept⟩ := h.op p d hd
  rw [isErased_of he, hkept herased]

theorem kind? {k : OpKind} (hk : r.kind? p = some k) : r'.kind? p = some k := by
  obtain ⟨d, hd, rfl⟩ := exists_op?_of_kind? hk
  obtain ⟨e, he, hkind, -⟩ := h.op p d hd
  rw [kind?_of he, hkind]

theorem op?_ne_none (hp : r.op? p ≠ none) : r'.op? p ≠ none := by
  obtain ⟨d, hd⟩ := Option.ne_none_iff_exists'.mp hp
  obtain ⟨e, he, -⟩ := h.op p d hd
  simp [he]

theorem kind?_eq (hp : r.op? p ≠ none) : r'.kind? p = r.kind? p := by
  obtain ⟨d, hd⟩ := Option.ne_none_iff_exists'.mp hp
  rw [kind?_of hd]
  exact h.kind? (kind?_of hd)

theorem resultsOf (hp : r.op? p ≠ none) : r'.resultsOf p = r.resultsOf p := by
  obtain ⟨d, hd⟩ := Option.ne_none_iff_exists'.mp hp
  obtain ⟨e, he, -, hresults, -⟩ := h.op p d hd
  rw [resultsOf_of he, resultsOf_of hd, hresults]

theorem holdsBuffer (hv : r.holdsBuffer v = true) : r'.holdsBuffer v = true := by
  obtain ⟨ty, hty, hbuffer⟩ := (Option.any_eq_true ..).mp hv
  simp [Routine.holdsBuffer, h.ty? hty, hbuffer]

theorem size_values : r.values.size ≤ r'.values.size := by
  -- otherwise the old table had a value just beyond the new one, and it would be kept
  by_contra hlt
  obtain ⟨V, hV⟩ := exists_value? (r := r) (v := ⟨r'.values.size⟩) (by simpa using hlt)
  have := lt_of_value? (h.value _ V hV)
  simp at this

theorem holdsBuffer_eq (hv : v.index < r.values.size) : r'.holdsBuffer v = r.holdsBuffer v := by
  obtain ⟨V, hV⟩ := exists_value? hv
  rw [Routine.holdsBuffer, Routine.holdsBuffer, ty?_of hV, ty?_of (h.value v V hV)]

theorem bufferCount {vs : List ValueId} (hvs : ∀ v ∈ vs, v.index < r.values.size) :
    r'.bufferCount vs = r.bufferCount vs :=
  List.countP_congr fun v hv => by rw [h.holdsBuffer_eq (hvs v hv)]

end

end Kept

/-- What has become of an operation that is not lost, given the operands that it gets. -/
structure Op.Grown (r r' : Routine) (δ : Delta) (p : OpId) (d e : Op) : Prop where
  kind : e.kind = d.kind
  regions : e.regions = d.regions
  parent : e.parent = d.parent
  live : e.erased = false
  operands : e.operands = (d.operands ++ δ.added p).map δ.value
  results : ∃ extra, e.results = d.results.map δ.value ++ extra ∧
    (∀ v ∈ extra, r'.ty? v = some .ownership) ∧ (δ.op p = p → extra = []) ∧
    (δ.op p ≠ p → extra.length = r.bufferCount d.results)

/-- One routine comes from another by a change. -/
structure Change (r r' : Routine) (δ : Delta) : Prop where
  root : r'.root = r.root
  value : ∀ v V, r.value? v = some V → r'.value? v = some V
  home : ∀ b, r'.home? b = r.home? b
  blocksOf : ∀ g, r'.blocksOf g = r.blocksOf g
  owner : ∀ g, r'.owner? g = (r.owner? g).map δ.op
  args : ∀ b, ∃ extra, r'.argsOf b = r.argsOf b ++ extra ∧
    ∀ v ∈ extra, r'.ty? v = some .ownership
  lists : ∀ b, (r'.opsOf b).filter (fun p => !δ.new p) =
    ((r.opsOf b).filter fun p => !δ.lost p).map δ.op
  last : ∀ b, (r'.opsOf b).getLast? = (r.opsOf b).getLast?.map δ.op
  /-- An entry keeps its kind and results, and an erased one stays as it is. -/
  kept : ∀ p d, r.op? p = some d → ∃ e, r'.op? p = some e ∧ e.kind = d.kind ∧
    e.results = d.results ∧ (d.erased = true → e = d)
  image : ∀ p d, r.op? p = some d → d.erased = false → δ.lost p = false →
    ∃ e, r'.op? (δ.op p) = some e ∧ Op.Grown r r' δ p d e
  /-- Only constructs are renamed, to new names. -/
  renamed : ∀ p, δ.op p ≠ p → r.isConstruct p = true ∧ r.isErased p = false ∧
    r.op? (δ.op p) = none ∧ r'.isErased p = true
  injective : ∀ p q, δ.op p = δ.op q → r.op? p ≠ none → r.op? q ≠ none → p = q
  /-- Only retains that consume nothing are lost, and all that changes about them is that they are
  erased. -/
  lost : ∀ p, δ.lost p = true → r.kind? p = some (.retain (r.operandsOf p).length) ∧
    r.regionsOf p = [] ∧ r'.isErased p = true ∧ r'.operandsOf p = r.operandsOf p
  new : ∀ x, δ.new x = true → r.op? x = none ∧ ∃ e, r'.op? x = some e ∧ e.Inserted
  /-- There is nothing but what was there, what is new and what was renamed, and retains that
  came and went. -/
  only : ∀ q, r'.op? q ≠ none → r.op? q ≠ none ∨ δ.new q = true ∨
    (∃ p, δ.op p = q ∧ δ.op p ≠ p) ∨ (r'.isErased q = true ∧ ∃ n, r'.kind? q = some (.retain n))
  moved : ∀ v, δ.value v ≠ v → ∃ p, δ.op p ≠ p ∧ v ∈ r.resultsOf p
  type : ∀ v V, r.value? v = some V → r'.ty? (δ.value v) = some V.ty
  /-- Operands are added to what is renamed, one for each buffer operand, and to terminators. -/
  added : ∀ p, r.op? p ≠ none → δ.added p ≠ [] → δ.op p ≠ p ∨ r.isTerminator p = true
  added_count : ∀ p, δ.op p ≠ p → (δ.added p).length = r.bufferCount (r.operandsOf p)

namespace Change

variable {r r' : Routine} {δ : Delta} (h : Change r r' δ)
include h

/-! ## Scopes -/

theorem keeps : Kept r r' where
  value := h.value
  op p d hd := by
    obtain ⟨e, he, hkind, hres, hsame⟩ := h.kept p d hd
    exact ⟨e, he, hkind, hres, fun herased => by rw [hsame herased, herased]⟩
  args b := by
    obtain ⟨extra, hargs, -⟩ := h.args b
    exact ⟨extra, hargs.symm⟩

theorem op_eq_self (hp : r.isConstruct p = false) : δ.op p = p := by
  by_contra hne
  rw [(h.renamed p hne).1] at hp
  cases hp

/-- An operation that a change neither renames nor loses, by its kind. -/
theorem stays {k : OpKind} (hkind : r.kind? p = some k) (hcons : k.construct? = none)
    (hretain : ∀ n, k ≠ .retain n) : δ.op p = p ∧ δ.lost p = false := by
  refine ⟨h.op_eq_self (by simp [isConstruct, hkind, hcons]), ?_⟩
  by_contra hne
  obtain ⟨hk, -⟩ := h.lost p (by simpa using hne)
  rw [hkind] at hk
  exact hretain _ (Option.some.inj hk)

theorem op_of_erased (hp : r.isErased p = true) : δ.op p = p := by
  by_contra hne
  rw [(h.renamed p hne).2.1] at hp
  cases hp

theorem value_arg (hl : r.Linked) (hv : v ∈ r.argsOf b) : δ.value v = v := by
  by_contra hne
  obtain ⟨p, -, hres⟩ := h.moved v hne
  exact hl.not_arg_of_result hres hv

theorem value_result (hl : r.Linked) (hp : δ.op p = p) (hv : v ∈ r.resultsOf p) :
    δ.value v = v := by
  by_contra hne
  obtain ⟨q, hq, hres⟩ := h.moved v hne
  obtain rfl := hl.result_unique hv hres
  exact hq hp

theorem holder? (b : BlockId) : r'.holder? b = (r.holder? b).map δ.op := by
  simp only [Routine.holder?, h.home, funext h.owner]
  cases r.home? b <;> rfl

theorem not_lost_of_holder (hl : r.Linked) {o : OpId} (ho : r.holder? b = some o) :
    δ.lost o = false := by
  by_contra hne
  exact hl.regionsOf_ne_nil ho (h.lost o (by simpa using hne)).2.1

/-- Visibility is carried over by every change. -/
theorem carries (hl : r.Linked) :
    Carries r r' (fun p => δ.lost p = true) δ.op δ.value where
  args b v hv := by
    obtain ⟨extra, hargs, -⟩ := h.args b
    rw [h.value_arg hl hv, hargs]
    exact List.mem_append_left _ hv
  results p hp v hv := by
    have hp' : δ.lost p = false := by simpa using hp
    obtain ⟨d, hd, -⟩ := exists_op?_of_mem_resultsOf hv
    by_cases herased : d.erased = true
    · -- an erased operation keeps its name, and so do its results
      have hop : δ.op p = p := h.op_of_erased (by rw [isErased_of hd, herased])
      rw [h.value_result hl hop hv, hop, h.keeps.resultsOf (by simp [hd])]
      exact hv
    · obtain ⟨e, he, hgrown⟩ := h.image p d hd (by simpa using herased) hp'
      obtain ⟨extra, hres, -⟩ := hgrown.results
      rw [resultsOf_of he, hres]
      rw [resultsOf_of hd] at hv
      exact List.mem_append_left _ (List.mem_map_of_mem hv)
  holder b o ho := by
    refine ⟨by simp [h.not_lost_of_holder hl ho], ?_⟩
    rw [h.holder?, ho]
    rfl
  lists b front o rest hlist ho := by
    obtain ⟨front', rest', hlist', hfront⟩ :=
      exists_split_of_filter_eq (h.lists b) hlist (by simpa using ho)
    refine ⟨front', rest', hlist', fun p hp hkept => ?_⟩
    have hmem : δ.op p ∈ front'.filter fun p => !δ.new p := by
      rw [hfront]
      exact List.mem_map_of_mem (List.mem_filter.mpr ⟨hp, by simpa using hkept⟩)
    exact (List.mem_filter.mp hmem).1

/-- What stands in a block afterwards stood there before, or is new. -/
theorem mem_opsOf (hq : q ∈ r'.opsOf b) :
    (∃ p, q = δ.op p ∧ p ∈ r.opsOf b ∧ δ.lost p = false) ∨ δ.new q = true := by
  by_cases hnew : δ.new q = true
  · exact .inr hnew
  · left
    have hmem : q ∈ (r'.opsOf b).filter fun p => !δ.new p :=
      List.mem_filter.mpr ⟨hq, by simpa using hnew⟩
    rw [h.lists] at hmem
    obtain ⟨p, hp, rfl⟩ := List.mem_map.mp hmem
    obtain ⟨hp, hkept⟩ := List.mem_filter.mp hp
    exact ⟨p, rfl, hp, by simpa using hkept⟩

/-- What is kept and not erased has an entry under its new name. -/
theorem image_of_live (hd : r.op? p = some d) (hlive : r.isErased p = false)
    (hkept : δ.lost p = false) : ∃ e, r'.op? (δ.op p) = some e ∧ Op.Grown r r' δ p d e :=
  h.image p d hd (by rwa [isErased_of hd] at hlive) hkept

/-- What is renamed is there before and after. -/
theorem image_of_renamed (hne : δ.op p ≠ p) :
    ∃ d e, r.op? p = some d ∧ r'.op? (δ.op p) = some e ∧ Op.Grown r r' δ p d e := by
  obtain ⟨hcons, hlive, -, -⟩ := h.renamed p hne
  cases hd : r.op? p with
  | none => simp [isConstruct, kind?, hd] at hcons
  | some d =>
    -- only retains are lost, and a construct is none
    have hkept : δ.lost p = false := by
      by_contra hlost
      obtain ⟨hretain, -⟩ := h.lost p (by simpa using hlost)
      simp [isConstruct, hretain, OpKind.construct?] at hcons
    obtain ⟨e, he, hgrown⟩ := h.image_of_live hd hlive hkept
    exact ⟨d, e, rfl, he, hgrown⟩

/-- Nothing is nested in a new operation. -/
theorem not_holder_of_new (hl' : r'.Linked) (hnew : δ.new x = true) : r'.holder? b ≠ some x := by
  intro hholder
  obtain ⟨-, e, he, hins⟩ := h.new x hnew
  exact hl'.regionsOf_ne_nil hholder (by rw [regionsOf_of he, hins.regions])

/-- What is inside an operation afterwards was inside it before, or is new. -/
theorem inside (hl : r.Linked) (hl' : r'.Linked) (hp : r.op? p ≠ none)
    (hkept : δ.lost p = false) (hq : r'.Inside (δ.op p) q) :
    (∃ p', q = δ.op p' ∧ r.Inside p p' ∧ r.op? p' ≠ none ∧ δ.lost p' = false) ∨
      δ.new q = true := by
  induction hq with
  | refl => exact .inl ⟨p, rfl, .refl, hp, hkept⟩
  | @tail m q _ hup ih =>
    obtain ⟨b, hparent, hholder⟩ := exists_parent?_of_up? hup
    rcases ih with ⟨m, rfl, hm, hentry, -⟩ | hnew
    · refine (h.mem_opsOf ((hl'.op_listed q b).mpr hparent)).imp_left ?_
      rintro ⟨o, rfl, ho, hkept⟩
      -- the block is still held by the same operation
      rw [h.holder?] at hholder
      obtain ⟨k, hk, hkm⟩ := Option.map_eq_some_iff.mp hholder
      obtain rfl := h.injective k m hkm (hl.op?_of_holder hk) hentry
      have hupo := (hl.up?_of_mem ho).trans hk
      exact ⟨o, rfl, hm.step hupo, hl.op?_of_listed ho, hkept⟩
    · exact absurd hholder (h.not_holder_of_new hl' hnew)

/-- What is reached afterwards was reached before, or is new. -/
theorem reached (hw : r.WellFormed) (hl' : r'.Linked) (hq : r'.Reached q) :
    (∃ p, q = δ.op p ∧ r.Reached p ∧ δ.lost p = false) ∨ δ.new q = true := by
  obtain ⟨name, hkind⟩ := hw.root_routine
  obtain ⟨hroot, hkept⟩ := h.stays hkind rfl nofun
  rw [Reached, h.root, ← hroot] at hq
  refine (h.inside hw.linked hl' (hw.op?_of_reached .refl) hkept hq).imp_left ?_
  rintro ⟨p, hp, hreached, -, hkept⟩
  exact ⟨p, hp, hreached, hkept⟩

/-- A block that is under another afterwards was so before. -/
theorem under (hl : r.Linked) (hl' : r'.Linked) {c : BlockId} (hc : r'.Under b c) :
    r.Under b c := by
  rcases hc with rfl | ⟨q, hq, m, hin, hholder⟩
  · exact .inl rfl
  · rcases h.mem_opsOf ((hl'.op_listed q b).mpr hq) with ⟨p, rfl, hp, hkept⟩ | hnew
    · rcases h.inside hl hl' (hl.op?_of_listed hp) hkept hin with
        ⟨m, rfl, hm, hentry, -⟩ | hnew
      · rw [h.holder?] at hholder
        obtain ⟨k, hk, hkm⟩ := Option.map_eq_some_iff.mp hholder
        obtain rfl := h.injective k m hkm (hl.op?_of_holder hk) hentry
        exact .inr ⟨p, (hl.op_listed p b).mp hp, k, hm, hk⟩
      · exact absurd hholder (h.not_holder_of_new hl' hnew)
    · -- the way down from a new operation has no first step
      rcases hin.cases_head with rfl | ⟨k, hup, -⟩
      · exact absurd hholder (h.not_holder_of_new hl' hnew)
      · obtain ⟨a, -, ha⟩ := exists_parent?_of_up? hup
        exact absurd ha (h.not_holder_of_new hl' hnew)

end Change

/-- The operands that a change brings in are in scope, and what it loses is not used. -/
structure Change.Sound (r r' : Routine) (δ : Delta) : Prop where
  known : ∀ o, ∀ v ∈ r'.operandsOf o, v.index < r'.values.size
  added : ∀ p, ∀ v ∈ δ.added p, r.InScope p v ∧ r.ty? v = some .ownership
  new : ∀ x, δ.new x = true → ∀ v ∈ r'.operandsOf x, r'.InScope x v
  unused : ∀ p, δ.lost p = true → ∀ o d, r.op? o = some d → d.erased = false →
    ∀ v ∈ d.operands ++ δ.added o, v ∉ r.resultsOf p

namespace Change

variable {r r' : Routine} {δ : Delta}

/-- A sound change of a well-formed routine gives a well-formed routine. -/
theorem wellFormed (h : Change r r' δ) (hs : Sound r r' δ) (hw : r.WellFormed)
    (hl' : r'.Linked) : r'.WellFormed := by
  obtain ⟨name, hrootKind⟩ := hw.root_routine
  obtain ⟨droot, hdroot, hdkind⟩ := exists_op?_of_kind? hrootKind
  obtain ⟨hrootOp, hrootKept⟩ := h.stays hrootKind rfl nofun
  exact {
    linked := hl'
    known := hs.known
    root_routine := ⟨name, by rw [h.root, h.keeps.kind?_eq (by simp [hdroot]), hrootKind]⟩
    only_root := by
      intro q name' hq
      obtain ⟨e, he, hkind⟩ := exists_op?_of_kind? hq
      rw [h.root]
      -- an operation that comes in is an own, a null, a retain or a construct
      rcases h.only q (by simp [he]) with hold | hnew | ⟨p, rfl, hne⟩ | ⟨-, n, hretain⟩
      · exact hw.only_root q name' (by rw [← h.keeps.kind?_eq hold, hq])
      · obtain ⟨-, e', he', hins⟩ := h.new q hnew
        obtain rfl := Option.mem_unique he' he
        rcases hins.kind with hk | hk | ⟨n, hk, -, -⟩ <;> simp [hk] at hkind
      · obtain ⟨d, e', hd, he', hgrown⟩ := h.image_of_renamed hne
        obtain rfl := Option.mem_unique he' he
        have hcons := (h.renamed p hne).1
        simp [isConstruct_of hd, ← hgrown.kind, hkind, OpKind.construct?] at hcons
      · rw [hq] at hretain
        cases hretain
    root_unlinked := by
      obtain ⟨e, he, hgrown⟩ := h.image_of_live hdroot (hw.live _ .refl) hrootKept
      rw [hrootOp] at he
      rw [h.root, parent?_of he, hgrown.parent, ← parent?_of hdroot, hw.root_unlinked]
    live := by
      intro q hq
      rcases h.reached hw hl' hq with ⟨p, rfl, hp, hkept⟩ | hnew
      · obtain ⟨d, hd⟩ := Option.ne_none_iff_exists'.mp (hw.op?_of_reached hp)
        obtain ⟨e, he, hgrown⟩ := h.image_of_live hd (hw.live p hp) hkept
        rw [isErased_of he, hgrown.live]
      · obtain ⟨-, e, he, hins⟩ := h.new q hnew
        rw [isErased_of he, hins.live]
    in_scope := by
      intro q hq v hv
      rcases h.reached hw hl' hq with ⟨p, rfl, hp, hkept⟩ | hnew
      · obtain ⟨d, hd⟩ := Option.ne_none_iff_exists'.mp (hw.op?_of_reached hp)
        have hlive := hw.live p hp
        obtain ⟨e, he, hgrown⟩ := h.image_of_live hd hlive hkept
        rw [isErased_of hd] at hlive
        rw [operandsOf_of he, hgrown.operands] at hv
        obtain ⟨w, hmem, rfl⟩ := List.mem_map.mp hv
        -- an operand was in scope already, or is so because it was added soundly
        have hscope : r.InScope p w := by
          rcases List.mem_append.mp hmem with hold | hadded
          · exact hw.in_scope p hp w (by rwa [operandsOf_of hd])
          · exact (hs.added p w hadded).1
        exact hscope.carry (h.carries hw.linked) (by simp [hkept])
          fun k hk => hs.unused k hk p d hd hlive w hmem
      · exact hs.new q hnew v hv }

/-! ## Companions -/

section

variable (h : Change r r' δ)
include h

theorem not_new (hp : r.op? p ≠ none) : δ.new p = false := by
  by_contra hne
  exact hp (h.new p (by simpa using hne)).1

/-- What a change keeps has the regions and the kind that it had. -/
theorem same_image (hd : r.op? p = some d) (hkept : δ.lost p = false) :
    r'.regionsOf (δ.op p) = r.regionsOf p ∧ r'.kind? (δ.op p) = r.kind? p := by
  cases herased : r.isErased p with
  | true =>
    -- an erased operation is left as it is
    obtain ⟨e, he, -, -, hsame⟩ := h.kept p d hd
    obtain rfl := hsame (by rwa [isErased_of hd] at herased)
    rw [h.op_of_erased herased, regionsOf_of he, regionsOf_of hd, kind?_of he, kind?_of hd]
    exact ⟨rfl, rfl⟩
  | false =>
    obtain ⟨e, he, hgrown⟩ := h.image_of_live hd herased hkept
    rw [regionsOf_of he, regionsOf_of hd, kind?_of he, kind?_of hd, hgrown.regions, hgrown.kind]
    exact ⟨rfl, rfl⟩

theorem structural_image (hd : r.op? p = some d) (hkept : δ.lost p = false)
    (hp : r'.Structural (δ.op p)) : r.Structural p := by
  obtain ⟨hregions, hkind⟩ := h.same_image hd hkept
  unfold Structural at hp ⊢
  rwa [hregions, hkind] at hp

theorem not_structural_of_new (hnew : δ.new x = true) : ¬ r'.Structural x := by
  obtain ⟨-, e, he, hins⟩ := h.new x hnew
  rintro (hregions | ⟨k, hk, hterm⟩)
  · exact hregions (by rw [regionsOf_of he, hins.regions])
  · rw [kind?_of he] at hk
    obtain rfl : e.kind = k := Option.some.inj hk
    rcases hins.kind with hk | hk | ⟨n, hk, -, -⟩ <;> simp [hk, OpKind.isTerminator] at hterm

theorem follows (hl : r.Linked) (hp : r.op? p ≠ none) (hq : δ.op q = q ∧ δ.lost q = false)
    (hfollows : r.Follows p q) : r'.Follows p q := by
  intro b front' o' rest' hlist' ho' hmem
  -- the structural operation is an old one, and so is what stands before it but for new ones
  have hnew : δ.new o' = false := by
    by_contra hne
    exact h.not_structural_of_new (by simpa using hne) ho'
  obtain ⟨front, o, rest, hlist, hkept, rfl, hfront⟩ :=
    exists_split_of_map_eq (h.lists b) hlist' (by simp [hnew])
  have hmemo : o ∈ r.opsOf b := by simp [hlist]
  obtain ⟨d, hd⟩ := Option.ne_none_iff_exists'.mp (hl.op?_of_listed hmemo)
  have ho := h.structural_image hd (by simpa using hkept) ho'
  have hpfront : p ∈ front := by
    -- `p` was there already, so it comes from itself
    have hmem' : p ∈ front'.filter fun p => !δ.new p :=
      List.mem_filter.mpr ⟨hmem, by simp [h.not_new hp]⟩
    rw [hfront] at hmem'
    obtain ⟨p₀, hp₀, rfl⟩ := List.mem_map.mp hmem'
    have hsame : δ.op p₀ = p₀ := by
      by_contra hne
      exact hp (h.renamed p₀ hne).2.2.1
    rw [hsame]
    exact (List.mem_filter.mp hp₀).1
  have hqfront := hfollows b front o rest hlist ho hpfront
  have hmem' : δ.op q ∈ front'.filter fun p => !δ.new p := by
    rw [hfront]
    exact List.mem_map_of_mem (List.mem_filter.mpr ⟨hqfront, by simp [hq.2]⟩)
  rw [hq.1] at hmem'
  exact (List.mem_filter.mp hmem').1

/-- Companions stay companions. -/
theorem companion (hl : r.Linked) {i : ValueId} (hc : r.Companion v i) : r'.Companion v i := by
  cases hc with
  | @arguments b hv hi =>
    obtain ⟨extra, hargs, -⟩ := h.args b
    exact .arguments (b := b) (by simp [hargs, hv]) (by simp [hargs, hi])
  | @results p q hv hi hkq hfollows =>
    obtain ⟨d, hd, -⟩ := exists_op?_of_mem_resultsOf hv
    obtain ⟨e, he, -⟩ := exists_op?_of_mem_resultsOf hi
    have hp : r.op? p ≠ none := by simp [hd]
    have hq : r.op? q ≠ none := by simp [he]
    have hqs := h.stays hkq rfl (by simp)
    refine .results ?_ ?_ ((h.keeps.kind?_eq hq).trans hkq) (h.follows hl hp hqs hfollows)
    · rwa [h.keeps.resultsOf hp]
    · rwa [h.keeps.resultsOf hq]

end

end Change

end BufferOwnership
