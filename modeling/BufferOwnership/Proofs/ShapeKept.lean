import BufferOwnership.Proofs.Erasure
import BufferOwnership.Proofs.Rejections
import BufferOwnership.Proofs.ShapeSpec

/-!
# Shapes are kept

A well-shaped routine stays well shaped, provided that what an edge sends and what receives it agree
on being buffers. Along with each buffer goes one indicator, so all lists of a construct grow by the
number of their buffers, or not at all if it is not treated; and the two ends of an edge grow by the
same number.
-/

namespace BufferOwnership

open Routine

/-- The two ends of every edge agree on being buffers, position by position, and what concerns the
counter of a loop or its test is no buffer. -/
structure Conventional (f : Routine) : Prop where
  edges : ∀ o, f.Reached o → ∀ source edges, f.flowEdges o source = .ok edges →
    ∀ e ∈ edges, ∀ pair ∈ e.sent.zip e.received, f.holdsBuffer pair.1 = f.holdsBuffer pair.2
  /-- The first three operands of a counted loop. -/
  bounds : ∀ o, f.Reached o → f.kind? o = some .forLoop →
    ∀ v ∈ (f.operandsOf o).take 3, f.holdsBuffer v = false
  /-- The first argument of its body. -/
  counter : ∀ o, f.Reached o → f.kind? o = some .forLoop →
    ∀ args, f.argsOfRegionAt (f.regionsOf o) 0 = .ok args →
      ∀ v ∈ args.take 1, f.holdsBuffer v = false
  /-- What the first region of a loop with a test sends first. -/
  test : ∀ o, f.Reached o → f.kind? o = some .whileLoop →
    ∀ sent, f.sentByRegionAt? (f.regionsOf o) 0 = .ok (some sent) →
      ∀ v ∈ sent.take 1, f.holdsBuffer v = false

/-- The conventions at one operation, read off its entry. -/
structure ConventionalOp (f : Routine) (d : Op) : Prop where
  edges : ∀ source, ∀ e ∈ f.edgesFrom d source, ∀ pair ∈ e.sent.zip e.received,
    f.holdsBuffer pair.1 = f.holdsBuffer pair.2
  bounds : d.kind = .forLoop → ∀ v ∈ d.operands.take 3, f.holdsBuffer v = false
  counter : d.kind = .forLoop → ∀ v ∈ (f.argsAt d.regions 0).take 1, f.holdsBuffer v = false
  test : d.kind = .whileLoop → ∀ sent, f.sentAt? d.regions 0 = some sent →
    ∀ v ∈ sent.take 1, f.holdsBuffer v = false

variable {f g : Routine} {δ : Delta} {k : Nat} {p : OpId} {b : BlockId} {d e : Op}

theorem Conventional.op (h : Conventional f) (hr : f.InRange) (hp : f.Reached p)
    (hd : f.op? p = some d) : ConventionalOp f d where
  edges source := h.edges p hp source _ (hr.flowEdges hd source)
  bounds hkind := by
    have hbounds := h.bounds p hp (by rw [kind?_of hd, hkind])
    rwa [operandsOf_of hd] at hbounds
  counter hkind := by
    have hargs := h.counter p hp (by rw [kind?_of hd, hkind]) _ (hr.argsOfRegionAt 0)
    rwa [regionsOf_of hd] at hargs
  test hkind sent hsent := by
    apply h.test p hp (by rw [kind?_of hd, hkind]) sent
    rw [hr.sentByRegionAt? 0, regionsOf_of hd, hsent]

/-! ## Lists that grow with their buffers -/

namespace Routine

/-- The length of a list once it has `k` indicators for each of its buffers. -/
def lengthWith (f : Routine) (k : Nat) (vs : List ValueId) : Nat := vs.length + k * f.bufferCount vs

variable {f : Routine} {k : Nat} {vs ws : List ValueId}

theorem bufferCount_eq_zero (h : ∀ v ∈ vs, f.holdsBuffer v = false) : f.bufferCount vs = 0 := by
  rw [bufferCount, List.countP_eq_zero]
  intro v hv
  simp [h v hv]

/-- Where no buffer stands in front, what comes behind grows like the whole. -/
theorem lengthWith_drop {n : Nat} (hlength : ws.length = f.lengthWith k vs)
    (hfront : ∀ v ∈ vs.take n, f.holdsBuffer v = false) :
    (ws.drop n).length = f.lengthWith k (vs.drop n) := by
  have hcount : f.bufferCount vs = f.bufferCount (vs.drop n) := by
    have hsplit : f.bufferCount (vs.take n ++ vs.drop n) =
        f.bufferCount (vs.take n) + f.bufferCount (vs.drop n) := List.countP_append
    rw [List.take_append_drop, bufferCount_eq_zero hfront, Nat.zero_add] at hsplit
    exact hsplit
  rw [lengthWith, hcount] at hlength
  rw [lengthWith, List.length_drop, List.length_drop, hlength]
  by_cases hshort : vs.length ≤ n
  · -- nothing is left, and so nothing grows
    rw [List.drop_eq_nil_of_le hshort]
    simp only [bufferCount, List.countP_nil]
    omega
  · omega

/-- Two lists that agree on buffers have equally many of them. -/
theorem lengthWith_eq (hlength : vs.length = ws.length)
    (hagree : ∀ pair ∈ vs.zip ws, f.holdsBuffer pair.1 = f.holdsBuffer pair.2) :
    f.lengthWith k vs = f.lengthWith k ws := by
  have hcount : f.bufferCount vs = f.bufferCount ws := by
    induction vs generalizing ws with
    | nil =>
      rw [List.length_nil, eq_comm, List.length_eq_zero_iff] at hlength
      rw [hlength]
    | cons v vs ih =>
      cases ws with
      | nil => cases hlength
      | cons w ws =>
        have hrest := ih (by simpa using hlength) fun pair hp => hagree pair (by simp [hp])
        have hfirst := hagree (v, w) (by simp)
        simp only [bufferCount, List.countP_cons] at hrest hfirst ⊢
        rw [hrest, hfirst]
  rw [lengthWith, lengthWith, hlength, hcount]

end Routine

/-! ## Constructs -/

/-- A construct and what it has become: its lists have `k` indicators more for each buffer. -/
structure Widened (f g : Routine) (k : Nat) (d e : Op) : Prop where
  kind : e.kind = d.kind
  operands : e.operands.length = f.lengthWith k d.operands
  results : e.results.length = f.lengthWith k d.results
  args : ∀ i, (g.argsAt e.regions i).length = f.lengthWith k (f.argsAt d.regions i)
  sent : ∀ i, (g.sentAt? e.regions i).map List.length =
    (f.sentAt? d.regions i).map (f.lengthWith k)

namespace Widened

section

variable (h : Widened f g k d e) (hconv : ConventionalOp f d)
include h hconv

/-- A list that an edge sends or receives has grown with its buffers. -/
theorem entries :
    (g.entriesOf e).map (fun x => (x.sent.length, x.received.length)) =
      (f.entriesOf d).map fun x => (f.lengthWith k x.sent, f.lengthWith k x.received) := by
  have hnil : f.lengthWith k [] = 0 := by simp [lengthWith, bufferCount]
  rw [entriesOf, entriesOf, h.kind]
  cases hkind : d.kind with
  | conditional => simp [hnil]
  | forLoop =>
    have hinits := lengthWith_drop h.operands (hconv.bounds hkind)
    have hargs := lengthWith_drop (h.args 0) (hconv.counter hkind)
    simp only [List.map_cons, List.map_nil, hinits, hargs, h.results]
  | whileLoop => simp only [List.map_cons, List.map_nil, h.operands, h.args]
  | _ => rfl

theorem exits {index : Nat} {sent sent' : List ValueId}
    (hsent : f.sentAt? d.regions index = some sent) (hlength : sent'.length = f.lengthWith k sent) :
    (g.exitsOf e index sent').map (fun x => (x.sent.length, x.received.length)) =
      (f.exitsOf d index sent).map fun x => (f.lengthWith k x.sent, f.lengthWith k x.received) := by
  unfold exitsOf
  rw [h.kind]
  cases hkind : d.kind with
  | conditional => simp only [List.map_cons, List.map_nil, hlength, h.results]
  | forLoop =>
    match index with
    | 0 =>
      have hargs := lengthWith_drop (h.args 0) (hconv.counter hkind)
      simp only [List.map_cons, List.map_nil, hlength, hargs, h.results]
    | _ + 1 => rfl
  | whileLoop =>
    match index with
    | 0 =>
      have hrest := lengthWith_drop hlength (hconv.test hkind sent hsent)
      simp only [List.map_cons, List.map_nil, hrest, h.args, h.results]
    | 1 => simp only [List.map_cons, List.map_nil, hlength, h.args]
    | _ + 2 => rfl
  | _ => rfl

theorem edges (source : Option Nat) :
    (g.edgesFrom e source).map (fun x => (x.sent.length, x.received.length)) =
      (f.edgesFrom d source).map fun x =>
        (f.lengthWith k x.sent, f.lengthWith k x.received) := by
  cases source with
  | none => exact h.entries hconv
  | some index =>
    have hsent := h.sent index
    rw [edgesFrom, edgesFrom]
    cases hf : f.sentAt? d.regions index with
    | none =>
      rw [hf, Option.map_none, Option.map_eq_none_iff] at hsent
      rw [hsent]
      rfl
    | some sent =>
      rw [hf, Option.map_some, Option.map_eq_some_iff] at hsent
      obtain ⟨sent', hsent', hlength⟩ := hsent
      rw [hsent', Option.elim_some, Option.elim_some]
      exact h.exits hconv hf hlength

/-- If the edges fit before, they fit afterwards. -/
theorem fits (hfits : ∀ source, ∀ x ∈ f.edgesFrom d source, x.sent.length = x.received.length)
    (source : Option Nat) (x' : FlowEdge) (hx' : x' ∈ g.edgesFrom e source) :
    x'.sent.length = x'.received.length := by
  have hmem : (x'.sent.length, x'.received.length) ∈
      (g.edgesFrom e source).map fun x => (x.sent.length, x.received.length) :=
    List.mem_map.mpr ⟨x', hx', rfl⟩
  rw [h.edges hconv source] at hmem
  obtain ⟨x, hx, heq⟩ := List.mem_map.mp hmem
  have hboth := lengthWith_eq (k := k) (hfits source x hx) (hconv.edges source x hx)
  rw [← (Prod.mk.inj heq).1, ← (Prod.mk.inj heq).2, hboth]

end

end Widened

/-! ## What a construct has become -/

/-- The first block of a region lies in the operation that has the region. -/
theorem Routine.Linked.holder?_of_blockAt? (hl : f.Linked) (hd : f.op? p = some d) {i : Nat}
    (hb : f.blockAt? d.regions i = some b) : f.holder? b = some p := by
  obtain ⟨k, hk, hhead⟩ := Option.bind_eq_some_iff.mp hb
  rw [hl.holder?_iff, regionsOf_of hd]
  exact ⟨k, List.mem_of_getElem? hk, List.mem_of_mem_head? hhead⟩

/-- What is inserted is shaped. -/
theorem Op.Inserted.shaped (h : d.Inserted) : g.ShapedOp d := by
  have hcons : d.kind.construct? = none := by
    rcases h.kind with hk | hk | ⟨n, hk, -, -⟩ <;> rw [hk] <;> rfl
  exact {
    retain := by
      intro n hkind
      rcases h.kind with hk | hk | ⟨m, hk, hle, hlen⟩
      · rw [hk] at hkind
        cases hkind
      · rw [hk] at hkind
        cases hkind
      · rw [hk] at hkind
        cases hkind
        exact ⟨hle, hlen⟩
    alternative := by
      intro hkind
      rw [hkind] at hcons
      cases hcons
    single := fun hne => absurd hcons hne
    edges := by simp [edgesFrom_of_not_construct hcons]
    blocks := by simp [h.regions] }

namespace Embedding

variable (h : Embedding f g δ)
include h

theorem blockAt? (regions : List RegionId) (i : Nat) :
    g.blockAt? regions i = f.blockAt? regions i := by
  simp only [Routine.blockAt?, funext h.change.blocksOf]

theorem isTerminator (hp : f.op? p ≠ none) : g.isTerminator (δ.op p) = f.isTerminator p := by
  rw [Routine.isTerminator, Routine.isTerminator, h.change.kind?_image hp (h.lossless p)]

/-- A terminator keeps its name. -/
theorem op_terminator (hp : f.isTerminator p = true) : δ.op p = p := by
  apply h.change.op_eq_self
  by_contra hne
  rw [isTerminator_of_isConstruct (by simpa using hne)] at hp
  cases hp

theorem lastTerminator? (hl : f.Linked) (b : BlockId) :
    g.lastTerminator? b = f.lastTerminator? b := by
  rw [Routine.lastTerminator?, Routine.lastTerminator?, h.change.last]
  cases hlast : (f.opsOf b).getLast? with
  | none => rfl
  | some t =>
    have hkind := h.isTerminator (hl.op?_of_listed (List.mem_of_getLast? hlast))
    cases hterm : f.isTerminator t with
    | true =>
      have hop := h.op_terminator hterm
      rw [hop, hterm] at hkind
      simp [Option.filter, hterm, hop, hkind]
    | false => simp [Option.filter, hterm, hkind]

theorem sentAt? (hl : f.Linked) (regions : List RegionId) (i : Nat) :
    g.sentAt? regions i = ((f.blockAt? regions i).bind f.lastTerminator?).map g.operandsOf := by
  rw [Routine.sentAt?, h.blockAt?, funext (h.lastTerminator? hl)]

/-- Lengths can be compared block by block. -/
theorem widened (hl : f.Linked) (hgrown : Op.Grown f g δ p d e)
    (hoperands : e.operands.length = f.lengthWith k d.operands)
    (hresults : e.results.length = f.lengthWith k d.results)
    (hargs : ∀ i b, f.blockAt? d.regions i = some b →
      (g.argsOf b).length = f.lengthWith k (f.argsOf b))
    (hsent : ∀ i b t, f.blockAt? d.regions i = some b → f.lastTerminator? b = some t →
      (g.operandsOf t).length = f.lengthWith k (f.operandsOf t)) : Widened f g k d e where
  kind := hgrown.kind
  operands := hoperands
  results := hresults
  args i := by
    rw [argsAt, argsAt, hgrown.regions, h.blockAt?]
    cases hb : f.blockAt? d.regions i with
    | none => simp [lengthWith, bufferCount]
    | some b => exact hargs i b hb
  sent i := by
    rw [h.sentAt? hl, Routine.sentAt?, hgrown.regions, Option.map_map, Option.map_map]
    cases hb : f.blockAt? d.regions i with
    | none => rfl
    | some b =>
      rw [Option.bind_some]
      cases ht : f.lastTerminator? b with
      | none => rfl
      | some t => exact congrArg some (hsent i b t hb ht)

/-- A treated construct has an indicator for each buffer. -/
theorem widened_of_visited (hw : f.WellFormed) (hdone : Done f g f.root)
    (hp : f.VisitedConstruct p) (hd : f.op? p = some d)
    (hsingle : ∀ k ∈ d.regions, (f.blocksOf k).length ≤ 1)
    (hgrown : Op.Grown f g δ p d e) : Widened f g 1 d e := by
  have hne := h.op_ne hw hdone hp
  have hcons : d.kind.construct?.isSome = true := by
    simpa [isConstruct_of hd] using hp.2
  -- every block of the construct has been gone through
  have hsealed : ∀ i b, f.blockAt? d.regions i = some b → Sealed f g b := by
    intro i b hb
    obtain ⟨k, hk, hhead⟩ := Option.bind_eq_some_iff.mp hb
    have hkmem := List.mem_of_getElem? hk
    have hblocks : f.blocksOf k = [b] := by
      obtain ⟨rest, hrest⟩ := List.head?_eq_some_iff.mp hhead
      have hlen := hsingle k hkmem
      rw [hrest, List.length_cons] at hlen
      rw [hrest, List.length_eq_zero_iff.mp (by omega : rest.length = 0)]
    exact (hdone p hp.1 hp.2).2 b (enters_of_construct hd hcons hkmem hblocks)
  apply h.widened hw.linked hgrown
  · have hadded := h.change.added_count p hne
    rw [operandsOf_of hd] at hadded
    rw [hgrown.operands, List.length_map, List.length_append, hadded, lengthWith, Nat.one_mul]
  · obtain ⟨extra, hres, -, -, hcount⟩ := hgrown.results
    rw [hres, List.length_append, List.length_map, hcount hne, lengthWith, Nat.one_mul]
  · intro i b hb
    rw [(hsealed i b hb).args, lengthWith, Nat.one_mul]
  · intro i b t hb ht
    have hlast := (Option.filter_eq_some_iff.mp ht).1
    have hlist := List.dropLast_append_getLast? t hlast
    rw [((hsealed i b hb).operands _ t hlist.symm).2, lengthWith, Nat.one_mul]

/-- A construct that is not treated is as it was. -/
theorem widened_of_not_visited (hw : f.WellFormed) (hreached : f.Reached p)
    (hp : ¬ f.VisitedConstruct p) (hcons : f.isConstruct p = true) (hd : f.op? p = some d)
    (hgrown : Op.Grown f g δ p d e) : Widened f g 0 d e := by
  have hop : δ.op p = p := by
    by_contra hne
    exact hp (h.renamed p hne)
  -- its blocks are not among those that have been opened
  have hclosed : ∀ i b, f.blockAt? d.regions i = some b → ¬ f.Opened b := by
    rintro i b hb ⟨o, ho, henters⟩
    have hholder := hw.linked.holder?_of_blockAt? hd hb
    rw [henters.holder? hw.linked] at hholder
    exact hp (Option.some.inj hholder ▸ ho)
  apply h.widened hw.linked hgrown
  · have hadded : δ.added p = [] :=
      h.change.added_eq_nil (by simp [hd]) hop (isTerminator_of_isConstruct hcons)
    rw [hgrown.operands, hadded, lengthWith]
    simp
  · obtain ⟨extra, hres, -, hsame, -⟩ := hgrown.results
    rw [hres, hsame hop, lengthWith]
    simp
  · intro i b hb
    have hargs : g.argsOf b = f.argsOf b := by
      by_contra hne
      exact hclosed i b hb (h.opened b hne)
    rw [hargs, lengthWith]
    simp
  · intro i b t hb ht
    obtain ⟨hlast, hterm⟩ := Option.filter_eq_some_iff.mp ht
    have hmem := List.mem_of_getLast? hlast
    have hadded : δ.added t = [] := by
      by_contra hne
      rcases h.added t hne with ⟨-, htcons⟩ | ⟨c, body, hopened, hlist⟩
      · rw [isTerminator_of_isConstruct htcons] at hterm
        cases hterm
      · have hc : t ∈ f.opsOf c := by simp [hlist]
        obtain rfl := hw.linked.block_unique hmem hc
        exact hclosed i b hb hopened
    have hup : f.up? t = some p := by
      rw [hw.linked.up?_of_mem hmem]
      exact hw.linked.holder?_of_blockAt? hd hb
    obtain ⟨dt, hdt⟩ := Option.ne_none_iff_exists'.mp (hw.linked.op?_of_listed hmem)
    obtain ⟨et, het, htgrown⟩ :=
      h.change.image_of_live hdt (hw.live t (hreached.step hup)) (h.lossless t)
    rw [h.op_terminator hterm] at het
    rw [operandsOf_of het, operandsOf_of hdt, htgrown.operands, hadded, lengthWith]
    simp

/-! ## The check carried over -/

theorem shapedBlock (hw : f.WellFormed) (hg : g.Linked) (hshaped : f.ShapedBlock b) :
    g.ShapedBlock b := by
  obtain ⟨body, t, hlist, hterm, hbody⟩ := hshaped
  have htknown : f.op? t ≠ none := hw.linked.op?_of_listed (b := b) (by simp [hlist])
  have hop := h.op_terminator hterm
  have hlast : (g.opsOf b).getLast? = some t := by
    rw [h.change.last, hlist, List.getLast?_concat, Option.map_some, hop]
  have hlist' := List.dropLast_append_getLast? t hlast
  refine ⟨_, t, hlist'.symm, ?_, fun q hq => ?_⟩
  · rw [← hop, h.isTerminator htknown, hterm]
  have hqt : q ≠ t := fun he => (hg.listed_once hlist'.symm).1 (he ▸ hq)
  rcases h.change.mem_opsOf (List.dropLast_subset _ hq) with ⟨m, rfl, hm, -⟩ | hnew
  · -- an operation from before the terminator
    rw [hlist, List.mem_append, List.mem_singleton] at hm
    rcases hm with hm | rfl
    · rw [h.isTerminator (hw.linked.op?_of_listed (b := b) (by simp [hlist, hm])), hbody m hm]
    · exact absurd hop hqt
  · obtain ⟨-, e, he, hins⟩ := h.change.new q hnew
    rw [isTerminator_of he]
    rcases hins.kind with hk | hk | ⟨n, hk, -, -⟩ <;> rw [hk] <;> rfl

theorem shapedOp (hw : f.WellFormed) (hg : g.Linked) (hdone : Done f g f.root)
    (hconv : ConventionalOp f d) (hp : f.Reached p) (hd : f.op? p = some d)
    (hgrown : Op.Grown f g δ p d e) (hshaped : f.ShapedOp d) : g.ShapedOp e := by
  -- a visited construct is wider by one indicator for each buffer, any other one is as wide
  have hwidened : d.kind.construct? ≠ none → ∃ k, Widened f g k d e := by
    intro hne
    have hcons : f.isConstruct p = true := by
      simpa [isConstruct_of hd, Option.isSome_iff_ne_none] using hne
    by_cases hvisited : f.VisitedConstruct p
    · exact ⟨1, h.widened_of_visited hw hdone hvisited hd (hshaped.single hne) hgrown⟩
    · exact ⟨0, h.widened_of_not_visited hw hp hvisited hcons hd hgrown⟩
  exact {
    retain := by
      intro n hkind
      rw [hgrown.kind] at hkind
      have hop : δ.op p = p :=
        h.change.op_eq_self (by simp [isConstruct_of hd, hkind, OpKind.construct?])
      have hadded : δ.added p = [] := h.change.added_eq_nil (by simp [hd]) hop
        (by simp [isTerminator_of hd, hkind, OpKind.isTerminator])
      obtain ⟨extra, hres, -, hsame, -⟩ := hgrown.results
      rw [hgrown.operands, hadded, hres, hsame hop]
      simpa using hshaped.retain n hkind
    alternative := by
      intro hkind hresults
      rw [hgrown.kind] at hkind
      rw [hgrown.regions, h.blockAt?]
      apply hshaped.alternative hkind
      intro hnone
      obtain ⟨k, hk⟩ := hwidened (by simp [hkind, OpKind.construct?])
      have hlength := hk.results
      rw [hnone] at hlength
      exact hresults (List.length_eq_zero_iff.mp (by simpa [lengthWith, bufferCount] using hlength))
    single := by
      intro hne k hk
      rw [hgrown.kind] at hne
      rw [hgrown.regions] at hk
      rw [h.change.blocksOf]
      exact hshaped.single hne k hk
    edges := by
      by_cases hne : d.kind.construct? = none
      · intro source x hx
        rw [edgesFrom_of_not_construct (by rw [hgrown.kind, hne])] at hx
        cases hx
      · obtain ⟨k, hk⟩ := hwidened hne
        exact hk.fits hconv hshaped.edges
    blocks := by
      intro k hk c hc
      rw [hgrown.regions] at hk
      rw [h.change.blocksOf] at hc
      exact h.shapedBlock hw hg (hshaped.blocks k hk c hc) }

/-- What passes the check passes it under its new name. -/
theorem checkWithin (hw : f.WellFormed) (hg : g.Linked) (hdone : Done f g f.root)
    (hconv : Conventional f) {fuel : Nat} (hp : f.Reached p)
    (hok : f.checkWithin fuel p = .ok ()) : g.checkWithin fuel (δ.op p) = .ok () := by
  induction fuel generalizing p with
  | zero => cases hok
  | succ fuel ih =>
    have hf := hw.linked.inRange
    obtain ⟨d, hd⟩ := Option.ne_none_iff_exists'.mp (hw.op?_of_reached hp)
    obtain ⟨e, he, hgrown⟩ := h.change.image_of_live hd (hw.live p hp) (h.lossless p)
    obtain ⟨hshaped, hinside⟩ := (hf.checkWithin_succ_iff hd).mp hok
    have hshaped' := h.shapedOp hw hg hdone (hconv.op hf hp hd) hp hd hgrown hshaped
    refine (hg.inRange.checkWithin_succ_iff he).mpr ⟨hshaped', fun k hk c hc q hq => ?_⟩
    rw [hgrown.regions] at hk
    rw [h.change.blocksOf] at hc
    rcases h.change.mem_opsOf hq with ⟨m, rfl, hm, -⟩ | hnew
    · have hup : f.up? m = some p := by
        rw [hw.linked.up?_of_mem hm, hw.linked.holder?_iff,
          regionsOf_of hd]
        exact ⟨k, hk, hc⟩
      exact ih (hp.step hup) (hinside k hk c hc m hm)
    · -- a new operation stands in a block that has a terminator, so there is fuel left for it
      obtain ⟨body, t, hlist, -⟩ := hshaped.blocks k hk c hc
      have ht := hinside k hk c hc t (by simp [hlist])
      obtain ⟨-, x, hx, hins⟩ := h.change.new q hnew
      cases fuel with
      | zero => cases ht
      | succ fuel =>
        apply (hg.inRange.checkWithin_succ_iff hx).mpr
        rw [hins.regions]
        exact ⟨hins.shaped, by simp⟩

theorem size_ops : f.ops.size ≤ g.ops.size := by
  by_contra hlt
  obtain ⟨d, hd⟩ := exists_op? (r := f) (o := ⟨g.ops.size⟩) (by simpa using hlt)
  obtain ⟨e, he, -⟩ := h.change.kept _ d hd
  have hbound := lt_of_op? he
  simp at hbound

/-- A well-shaped routine with ownership added is well shaped. -/
theorem checkShape (hw : f.WellFormed) (hg : g.Linked) (hdone : Done f g f.root)
    (hconv : Conventional f) (hok : f.checkShape = .ok ()) : g.checkShape = .ok () := by
  have hroot : δ.op f.root = g.root := by
    rw [h.change.op_eq_self hw.isConstruct_root, h.change.root]
  have hwithin := h.checkWithin hw hg hdone hconv .refl hok
  rw [hroot] at hwithin
  apply hg.inRange.checkWithin_mono _ hwithin
  exact Nat.succ_le_succ h.size_ops

end Embedding

/-- Threading ownership through a well-shaped routine that follows the conventions never ends in a
defect of shape: whatever it makes of the routine is well shaped again. -/
theorem threadOwnership_wellShaped (hw : f.WellFormed) (hshape : f.checkShape = .ok ())
    (hconv : Conventional f) (settings : Settings) :
    (∀ defect, f.threadOwnership settings ≠ .error (.rejected (.verification defect))) ∧
      ∀ out s, f.threadFromRoot settings = .ok (out, s) → s.routine.checkShape = .ok () := by
  have hkept : ∀ out s, f.threadFromRoot settings = .ok (out, s) →
      s.routine.checkShape = .ok () := by
    intro out s hroot
    obtain ⟨ht, hdone, -⟩ := threadFromRoot_spec hw hroot
    obtain ⟨δ, hδ⟩ := ht.embedded
    exact hδ.checkShape hw ht.wellFormed.linked hdone hconv hshape
  refine ⟨fun defect h => ?_, hkept⟩
  cases hroot : f.threadFromRoot settings with
  | error failure =>
    -- the work itself looks at no shape
    rw [threadOwnership, hroot] at h
    cases h
    exact Pass.ShapeBlind.throughOpWithin settings _ _ _ _ defect hroot
  | ok answer =>
    obtain ⟨out, s⟩ := answer
    have hcheck : s.routine.checkResult settings = .ok () := by
      rw [checkResult, hkept out s hroot]
      split <;> rfl
    rw [threadOwnership, bind_of_ok hroot] at h
    simp only [bind_of_ok hcheck] at h
    cases h

/-! ## Following the conventions, as a test -/

namespace Routine

/-- Does an operation with a given entry follow the conventions? -/
def isConventionalOp (f : Routine) (d : Op) : Bool :=
  ((edgeSources d.regions.length).all fun source =>
    (f.edgesFrom d source).all fun e =>
      (e.sent.zip e.received).all fun pair => f.holdsBuffer pair.1 == f.holdsBuffer pair.2) &&
  (d.kind != .forLoop ||
    (d.operands.take 3 ++ (f.argsAt d.regions 0).take 1).all fun v => !f.holdsBuffer v) &&
  (d.kind != .whileLoop ||
    (f.sentAt? d.regions 0).all fun sent => (sent.take 1).all fun v => !f.holdsBuffer v)

/-- Do all operations follow the conventions? -/
def isConventional (f : Routine) : Bool := f.ops.toList.all f.isConventionalOp

end Routine

theorem conventionalOp_of_check (h : f.isConventionalOp d = true) : ConventionalOp f d := by
  simp only [isConventionalOp, Bool.and_eq_true, Bool.or_eq_true, bne_iff_ne, List.all_eq_true,
    beq_iff_eq, List.mem_append, Bool.not_eq_true', Option.all_eq_true] at h
  obtain ⟨⟨hedges, hfor⟩, hwhile⟩ := h
  exact {
    edges := by
      intro source e he
      by_cases hsource : source ∈ edgeSources d.regions.length
      · exact hedges source hsource e he
      · rw [edgesFrom_of_not_source hsource] at he
        cases he
    bounds := fun hkind v hv => (hfor.resolve_left (absurd hkind)) v (.inl hv)
    counter := fun hkind v hv => (hfor.resolve_left (absurd hkind)) v (.inr hv)
    test := fun hkind => hwhile.resolve_left (absurd hkind) }

theorem conventional_of_check (hw : f.WellFormed) (h : f.isConventional = true) :
    Conventional f := by
  have hr := hw.linked.inRange
  -- the check looks at every entry, so also at those that are reached
  have hop : ∀ o, f.Reached o → ∃ d, f.op? o = some d ∧ ConventionalOp f d := by
    intro o ho
    obtain ⟨d, hd⟩ := Option.ne_none_iff_exists'.mp (hw.op?_of_reached ho)
    have hmem : d ∈ f.ops.toList := Array.mem_toList_iff.mpr (Array.mem_of_getElem? hd)
    exact ⟨d, hd, conventionalOp_of_check (List.all_eq_true.mp h d hmem)⟩
  exact {
    edges := by
      intro o ho source edges hedges
      obtain ⟨d, hd, hconv⟩ := hop o ho
      rw [hr.flowEdges hd source] at hedges
      cases hedges
      exact hconv.edges source
    bounds := by
      intro o ho hkind
      obtain ⟨d, hd, hconv⟩ := hop o ho
      rw [kind?_of hd] at hkind
      rw [operandsOf_of hd]
      exact hconv.bounds (Option.some.inj hkind)
    counter := by
      intro o ho hkind args hargs
      obtain ⟨d, hd, hconv⟩ := hop o ho
      rw [kind?_of hd] at hkind
      rw [hr.argsOfRegionAt 0, regionsOf_of hd] at hargs
      cases hargs
      exact hconv.counter (Option.some.inj hkind)
    test := by
      intro o ho hkind sent hsent
      obtain ⟨d, hd, hconv⟩ := hop o ho
      rw [kind?_of hd] at hkind
      rw [hr.sentByRegionAt? 0, regionsOf_of hd] at hsent
      exact hconv.test (Option.some.inj hkind) sent (Except.ok.inj hsent) }

theorem threadOwnership_wellShaped_renewal :
    (∀ defect, renewalRoutine.threadOwnership {} ≠ .error (.rejected (.verification defect))) ∧
      ∃ out s, renewalRoutine.threadFromRoot {} = .ok (out, s) ∧
        s.routine.checkShape = .ok () := by
  have hconv : Conventional renewalRoutine :=
    conventional_of_check renewalRoutine_wellFormed (by decide +kernel)
  obtain ⟨hnever, hkept⟩ :=
    threadOwnership_wellShaped renewalRoutine_wellFormed (by decide +kernel) hconv {}
  obtain ⟨⟨out, s⟩, hroot⟩ :=
    exists_of_toBool (x := renewalRoutine.threadFromRoot {}) (by decide +kernel)
  exact ⟨hnever, out, s, hroot, hkept out s hroot⟩

end BufferOwnership
