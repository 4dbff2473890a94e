import BufferOwnership.Proofs.Queries

/-!
# What the check of shapes checks

The check goes through a routine by queries that can fail. Where everything that is listed has an
entry, none of them does, and what is checked can be said of the tables themselves: `edgesFrom` are
the edges of an operation, `ShapedBlock` and `ShapedOp` say what is asked of a block and of an
operation. An operation passes if it is shaped and what is directly inside it passes.
-/

namespace BufferOwnership

/-- A computation goes on with the answer of its first step. -/
theorem bind_of_ok {ε α β : Type} {x : Except ε α} {f : α → Except ε β} {a : α} (h : x = .ok a) :
    (x >>= f) = f a := by
  subst h
  rfl

/-- Something is done to all members of a list if and only if it can be done to each. -/
theorem forM_eq_ok {ε α : Type} {l : List α} {f : α → Except ε Unit} :
    l.forM f = .ok () ↔ ∀ a ∈ l, f a = .ok () := by
  induction l with
  | nil => simp [pure, Except.pure]
  | cons a l ih =>
    show (f a >>= fun _ => l.forM f) = .ok () ↔ _
    rw [bind_eq_ok, List.forall_mem_cons, ← ih]
    exact ⟨fun ⟨_, ha, hl⟩ => ⟨ha, hl⟩, fun ⟨ha, hl⟩ => ⟨(), ha, hl⟩⟩

namespace Routine

variable {r : Routine} {o : OpId} {b : BlockId} {d : Op} {g : RegionId}

/-- Everything that is listed has an entry. -/
structure InRange (r : Routine) : Prop where
  regions : ∀ o, ∀ g ∈ r.regionsOf o, r.region? g ≠ none
  blocks : ∀ g, ∀ b ∈ r.blocksOf g, r.block? b ≠ none
  ops : ∀ b, ∀ o ∈ r.opsOf b, r.op? o ≠ none

theorem Nested.inRange (h : r.Nested) : r.InRange where
  regions o g hg := by
    have howner := (h.region_listed g o).mp hg
    intro hnone
    simp [owner?, hnone] at howner
  blocks g b hb := by
    have hhome := (h.block_listed b g).mp hb
    intro hnone
    simp [home?, hnone] at hhome
  ops b o ho := by
    have hparent := (h.op_listed o b).mp ho
    intro hnone
    simp [parent?, hnone] at hparent

/-! ## Queries that do not fail -/

theorem op_of (h : r.op? o = some d) : r.op o = .ok d := op_eq_ok.mpr h

/-- The terminator of a block is its last operation, if that is of a kind that ends a block. -/
def lastTerminator? (r : Routine) (b : BlockId) : Option OpId :=
  (r.opsOf b).getLast?.filter r.isTerminator

def blockAt? (r : Routine) (regions : List RegionId) (index : Nat) : Option BlockId :=
  regions[index]?.bind fun g => (r.blocksOf g).head?

def argsAt (r : Routine) (regions : List RegionId) (index : Nat) : List ValueId :=
  (r.blockAt? regions index).elim [] r.argsOf

/-- What the region at an index sends, if it ends in a terminator. -/
def sentAt? (r : Routine) (regions : List RegionId) (index : Nat) : Option (List ValueId) :=
  ((r.blockAt? regions index).bind r.lastTerminator?).map r.operandsOf

namespace InRange

theorem region (h : r.InRange) (hg : g ∈ r.regionsOf o) :
    ∃ G, r.region g = .ok G ∧ G.blocks = r.blocksOf g := by
  obtain ⟨G, hG⟩ := Option.ne_none_iff_exists'.mp (h.regions o g hg)
  exact ⟨G, region_eq_ok.mpr hG, (blocksOf_of hG).symm⟩

theorem block (h : r.InRange) (hb : b ∈ r.blocksOf g) :
    ∃ B, r.block b = .ok B ∧ B.ops = r.opsOf b ∧ B.args = r.argsOf b := by
  obtain ⟨B, hB⟩ := Option.ne_none_iff_exists'.mp (h.blocks g b hb)
  exact ⟨B, block_eq_ok.mpr hB, (opsOf_of hB).symm, (argsOf_of hB).symm⟩

theorem terminator? (h : r.InRange) (hb : b ∈ r.blocksOf g) :
    r.terminator? b = .ok (r.lastTerminator? b) := by
  obtain ⟨B, hB, hops, -⟩ := h.block hb
  unfold Routine.terminator? lastTerminator?
  rw [bind_of_ok hB, hops]
  cases hlast : (r.opsOf b).getLast? with
  | none => rfl
  | some t =>
    obtain ⟨e, he⟩ := Option.ne_none_iff_exists'.mp (h.ops b t (List.mem_of_getLast? hlast))
    simp only [bind_of_ok (op_of he), Option.filter, isTerminator_of he]
    split <;> rfl

theorem isRegionAtEmpty (h : r.InRange) (index : Nat) :
    r.isRegionAtEmpty (r.regionsOf o) index =
      .ok (r.blockAt? (r.regionsOf o) index).isNone := by
  unfold Routine.isRegionAtEmpty blockAt?
  cases hg : (r.regionsOf o)[index]? with
  | none => rfl
  | some g =>
    obtain ⟨G, hG, hblocks⟩ := h.region (List.mem_of_getElem? hg)
    simp only [bind_of_ok hG, hblocks, Option.bind_some]
    cases r.blocksOf g <;> rfl

theorem regionArgs (h : r.InRange) (hg : g ∈ r.regionsOf o) :
    r.regionArgs g = .ok ((r.blocksOf g).head?.elim [] r.argsOf) := by
  obtain ⟨G, hG, hblocks⟩ := h.region hg
  rw [Routine.regionArgs, bind_of_ok hG, hblocks]
  cases hcases : r.blocksOf g with
  | nil => rfl
  | cons b rest =>
    obtain ⟨B, hB, -, hargs⟩ := h.block (b := b) (g := g) (by simp [hcases])
    simp only [bind_of_ok hB, hargs]
    rfl

theorem argsOfRegionAt (h : r.InRange) (index : Nat) :
    r.argsOfRegionAt (r.regionsOf o) index = .ok (r.argsAt (r.regionsOf o) index) := by
  unfold Routine.argsOfRegionAt argsAt blockAt?
  cases hg : (r.regionsOf o)[index]? with
  | none => rfl
  | some g =>
    simp only [h.regionArgs (List.mem_of_getElem? hg), Option.bind_some]

theorem sentByRegionAt? (h : r.InRange) (index : Nat) :
    r.sentByRegionAt? (r.regionsOf o) index = .ok (r.sentAt? (r.regionsOf o) index) := by
  unfold Routine.sentByRegionAt? sentAt? blockAt?
  cases hg : (r.regionsOf o)[index]? with
  | none => rfl
  | some g =>
    obtain ⟨G, hG, hblocks⟩ := h.region (List.mem_of_getElem? hg)
    simp only [bind_of_ok hG, hblocks, Option.bind_some]
    cases hcases : r.blocksOf g with
    | nil => rfl
    | cons b rest =>
      have hb : b ∈ r.blocksOf g := by simp [hcases]
      simp only [bind_of_ok (h.terminator? hb), List.head?_cons, Option.bind_some]
      cases hlast : r.lastTerminator? b with
      | none => rfl
      | some t =>
        have ht : t ∈ r.opsOf b :=
          List.mem_of_getLast? (Option.filter_eq_some_iff.mp hlast).1
        obtain ⟨e, he⟩ := Option.ne_none_iff_exists'.mp (h.ops b t ht)
        simp only [bind_of_ok (op_of he), Option.map_some, operandsOf_of he]
        rfl

end InRange

/-! ## Edges -/

/-- The edges of an operation from where it is entered. -/
def entriesOf (r : Routine) (d : Op) : List FlowEdge :=
  match d.kind with
  | .conditional =>
    let skips := (r.blockAt? d.regions 1).isNone
    [⟨.region 0, [], []⟩, ⟨if skips then .results else .region 1, [], []⟩]
  | .forLoop =>
    [⟨.region 0, d.operands.drop 3, (r.argsAt d.regions 0).drop 1⟩,
     ⟨.results, d.operands.drop 3, d.results⟩]
  | .whileLoop => [⟨.region 0, d.operands, r.argsAt d.regions 0⟩]
  | _ => []

/-- The edges of an operation from the end of a region, given what is sent there. -/
def exitsOf (r : Routine) (d : Op) (index : Nat) (sent : List ValueId) : List FlowEdge :=
  match d.kind, index with
  | .conditional, _ => [⟨.results, sent, d.results⟩]
  | .forLoop, 0 =>
    [⟨.region 0, sent, (r.argsAt d.regions 0).drop 1⟩, ⟨.results, sent, d.results⟩]
  | .whileLoop, 0 =>
    [⟨.region 1, sent.drop 1, r.argsAt d.regions 1⟩, ⟨.results, sent.drop 1, d.results⟩]
  | .whileLoop, 1 => [⟨.region 0, sent, r.argsAt d.regions 0⟩]
  | _, _ => []

def edgesFrom (r : Routine) (d : Op) : Option Nat → List FlowEdge
  | none => r.entriesOf d
  | some index => (r.sentAt? d.regions index).elim [] (r.exitsOf d index)

/-- Without an exit at a region there is no edge from there. -/
theorem exitsOf_of_not_leaves {index : Nat} (h : d.kind.leavesRegion index = false)
    (sent : List ValueId) : r.exitsOf d index sent = [] := by
  unfold exitsOf
  split <;> simp_all [OpKind.leavesRegion]

theorem InRange.argsAt_eq (h : r.InRange) (hd : r.op? o = some d) (index : Nat) :
    r.argsOfRegionAt d.regions index = .ok (r.argsAt d.regions index) :=
  regionsOf_of hd ▸ h.argsOfRegionAt index

theorem InRange.exitEdges (h : r.InRange) (hd : r.op? o = some d) (index : Nat)
    (sent : List ValueId) : r.exitEdges d index sent = .ok (r.exitsOf d index sent) := by
  unfold Routine.exitEdges
  split
  · simp only [exitsOf, *]
    rfl
  · simp only [exitsOf, *]
    exact bind_of_ok (h.argsAt_eq hd 0)
  · simp only [exitsOf, *]
    exact bind_of_ok (h.argsAt_eq hd 1)
  · simp only [exitsOf, *]
    exact bind_of_ok (h.argsAt_eq hd 0)
  · simp only [exitsOf]
    rfl

/-- The edges of an operation are those read off its entry. -/
theorem InRange.flowEdges (h : r.InRange) (hd : r.op? o = some d) (source : Option Nat) :
    r.flowEdges o source = .ok (r.edgesFrom d source) := by
  have hregions := regionsOf_of hd
  cases source with
  | none =>
    rw [Routine.flowEdges, bind_of_ok (op_of hd), entryEdges, edgesFrom, entriesOf]
    cases d.kind with
    | conditional => exact bind_of_ok (hregions ▸ h.isRegionAtEmpty 1)
    | forLoop => exact bind_of_ok (h.argsAt_eq hd 0)
    | whileLoop => exact bind_of_ok (h.argsAt_eq hd 0)
    | _ => rfl
  | some index =>
    rw [Routine.flowEdges, bind_of_ok (op_of hd), edgesFrom]
    split
    · rw [← hregions, bind_of_ok (h.sentByRegionAt? index)]
      cases r.sentAt? (r.regionsOf o) index with
      | none => rfl
      | some sent => exact h.exitEdges hd index sent
    -- where the kind has no exit, the queries are not made
    · rename_i hleaves
      cases r.sentAt? d.regions index with
      | none => rfl
      | some sent =>
        rw [Option.elim_some, exitsOf_of_not_leaves (by simpa using hleaves)]
        rfl

/-- Only constructs have edges. -/
theorem edgesFrom_of_not_construct (h : d.kind.construct? = none) (source : Option Nat) :
    r.edgesFrom d source = [] := by
  cases source with
  | none =>
    rw [edgesFrom, entriesOf]
    cases hkind : d.kind <;> simp_all [OpKind.construct?]
  | some index =>
    have hleaves : d.kind.leavesRegion index = false := by
      cases hkind : d.kind <;> simp_all [OpKind.construct?, OpKind.leavesRegion]
    rw [edgesFrom]
    cases r.sentAt? d.regions index with
    | none => rfl
    | some sent => exact exitsOf_of_not_leaves hleaves sent

/-- There is no edge from a region that is not there. -/
theorem edgesFrom_of_not_source {source : Option Nat} (h : source ∉ edgeSources d.regions.length) :
    r.edgesFrom d source = [] := by
  cases source with
  | none => simp [edgeSources] at h
  | some index =>
    have hnone : d.regions[index]? = none := by
      rw [List.getElem?_eq_none_iff]
      simpa [edgeSources] using h
    simp [edgesFrom, sentAt?, blockAt?, hnone]

/-- The edges of an operation depend on the blocks in its regions only. -/
theorem edgesFrom_congr {g : Routine} (hblocks : ∀ k, g.blocksOf k = r.blocksOf k)
    (hargs : ∀ index, g.argsAt d.regions index = r.argsAt d.regions index)
    (hsent : ∀ index, g.sentAt? d.regions index = r.sentAt? d.regions index)
    (source : Option Nat) : g.edgesFrom d source = r.edgesFrom d source := by
  have hblock : g.blockAt? d.regions 1 = r.blockAt? d.regions 1 := by
    simp only [blockAt?, hblocks]
  cases source with
  | none => simp only [edgesFrom, entriesOf, hblock, hargs]
  | some index =>
    have hexits : g.exitsOf d index = r.exitsOf d index := by
      funext sent
      simp only [exitsOf, hargs]
    rw [edgesFrom, edgesFrom, hsent, hexits]

/-! ## Shapes -/

/-- A block ends in a terminator and has no other one. -/
def ShapedBlock (r : Routine) (b : BlockId) : Prop :=
  ∃ body t, r.opsOf b = body ++ [t] ∧ r.isTerminator t = true ∧
    ∀ q ∈ body, r.isTerminator q = false

/-- What is asked of an operation with a given entry and of the blocks directly inside it. -/
structure ShapedOp (r : Routine) (d : Op) : Prop where
  retain : ∀ n, d.kind = .retain n → n ≤ d.operands.length ∧ d.results.length = n
  alternative : d.kind = .conditional → d.results ≠ [] → r.blockAt? d.regions 1 ≠ none
  single : d.kind.construct? ≠ none → ∀ g ∈ d.regions, (r.blocksOf g).length ≤ 1
  edges : ∀ source, ∀ e ∈ r.edgesFrom d source, e.sent.length = e.received.length
  blocks : ∀ g ∈ d.regions, ∀ b ∈ r.blocksOf g, r.ShapedBlock b

/-! ## The check -/

theorem findTerminator?_ok {l : List OpId} (hl : ∀ q ∈ l, r.op? q ≠ none) :
    ∃ answer, r.findTerminator? l = .ok answer ∧
      (answer = none ↔ ∀ q ∈ l, r.isTerminator q = false) := by
  induction l with
  | nil => exact ⟨none, rfl, by simp⟩
  | cons q rest ih =>
    obtain ⟨e, he⟩ := Option.ne_none_iff_exists'.mp (hl q (by simp))
    have hq : r.isTerminator q = e.kind.isTerminator := by simp [isTerminator_of he]
    rw [findTerminator?, bind_of_ok (op_of he)]
    simp only [List.forall_mem_cons, hq]
    split
    · rename_i hterm
      exact ⟨_, rfl, by simp [hterm]⟩
    · rename_i hterm
      obtain ⟨answer, hanswer, hiff⟩ := ih fun p hp => hl p (by simp [hp])
      exact ⟨answer, hanswer, by simp [hiff, hterm]⟩

namespace InRange

variable {gs : List RegionId} {fuel : Nat}

section

variable (h : r.InRange)
include h

theorem checkBlock_iff (hb : b ∈ r.blocksOf g) : r.checkBlock b = .ok () ↔ r.ShapedBlock b := by
  obtain ⟨B, hB, hops, -⟩ := h.block hb
  have hknown : ∀ q ∈ (r.opsOf b).dropLast, r.op? q ≠ none := fun q hq =>
    h.ops b q (List.dropLast_subset _ hq)
  rw [checkBlock, bind_of_ok (orFault_eq_ok.mpr hB),
    bind_of_ok (orFault_eq_ok.mpr (h.terminator? hb)), hops]
  cases hlast : r.lastTerminator? b with
  | none =>
    -- a block with a last terminator has one that is found
    refine ⟨fun hok => (by cases hok), ?_⟩
    rintro ⟨body, t, hlist, hterm, -⟩
    simp [lastTerminator?, hlist, hterm] at hlast
  | some t =>
    obtain ⟨hmem, hterm⟩ := Option.filter_eq_some_iff.mp hlast
    have hlist := List.dropLast_append_getLast? t hmem
    obtain ⟨answer, hanswer, hiff⟩ := findTerminator?_ok hknown
    rw [bind_of_ok (orFault_eq_ok.mpr hanswer)]
    constructor
    · intro hok
      cases answer with
      | none => exact ⟨_, t, hlist.symm, hterm, hiff.mp rfl⟩
      | some found => cases hok
    · rintro ⟨body, t', hlist', -, hbody⟩
      rw [hlist', List.dropLast_concat] at hiff
      cases hiff.mpr hbody
      rfl

theorem checkRegions_iff (hgs : gs ⊆ r.regionsOf o) :
    r.checkRegions gs = .ok () ↔ ∀ g ∈ gs, ∀ b ∈ r.blocksOf g, r.ShapedBlock b := by
  induction gs with
  | nil => simp [checkRegions, pure, Except.pure]
  | cons g gs ih =>
    obtain ⟨G, hG, hblocks⟩ := h.region (hgs (List.mem_cons_self (a := g)))
    have hrest := ih fun k hk => hgs (by simp [hk])
    have hfirst : (r.blocksOf g).forM r.checkBlock = .ok () ↔
        ∀ b ∈ r.blocksOf g, r.ShapedBlock b := by
      rw [forM_eq_ok]
      exact forall₂_congr fun b hb => h.checkBlock_iff hb
    rw [checkRegions, bind_of_ok (orFault_eq_ok.mpr hG), bind_eq_ok, hblocks,
      List.forall_mem_cons, ← hfirst, ← hrest]
    exact ⟨fun ⟨_, hg, hgs⟩ => ⟨hg, hgs⟩, fun ⟨hg, hgs⟩ => ⟨(), hg, hgs⟩⟩

theorem checkCounts_iff (hd : r.op? o = some d) :
    r.checkCounts o d = .ok () ↔
      (∀ n, d.kind = .retain n → n ≤ d.operands.length ∧ d.results.length = n) ∧
      (d.kind = .conditional → d.results ≠ [] → r.blockAt? d.regions 1 ≠ none) := by
  have hempty := regionsOf_of hd ▸ h.isRegionAtEmpty (o := o) 1
  unfold checkCounts
  cases hkind : d.kind with
  | retain count =>
    simp only [OpKind.retain.injEq, forall_eq', reduceCtorEq, false_implies, and_true]
    split
    · rename_i hbad
      simp only [reduceCtorEq, false_iff]
      simp only [Bool.or_eq_true, decide_eq_true_eq, bne_iff_ne] at hbad
      omega
    · rename_i hgood
      simp only [Bool.or_eq_true, decide_eq_true_eq, bne_iff_ne, not_or] at hgood
      simp only [pure, Except.pure, true_iff]
      omega
  | conditional =>
    simp only [reduceCtorEq, false_implies, implies_true, true_and]
    rw [bind_of_ok (orFault_eq_ok.mpr hempty)]
    cases r.blockAt? d.regions 1 with
    | none => cases d.results <;> simp [pure, Except.pure]
    | some c => simp [pure, Except.pure]
  | _ => simp [pure, Except.pure]

theorem hasMultiBlockRegion (hgs : gs ⊆ r.regionsOf o) :
    r.hasMultiBlockRegion gs = .ok (gs.any fun g => decide (1 < (r.blocksOf g).length)) := by
  unfold Routine.hasMultiBlockRegion
  induction gs with
  | nil => rfl
  | cons g gs ih =>
    obtain ⟨G, hG, hblocks⟩ := h.region (hgs (List.mem_cons_self (a := g)))
    have hg : (do return decide ((← r.region g).blocks.length > 1)) =
        (.ok (decide (1 < (r.blocksOf g).length)) : Except Fault Bool) := by
      rw [bind_of_ok hG, hblocks]
      rfl
    -- the search ends at the first region with several blocks
    rw [List.anyM_cons, bind_of_ok hg, ih fun k hk => hgs (by simp [hk]), List.any_cons]
    split
    · rename_i hmulti
      simp [hmulti, pure, Except.pure]
    · rename_i hsingle
      simp [hsingle]

section

variable (hd : r.op? o = some d)
include hd

theorem checkEdgesFrom_iff (name : String) (source : Option Nat) :
    r.checkEdgesFrom o name source = .ok () ↔
      ∀ e ∈ r.edgesFrom d source, e.sent.length = e.received.length := by
  rw [checkEdgesFrom, bind_of_ok (orFault_eq_ok.mpr (h.flowEdges hd source)), forM_eq_ok]
  refine forall₂_congr fun e _ => ?_
  unfold checkEdge
  split <;> simp_all [pure, Except.pure]

theorem checkConstruct_iff :
    r.checkConstruct o d = .ok () ↔
      (d.kind.construct? ≠ none → ∀ g ∈ d.regions, (r.blocksOf g).length ≤ 1) ∧
      ∀ source, ∀ e ∈ r.edgesFrom d source, e.sent.length = e.received.length := by
  have hsub : d.regions ⊆ r.regionsOf o := by rw [regionsOf_of hd]; simp
  have hmulti := h.hasMultiBlockRegion hsub
  have hedges : (edgeSources d.regions.length).forM (r.checkEdgesFrom o d.kind.name) = .ok () ↔
      ∀ source, ∀ e ∈ r.edgesFrom d source, e.sent.length = e.received.length := by
    rw [forM_eq_ok]
    constructor
    · intro hall source e he
      -- what is not checked has no edges
      by_cases hsource : source ∈ edgeSources d.regions.length
      · exact (h.checkEdgesFrom_iff hd _ source).mp (hall source hsource) e he
      · rw [edgesFrom_of_not_source hsource] at he
        cases he
    · intro hall source _
      exact (h.checkEdgesFrom_iff hd _ source).mpr (hall source)
  unfold checkConstruct
  cases hcons : d.kind.construct? with
  | none => simp [edgesFrom_of_not_construct hcons, pure, Except.pure]
  | some kind =>
    simp only [bind_of_ok (orFault_eq_ok.mpr hmulti), ← hedges]
    split
    · rename_i hbad
      obtain ⟨g, hg, hlong⟩ := List.any_eq_true.mp hbad
      simp only [decide_eq_true_eq] at hlong
      constructor
      · intro hok
        cases hok
      · intro hgood
        have := hgood.1 (by simp) g hg
        omega
    · rename_i hgood
      have hsingle : ∀ g ∈ d.regions, (r.blocksOf g).length ≤ 1 := by
        simpa using hgood
      exact ⟨fun hok => ⟨fun _ => hsingle, hok⟩, And.right⟩

theorem innerBlocks : r.innerBlocks o = .ok (d.regions.flatMap r.blocksOf) := by
  obtain ⟨regions, hregions⟩ := exists_mapM_eq_ok.mpr fun g hg =>
    (h.region (o := o) (g := g) (by rwa [regionsOf_of hd])).imp fun _ => And.left
  rw [Routine.innerBlocks, bind_of_ok (op_of hd), bind_of_ok hregions,
    ← flatMap_of_mapM hregions fun _ _ => region_blocksOf]
  rfl

/-- What is directly inside an operation. -/
theorem innerOps : r.innerOps o = .ok ((d.regions.flatMap r.blocksOf).flatMap r.opsOf) := by
  obtain ⟨blocks, hblocks⟩ : ∃ blocks, (d.regions.flatMap r.blocksOf).mapM r.block = .ok blocks :=
    exists_mapM_eq_ok.mpr fun b hb => by
      obtain ⟨g, -, hg⟩ := List.mem_flatMap.mp hb
      exact (h.block hg).imp fun _ => And.left
  rw [Routine.innerOps, bind_of_ok (h.innerBlocks hd), bind_of_ok hblocks,
    ← flatMap_of_mapM hblocks fun _ _ => block_opsOf]
  rfl

/-- An operation passes if and only if it is shaped and what is directly inside it passes. -/
theorem checkWithin_succ_iff :
    r.checkWithin (fuel + 1) o = .ok () ↔
      r.ShapedOp d ∧ ∀ g ∈ d.regions, ∀ b ∈ r.blocksOf g, ∀ p ∈ r.opsOf b,
        r.checkWithin fuel p = .ok () := by
  have hsub : d.regions ⊆ r.regionsOf o := by rw [regionsOf_of hd]; simp
  have hregions := h.checkRegions_iff hsub
  -- the order in which the inner operations are checked does not matter
  have hinner : ((d.regions.flatMap r.blocksOf).flatMap r.opsOf).reverse.forM
      (r.checkWithin fuel) = .ok () ↔ ∀ g ∈ d.regions, ∀ b ∈ r.blocksOf g, ∀ p ∈ r.opsOf b,
        r.checkWithin fuel p = .ok () := by
    rw [forM_eq_ok]
    simp only [List.mem_reverse, List.mem_flatMap]
    constructor
    · intro hall g hg b hb p hp
      exact hall p ⟨b, ⟨g, hg, hb⟩, hp⟩
    · rintro hall p ⟨b, ⟨g, hg, hb⟩, hp⟩
      exact hall g hg b hb p hp
  rw [checkWithin, bind_of_ok (orFault_eq_ok.mpr (op_of hd)), ← hinner]
  constructor
  · intro hok
    obtain ⟨_, hop, hok⟩ := bind_eq_ok.mp hok
    obtain ⟨_, hcounts, hcons⟩ := bind_eq_ok.mp hop
    obtain ⟨_, hblocks, hok⟩ := bind_eq_ok.mp hok
    rw [bind_of_ok (orFault_eq_ok.mpr (h.innerOps hd))] at hok
    obtain ⟨hretain, halternative⟩ := (h.checkCounts_iff hd).mp hcounts
    obtain ⟨hsingle, hedges⟩ := (h.checkConstruct_iff hd).mp hcons
    exact ⟨⟨hretain, halternative, hsingle, hedges, hregions.mp hblocks⟩, hok⟩
  · rintro ⟨hshaped, hok⟩
    have hop : r.checkOp o d = .ok () := bind_eq_ok.mpr
      ⟨(), (h.checkCounts_iff hd).mpr ⟨hshaped.retain, hshaped.alternative⟩,
        (h.checkConstruct_iff hd).mpr ⟨hshaped.single, hshaped.edges⟩⟩
    rw [bind_of_ok hop, bind_of_ok (hregions.mpr hshaped.blocks),
      bind_of_ok (orFault_eq_ok.mpr (h.innerOps hd))]
    exact hok

end

end

/-- What passes has an entry. -/
theorem op?_of_checkWithin (hok : r.checkWithin fuel o = .ok ()) : ∃ d, r.op? o = some d := by
  cases fuel with
  | zero => cases hok
  | succ fuel =>
    obtain ⟨d, hd, -⟩ := bind_eq_ok.mp hok
    exact ⟨d, op_eq_ok.mp (orFault_eq_ok.mp hd)⟩

/-- More fuel does no harm. -/
theorem checkWithin_mono (h : r.InRange) {more : Nat} (hle : fuel ≤ more)
    (hok : r.checkWithin fuel o = .ok ()) : r.checkWithin more o = .ok () := by
  induction fuel generalizing o more with
  | zero => cases hok
  | succ fuel ih =>
    -- what is inside has one unit less on both sides
    obtain ⟨more, rfl⟩ : ∃ m, more = m + 1 := ⟨more - 1, by omega⟩
    obtain ⟨d, hd⟩ := op?_of_checkWithin hok
    obtain ⟨hshaped, hinside⟩ := (h.checkWithin_succ_iff hd).mp hok
    refine (h.checkWithin_succ_iff hd).mpr ⟨hshaped, fun g hg b hb p hp => ?_⟩
    exact ih (by omega) (hinside g hg b hb p hp)

end InRange

end Routine

end BufferOwnership
