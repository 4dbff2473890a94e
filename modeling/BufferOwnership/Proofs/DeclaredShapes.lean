import BufferOwnership.Proofs.Certify
import BufferOwnership.Proofs.NestingTree

/-!
# Which shapes pass

The check of shapes goes down from the root and stops at the first defect. Here the shapes that pass
are said without the check and without any order. `Flow` has one rule for each edge of a construct,
and `Below` leads from an operation to what is listed in its blocks. Where the operations below the
root form a finite tree, the check passes if and only if all of them have the shape.
-/

namespace BufferOwnership

namespace Routine

variable {r : Routine} {o p : OpId} {b : BlockId} {d : Op} {source : Option Nat} {e : FlowEdge}
variable {fuel index : Nat} {P : Nat → OpId → Prop}

/-! ## Edges, rule by rule -/

/-- The edges of an operation from where it is entered, or from the end of one of its regions. -/
inductive Flow (r : Routine) (d : Op) : Option Nat → FlowEdge → Prop
  /-- A conditional goes into its first region, with nothing. -/
  | intoFirst : d.kind = .conditional → Flow r d none ⟨.region 0, [], []⟩
  /-- Or it goes into its second region, -/
  | intoSecond : d.kind = .conditional → r.blockAt? d.regions 1 ≠ none →
      Flow r d none ⟨.region 1, [], []⟩
  /-- and past it if there is no block in it. -/
  | pastSecond : d.kind = .conditional → r.blockAt? d.regions 1 = none →
      Flow r d none ⟨.results, [], []⟩
  /-- What a branch ends with becomes the results. -/
  | outOfBranch {k : Nat} {sent : List ValueId} : d.kind = .conditional →
      r.sentAt? d.regions k = some sent → Flow r d (some k) ⟨.results, sent, d.results⟩
  /-- A counted loop begins with its operands after the bounds, which meet the arguments of the
  body after the counter, -/
  | intoBody : d.kind = .forLoop →
      Flow r d none ⟨.region 0, d.operands.drop 3, (r.argsAt d.regions 0).drop 1⟩
  /-- or it does not run. -/
  | pastBody : d.kind = .forLoop → Flow r d none ⟨.results, d.operands.drop 3, d.results⟩
  /-- What the body ends with comes into the next round, -/
  | nextRound {sent : List ValueId} : d.kind = .forLoop → r.sentAt? d.regions 0 = some sent →
      Flow r d (some 0) ⟨.region 0, sent, (r.argsAt d.regions 0).drop 1⟩
  /-- or becomes the results. -/
  | outOfBody {sent : List ValueId} : d.kind = .forLoop → r.sentAt? d.regions 0 = some sent →
      Flow r d (some 0) ⟨.results, sent, d.results⟩
  /-- A loop with a test begins with the test. -/
  | intoTest : d.kind = .whileLoop → Flow r d none ⟨.region 0, d.operands, r.argsAt d.regions 0⟩
  /-- The test hands on all but the outcome, to the body, -/
  | testPassed {sent : List ValueId} : d.kind = .whileLoop → r.sentAt? d.regions 0 = some sent →
      Flow r d (some 0) ⟨.region 1, sent.drop 1, r.argsAt d.regions 1⟩
  /-- or to the results. -/
  | testFailed {sent : List ValueId} : d.kind = .whileLoop → r.sentAt? d.regions 0 = some sent →
      Flow r d (some 0) ⟨.results, sent.drop 1, d.results⟩
  /-- What the body ends with is tested again. -/
  | testAgain {sent : List ValueId} : d.kind = .whileLoop → r.sentAt? d.regions 1 = some sent →
      Flow r d (some 1) ⟨.region 0, sent, r.argsAt d.regions 0⟩

theorem Flow.mem_edgesFrom (h : r.Flow d source e) : e ∈ r.edgesFrom d source := by
  cases h with
  | intoFirst hkind => simp [edgesFrom, entriesOf, hkind]
  | intoSecond hkind hsome => simp [edgesFrom, entriesOf, hkind, hsome]
  | pastSecond hkind hnone => simp [edgesFrom, entriesOf, hkind, hnone]
  | intoBody hkind => simp [edgesFrom, entriesOf, hkind]
  | pastBody hkind => simp [edgesFrom, entriesOf, hkind]
  | intoTest hkind => simp [edgesFrom, entriesOf, hkind]
  | outOfBranch hkind hsent => simp [edgesFrom, exitsOf, hkind, hsent]
  | nextRound hkind hsent => simp [edgesFrom, exitsOf, hkind, hsent]
  | outOfBody hkind hsent => simp [edgesFrom, exitsOf, hkind, hsent]
  | testPassed hkind hsent => simp [edgesFrom, exitsOf, hkind, hsent]
  | testFailed hkind hsent => simp [edgesFrom, exitsOf, hkind, hsent]
  | testAgain hkind hsent => simp [edgesFrom, exitsOf, hkind, hsent]

theorem flow_of_mem_entriesOf (h : e ∈ r.entriesOf d) : r.Flow d none e := by
  unfold entriesOf at h
  split at h
  · rename_i hkind
    rcases List.mem_pair.mp h with rfl | rfl
    · exact .intoFirst hkind
    · cases hsecond : r.blockAt? d.regions 1 with
      | none => exact .pastSecond hkind hsecond
      | some c => exact .intoSecond hkind (by simp [hsecond])
  · rename_i hkind
    rcases List.mem_pair.mp h with rfl | rfl
    · exact .intoBody hkind
    · exact .pastBody hkind
  · rename_i hkind
    obtain rfl := List.mem_singleton.mp h
    exact .intoTest hkind
  · cases h

theorem flow_of_mem_exitsOf {sent : List ValueId} (hsent : r.sentAt? d.regions index = some sent)
    (h : e ∈ r.exitsOf d index sent) : r.Flow d (some index) e := by
  unfold exitsOf at h
  split at h
  · rename_i hkind
    obtain rfl := List.mem_singleton.mp h
    exact .outOfBranch hkind hsent
  · rename_i hkind
    rcases List.mem_pair.mp h with rfl | rfl
    · exact .nextRound hkind hsent
    · exact .outOfBody hkind hsent
  · rename_i hkind
    rcases List.mem_pair.mp h with rfl | rfl
    · exact .testPassed hkind hsent
    · exact .testFailed hkind hsent
  · rename_i hkind
    obtain rfl := List.mem_singleton.mp h
    exact .testAgain hkind hsent
  · cases h

/-- The rules give the edges, and no others. -/
theorem mem_edgesFrom_iff : e ∈ r.edgesFrom d source ↔ r.Flow d source e := by
  refine ⟨fun h => ?_, Flow.mem_edgesFrom⟩
  cases source with
  | none => exact flow_of_mem_entriesOf h
  | some index =>
    rw [edgesFrom] at h
    cases hsent : r.sentAt? d.regions index with
    | none =>
      rw [hsent] at h
      cases h
    | some sent =>
      rw [hsent] at h
      exact flow_of_mem_exitsOf hsent h

/-! ## The shape of one operation -/

/-- What is asked of an operation with a given entry, and of the blocks in its regions. -/
structure DeclaredShape (r : Routine) (d : Op) : Prop where
  /-- Each block has a last operation, which is a terminator, and no terminator before it. -/
  blocks : ∀ g ∈ d.regions, ∀ b ∈ r.blocksOf g, ∃ body last, r.opsOf b = body ++ [last] ∧
    r.isTerminator last = true ∧ ∀ q ∈ body, r.isTerminator q = false
  /-- A retain has as many results as it retains values, and at least as many operands. -/
  retain : ∀ n, d.kind = .retain n → n = d.results.length ∧ n ≤ d.operands.length
  /-- A conditional with results has a second region with a block. -/
  alternative : d.kind = .conditional → d.results ≠ [] →
    ∃ g, d.regions[1]? = some g ∧ r.blocksOf g ≠ []
  /-- A construct has no more than one block in a region, -/
  single : d.kind.construct? ≠ none → ∀ g ∈ d.regions, (r.blocksOf g).length ≤ 1
  /-- and along each of its edges as many values are sent as receive. -/
  edges : d.kind.construct? ≠ none → ∀ source e, r.Flow d source e →
    e.sent.length = e.received.length

theorem blockAt?_ne_none_iff {regions : List RegionId} :
    r.blockAt? regions index ≠ none ↔
      ∃ g, regions[index]? = some g ∧ r.blocksOf g ≠ [] := by
  unfold blockAt?
  cases regions[index]? with
  | none => simp
  | some g => simp [List.head?_eq_none_iff]

/-- The shape that is asked for is the one that is checked. -/
theorem shapedOp_iff : r.ShapedOp d ↔ r.DeclaredShape d := by
  constructor
  · intro h
    exact {
      blocks := h.blocks
      retain := fun n hn => ⟨(h.retain n hn).2.symm, (h.retain n hn).1⟩
      alternative := fun hkind hresults => blockAt?_ne_none_iff.mp (h.alternative hkind hresults)
      single := h.single
      edges := fun _ source e he => h.edges source e he.mem_edgesFrom }
  · intro h
    refine {
      blocks := h.blocks
      retain := fun n hn => ⟨(h.retain n hn).2, (h.retain n hn).1.symm⟩
      alternative := fun hkind hresults => blockAt?_ne_none_iff.mpr (h.alternative hkind hresults)
      single := h.single
      edges := fun source e he => ?_ }
    -- what is no construct has no edges at all
    cases hcons : d.kind.construct? with
    | none =>
      rw [edgesFrom_of_not_construct hcons] at he
      cases he
    | some kind => exact h.edges (by simp [hcons]) source e (mem_edgesFrom_iff.mp he)

/-! ## Going down -/

/-- An operation is listed in a block of another one. -/
def Lists (r : Routine) (p o : OpId) : Prop := o ∈ r.heldOps p

/-- An operation is another one, or is listed somewhere inside it. -/
def Below (r : Routine) : OpId → OpId → Prop := Relation.ReflTransGen r.Lists

theorem lists_iff (hd : r.op? p = some d) :
    r.Lists p o ↔ ∃ g ∈ d.regions, ∃ b ∈ r.blocksOf g, o ∈ r.opsOf b := by
  rw [Lists, heldOps, regionsOf_of hd]
  simp only [List.mem_flatMap]
  constructor
  · rintro ⟨b, ⟨g, hg, hb⟩, ho⟩
    exact ⟨g, hg, b, hb, ho⟩
  · rintro ⟨g, hg, b, hb, ho⟩
    exact ⟨b, ⟨g, hg, hb⟩, ho⟩

/-- What is listed below an operation with an entry has one too. -/
theorem InRange.known (h : r.InRange) (hp : p.index < r.ops.size) (hbelow : r.Below p o) :
    o.index < r.ops.size := by
  rcases hbelow.cases_tail with rfl | ⟨q, -, hlists⟩
  · exact hp
  · obtain ⟨b, -, ho⟩ := List.mem_flatMap.mp hlists
    obtain ⟨e, he⟩ := Option.ne_none_iff_exists'.mp (h.ops b o ho)
    exact lt_of_op? he

/-- An operation passes if it has the shape and what it lists passes. -/
theorem InRange.checkWithin_lists (h : r.InRange) (hd : r.op? o = some d) :
    r.checkWithin (fuel + 1) o = .ok () ↔
      r.DeclaredShape d ∧ ∀ p, r.Lists o p → r.checkWithin fuel p = .ok () := by
  rw [h.checkWithin_succ_iff hd, shapedOp_iff]
  refine and_congr_right fun _ => ⟨fun hall p hp => ?_, fun hall g hg b hb p hp => ?_⟩
  · obtain ⟨g, hg, b, hb, hp⟩ := (lists_iff hd).mp hp
    exact hall g hg b hb p hp
  · exact hall p ((lists_iff hd).mpr ⟨g, hg, b, hb, hp⟩)

/-- Where the check passes, it has passed everything below. -/
theorem InRange.shape_of_checkWithin (h : r.InRange) (hok : r.checkWithin fuel p = .ok ())
    (hbelow : r.Below p o) (hd : r.op? o = some d) : r.DeclaredShape d := by
  induction hbelow using Relation.ReflTransGen.head_induction_on generalizing fuel with
  | refl =>
    cases fuel with
    | zero => cases hok
    | succ fuel => exact ((h.checkWithin_lists hd).mp hok).1
  | head hlists _ ih =>
    cases fuel with
    | zero => cases hok
    | succ fuel =>
      obtain ⟨e, he⟩ := InRange.op?_of_checkWithin hok
      exact ih (((h.checkWithin_lists he).mp hok).2 _ hlists)

/-! ## No way down comes back -/

/-- Below the top of an unfolding one cannot go down for ever. -/
theorem Unfolds.acc {t : OpTree} (h : r.Unfolds t) : Acc (fun o p => r.Lists p o) t.op := by
  induction h with
  | @node o below hbelow _ ih =>
    refine ⟨_, fun p hp => ?_⟩
    have hmem : p ∈ below.map OpTree.op := hbelow ▸ hp
    obtain ⟨t, ht, rfl⟩ := List.mem_map.mp hmem
    exact ih t ht

/-- An operation from which one cannot go down for ever is not below itself. -/
theorem not_below_self (h : Acc (fun o p => r.Lists p o) o) :
    ∀ p, r.Lists o p → ¬ r.Below p o := by
  induction h with
  | intro o _ ih =>
    intro p hp hbelow
    -- the way back leads on to where it came from, one step further down
    rcases hbelow.cases_head with rfl | ⟨q, hq, hrest⟩
    · exact ih p hp p hp .refl
    · exact ih p hp q hq (hrest.tail hp)

/-- Induction over a descent with fuel for the operations that are not passed yet. Those that have
been passed on the way down are all different, so the fuel is not used up before the bottom. -/
theorem descend (hknown : ∀ p, r.Below o p → p.index < r.ops.size)
    (hstep : ∀ fuel o d, r.op? o = some d → (∀ p, r.Lists o p → P fuel p) → P (fuel + 1) o)
    (hacc : Acc (fun o p => r.Lists p o) o) {passed : List OpId} (hnodup : passed.Nodup)
    (hpassed : ∀ p ∈ passed, p.index < r.ops.size ∧ r.Below p o) (hnew : o ∉ passed)
    (hfuel : r.ops.size ≤ passed.length + fuel) : P fuel o := by
  induction hacc generalizing passed fuel with
  | intro o hinner ih =>
    have hnodup' : (o :: passed).Nodup := List.nodup_cons.mpr ⟨hnew, hnodup⟩
    have hpassed' : ∀ p ∈ o :: passed, p.index < r.ops.size ∧ r.Below p o := by
      intro p hp
      rcases List.mem_cons.mp hp with rfl | hp
      · exact ⟨hknown p .refl, .refl⟩
      · exact hpassed p hp
    -- the way down to here is no longer than the table, so there is fuel for one more step
    have hle := length_le_size hnodup' fun p hp => (hpassed' p hp).1
    rw [List.length_cons] at hle
    obtain ⟨fuel, rfl⟩ : ∃ n, fuel = n + 1 := ⟨fuel - 1, by omega⟩
    obtain ⟨d, hd⟩ := exists_op? (hknown o .refl)
    refine hstep fuel o d hd fun p hp => ?_
    refine ih p hp (fun q hq => hknown q (hq.head hp)) hnodup'
      (fun q hq => ⟨(hpassed' q hq).1, (hpassed' q hq).2.tail hp⟩) (fun hmem => ?_)
      (by rw [List.length_cons]; omega)
    exact not_below_self ⟨o, hinner⟩ p hp (hpassed' p hmem).2

/-- What holds step by step on the way down holds with the bound of a descent. -/
theorem descend_within (hknown : ∀ p, r.Below o p → p.index < r.ops.size)
    (hstep : ∀ fuel o d, r.op? o = some d → (∀ p, r.Lists o p → P fuel p) → P (fuel + 1) o)
    (hacc : Acc (fun o p => r.Lists p o) o) : P r.depthBound o :=
  descend hknown hstep hacc List.nodup_nil (by simp) List.not_mem_nil (by simp [depthBound])

/-! ## Nothing but a defect -/

/-- A check passes, or it names a defect: no query failed. -/
def Concludes (x : ShapeCheck Unit) : Prop := x = .ok () ∨ ∃ defect, x = .error (.rejected defect)

namespace Concludes

theorem ok : Concludes (.ok ()) := .inl rfl

theorem defect (e : ShapeError) : Concludes (.error (.rejected e)) := .inr ⟨e, rfl⟩

theorem bind {x : ShapeCheck Unit} {f : Unit → ShapeCheck Unit} (hx : Concludes x)
    (hf : Concludes (f ())) : Concludes (x >>= f) := by
  rcases hx with rfl | ⟨e, rfl⟩
  · exact hf
  · exact .defect e

theorem forM {α : Type} {l : List α} {f : α → ShapeCheck Unit} (h : ∀ a ∈ l, Concludes (f a)) :
    Concludes (l.forM f) := by
  induction l with
  | nil => exact .ok
  | cons a l ih => exact (h a (by simp)).bind (ih fun a' ha => h a' (by simp [ha]))

end Concludes

namespace InRange

theorem checkBlock_concludes (h : r.InRange) {g : RegionId} (hb : b ∈ r.blocksOf g) :
    Concludes (r.checkBlock b) := by
  obtain ⟨B, hB, hops, -⟩ := h.block hb
  have hknown : ∀ q ∈ (r.opsOf b).dropLast, r.op? q ≠ none := fun q hq =>
    h.ops b q (List.dropLast_subset _ hq)
  obtain ⟨answer, hanswer, -⟩ := findTerminator?_ok hknown
  rw [checkBlock, bind_of_ok (orFault_eq_ok.mpr hB),
    bind_of_ok (orFault_eq_ok.mpr (h.terminator? hb)), hops]
  cases r.lastTerminator? b with
  | none => exact .defect _
  | some t =>
    simp only [bind_of_ok (orFault_eq_ok.mpr hanswer)]
    cases answer with
    | none => exact .ok
    | some found => exact .defect _

theorem checkRegions_concludes (h : r.InRange) {gs : List RegionId} (hgs : gs ⊆ r.regionsOf o) :
    Concludes (r.checkRegions gs) := by
  induction gs with
  | nil => exact .ok
  | cons g gs ih =>
    obtain ⟨G, hG, hblocks⟩ := h.region (hgs (List.mem_cons_self (a := g)))
    rw [checkRegions, bind_of_ok (orFault_eq_ok.mpr hG), hblocks]
    exact (Concludes.forM fun b hb => h.checkBlock_concludes hb).bind
      (ih fun k hk => hgs (by simp [hk]))

theorem checkCounts_concludes (h : r.InRange) (hd : r.op? o = some d) :
    Concludes (r.checkCounts o d) := by
  have hempty := regionsOf_of hd ▸ h.isRegionAtEmpty (o := o) 1
  unfold checkCounts
  cases d.kind with
  | retain count =>
    dsimp only
    split
    · exact .defect _
    · exact .ok
  | conditional =>
    simp only [bind_of_ok (orFault_eq_ok.mpr hempty)]
    split
    · exact .defect _
    · exact .ok
  | _ => exact .ok

theorem checkConstruct_concludes (h : r.InRange) (hd : r.op? o = some d) :
    Concludes (r.checkConstruct o d) := by
  have hsub : d.regions ⊆ r.regionsOf o := by rw [regionsOf_of hd]; simp
  unfold checkConstruct
  cases d.kind.construct? with
  | none => exact .ok
  | some kind =>
    simp only [bind_of_ok (orFault_eq_ok.mpr (h.hasMultiBlockRegion hsub))]
    split
    · exact .defect _
    · refine .forM fun source _ => ?_
      rw [checkEdgesFrom, bind_of_ok (orFault_eq_ok.mpr (h.flowEdges hd source))]
      refine .forM fun e _ => ?_
      unfold checkEdge
      split
      · exact .ok
      · exact .defect _

theorem checkWithin_concludes (h : r.InRange) (hd : r.op? o = some d)
    (hinner : ∀ p, r.Lists o p → Concludes (r.checkWithin fuel p)) :
    Concludes (r.checkWithin (fuel + 1) o) := by
  have hsub : d.regions ⊆ r.regionsOf o := by rw [regionsOf_of hd]; simp
  rw [checkWithin, bind_of_ok (orFault_eq_ok.mpr (op_of hd))]
  refine ((h.checkCounts_concludes hd).bind (h.checkConstruct_concludes hd)).bind
    ((h.checkRegions_concludes hsub).bind ?_)
  rw [bind_of_ok (orFault_eq_ok.mpr (h.innerOps hd))]
  refine .forM fun p hp => hinner p ?_
  rw [Lists, heldOps, regionsOf_of hd]
  exact List.mem_reverse.mp hp

end InRange

end Routine

open Routine

/-- **The check of shapes passes exactly the declared shapes.** Where everything that is listed has
an entry and the operations below the root form a finite tree, a routine passes if and only if each
of them has its shape: blocks end in terminators and only there, retains have the right counts,
conditionals with results have an alternative, and constructs have single blocks and send along each
edge what is received there. Otherwise the check names a defect. -/
theorem checkShape_eq_ok_iff {r : Routine} (hrange : r.InRange)
    (hroot : r.root.index < r.ops.size) (htree : ∃ t : OpTree, t.op = r.root ∧ r.Unfolds t) :
    (r.checkShape = .ok () ↔
      ∀ o d, r.Below r.root o → r.op? o = some d → r.DeclaredShape d) ∧
    (r.checkShape = .ok () ∨ ∃ defect, r.checkShape = .error (.rejected defect)) := by
  -- all that the tree is needed for is that the descent ends
  obtain ⟨t, htop, ht⟩ := htree
  have hacc : Acc (fun o p => r.Lists p o) r.root := htop ▸ ht.acc
  have hknown : ∀ p, r.Below r.root p → p.index < r.ops.size := fun p => hrange.known hroot
  refine ⟨⟨fun hok o d hbelow hd => hrange.shape_of_checkWithin hok hbelow hd, fun hall => ?_⟩, ?_⟩
  · refine descend_within hknown (P := fun fuel o =>
      (∀ p d, r.Below o p → r.op? p = some d → r.DeclaredShape d) → r.checkWithin fuel o = .ok ())
      (fun fuel o d hd hinner hshapes => ?_) hacc hall
    exact (hrange.checkWithin_lists hd).mpr ⟨hshapes o d .refl hd, fun p hp =>
      hinner p hp fun q e hq => hshapes q e (hq.head hp)⟩
  · exact descend_within hknown (P := fun fuel o => Concludes (r.checkWithin fuel o))
      (fun fuel o d hd => hrange.checkWithin_concludes hd) hacc

theorem checkShape_eq_ok_iff_renewal :
    renewalRoutine.InRange ∧ renewalRoutine.root.index < renewalRoutine.ops.size ∧
    (∃ t : OpTree, t.op = renewalRoutine.root ∧ renewalRoutine.Unfolds t) ∧
    ∀ o d, renewalRoutine.Below renewalRoutine.root o → renewalRoutine.op? o = some d →
      renewalRoutine.DeclaredShape d := by
  have hw := renewalRoutine_wellFormed
  have hroot : renewalRoutine.root.index < renewalRoutine.ops.size := by decide +kernel
  obtain ⟨t, htop, ht, -⟩ := hw.linked.formsTree hw.root_unlinked hroot
  exact ⟨hw.linked.inRange, hroot, ⟨t, htop, ht⟩,
    (checkShape_eq_ok_iff hw.linked.inRange hroot ⟨t, htop, ht⟩).1.mp (by decide +kernel)⟩

end BufferOwnership
