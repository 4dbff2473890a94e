import BufferOwnership.Proofs.Coherence
import BufferOwnership.Proofs.Indicators
import BufferOwnership.Proofs.Tallied
import Mathlib.Algebra.GroupWithZero.Nat

/-!
# Visits, one by one

The operations that threading treats can be listed in the order in which their treatment begins, and
the list has every visited operation once. So a number of the tally that an operation adds to when
it is treated, and nothing else does, comes to the sum over this list (`threadFromRoot_accrues`).
-/

namespace BufferOwnership

open Routine

variable {f : Routine} {s s' final : Session} {b : BlockId} {o p : OpId} {d : Op} {n k fuel : Nat}
variable {settings : Settings} {out : Outcome} {front rest : List OpId}

/-! ## The list of visits -/

namespace Routine

/-- The blocks that treating an operation goes through, in order. -/
def enteredBlocks (f : Routine) (o : OpId) : List BlockId :=
  ((f.regionsOf o).flatMap f.blocksOf).filter fun b => f.Enters o b

/-- The operations that treating an operation leads to, in order. -/
def successors (f : Routine) (o : OpId) : List OpId :=
  (f.enteredBlocks o).flatMap fun b => (f.opsOf b).dropLast

/-- The operations that are treated in the course of treating one, down to some depth. -/
def visitsWithin (f : Routine) : Nat → OpId → List OpId
  | 0, _ => []
  | fuel + 1, o => o :: (f.successors o).flatMap (f.visitsWithin fuel)

def visits (f : Routine) : List OpId := f.visitsWithin f.depthBound f.root

theorem mem_enteredBlocks : b ∈ f.enteredBlocks o ↔ f.Enters o b := by
  rw [enteredBlocks, List.mem_filter, decide_eq_true_iff]
  refine ⟨And.right, fun h => ⟨?_, h⟩⟩
  obtain ⟨d, hd, -⟩ := id h
  rw [regionsOf_of hd]
  exact h.mem_blocks hd

theorem nodup_enteredBlocks (hl : f.Linked) : (f.enteredBlocks o).Nodup :=
  (nodup_innerBlocks hl.toNested o).filter _

theorem enteredBlocks_eq_nil (h : ∀ b, ¬ f.Enters o b) : f.enteredBlocks o = [] :=
  List.eq_nil_iff_forall_not_mem.mpr fun b hb => h b (mem_enteredBlocks.mp hb)

theorem mem_successors : p ∈ f.successors o ↔ f.Leads o p := by
  simp only [successors, List.mem_flatMap, mem_enteredBlocks, leads_iff]
  constructor
  · rintro ⟨b, henters, hp⟩
    obtain ⟨d, hd, -⟩ := id henters
    exact ⟨b, by simpa [regionsOf_of hd] using henters.mem_blocks hd, henters, hp⟩
  · rintro ⟨b, -, henters, hp⟩
    exact ⟨b, henters, hp⟩

theorem nodup_successors (hl : f.Linked) : (f.successors o).Nodup := by
  refine List.nodup_flatMap.mpr ⟨fun b _ => (hl.ops_nodup b).sublist (List.dropLast_sublist _), ?_⟩
  refine (nodup_enteredBlocks hl).imp fun {b c} hne p hp hp' => hne ?_
  exact hl.block_unique (List.mem_of_mem_dropLast hp) (List.mem_of_mem_dropLast hp')

theorem visitedFrom_of_mem (h : p ∈ f.visitsWithin n o) : f.VisitedFrom o p := by
  induction n generalizing o with
  | zero => cases h
  | succ n ih =>
    rcases List.mem_cons.mp h with rfl | h
    · exact .refl
    · obtain ⟨q, hq, hp⟩ := List.mem_flatMap.mp h
      exact (ih hp).head (mem_successors.mp hq)

/-- What is visited from an operation is listed, with the depth that is left for it. -/
theorem Depth.mem_visitsWithin (hdepth : f.Depth k o) (hc : f.Coherent) (hl : f.Linked)
    (hn : f.ops.size ≤ k + n) (h : f.VisitedFrom o p) : p ∈ f.visitsWithin n o := by
  induction h using Relation.ReflTransGen.head_induction_on generalizing k n with
  | refl =>
    obtain ⟨n, rfl⟩ : ∃ j, n = j + 1 := Nat.exists_eq_succ_of_ne_zero fun h => by
      have := hdepth.lt hc
      omega
    exact List.mem_cons_self
  | @head o m hleads _ ih =>
    obtain ⟨n, rfl⟩ : ∃ j, n = j + 1 := Nat.exists_eq_succ_of_ne_zero fun h => by
      have := hdepth.lt hc
      omega
    refine List.mem_cons_of_mem _ (List.mem_flatMap.mpr ⟨m, mem_successors.mpr hleads, ?_⟩)
    exact ih (hdepth.inner (hleads.up? hl)) (by omega)

/-- The list has all that is visited. -/
theorem mem_visits (hw : f.WellFormed) : o ∈ f.visits ↔ f.Visited o := by
  refine ⟨visitedFrom_of_mem, fun h => ?_⟩
  exact Depth.mem_visitsWithin .root hw.coherent hw.linked (by simp [depthBound]) h

/-- Nothing is listed twice: operations around one another aside, insides have nothing in common. -/
theorem nodup_visitsWithin (hw : f.WellFormed) (ho : f.Reached o) :
    (f.visitsWithin n o).Nodup := by
  induction n generalizing o with
  | zero => exact List.nodup_nil
  | succ n ih =>
    have hup : ∀ p ∈ f.successors o, f.up? p = some o := fun p hp =>
      (mem_successors.mp hp).up? hw.linked
    refine List.nodup_cons.mpr ⟨fun hmem => ?_, List.nodup_flatMap.mpr ⟨fun p hp => ?_, ?_⟩⟩
    · obtain ⟨p, hp, hmem⟩ := List.mem_flatMap.mp hmem
      exact (ho.step (hup p hp)).not_inside_up hw.root_unlinked (hup p hp)
        ((visitedFrom_of_mem hmem).inside hw.linked)
    · exact ih (ho.step (hup p hp))
    · refine (nodup_successors hw.linked).imp_of_mem fun {p q} hp hq hne x hx hx' => ?_
      exact Inside.disjoint hw.root_unlinked (ho.step (hup p hp)) (ho.step (hup q hq))
        ((hup p hp).trans (hup q hq).symm) hne ((visitedFrom_of_mem hx).inside hw.linked)
        ((visitedFrom_of_mem hx').inside hw.linked)

theorem nodup_visits (hw : f.WellFormed) : f.visits.Nodup := nodup_visitsWithin hw .refl

/-! ## Sums over visits -/

/-- What the operations come to that are treated in the course of treating one. -/
def total (f : Routine) (w : OpId → Nat) (fuel : Nat) (o : OpId) : Nat :=
  ((f.visitsWithin fuel o).map w).sum

/-- What the operations come to that are treated in the course of going through a block. -/
def blockTotal (f : Routine) (w : OpId → Nat) (fuel : Nat) (b : BlockId) : Nat :=
  ((f.opsOf b).dropLast.map (f.total w fuel)).sum

theorem total_succ (w : OpId → Nat) : f.total w (fuel + 1) o =
    w o + ((f.enteredBlocks o).map (f.blockTotal w fuel)).sum := by
  have hsum : ∀ l : List OpId, ((l.flatMap (f.visitsWithin fuel)).map w).sum =
      (l.map (f.total w fuel)).sum := by
    intro l
    induction l with
    | nil => rfl
    | cons p l ih => simp [ih, total]
  simp only [total, visitsWithin, List.map_cons, List.sum_cons, hsum, successors]
  congr 1
  induction f.enteredBlocks o with
  | nil => rfl
  | cons b bs ih => simp [ih, blockTotal]

end Routine

/-! ## What a run adds up -/

section Sums

variable {μ : Tally → Nat} {treat : OpPass}

theorem throughOps_sum {g : OpId → Nat} {l : List OpId} {held held' : Holdings}
    (hstep : ∀ c, OpCalls treat l held s c → μ c.after.tally = μ c.before.tally + g c.op)
    (h : Pass.throughOps treat l held s = .ok (held', s')) :
    μ s'.tally = μ s.tally + (l.map g).sum := by
  induction l generalizing s held with
  | nil =>
    cases h
    rfl
  | cons o rest ih =>
    obtain ⟨out, mid, hout, h⟩ := throughOps_cons h
    rw [ih (fun c hc => hstep c (.later hout hc)) h, hstep _ (.first hout), List.map_cons,
      List.sum_cons, Nat.add_assoc]

theorem BlocksPassed.sum {g : BlockId → Nat} {ownsInputs : Bool} {bs : List BlockId}
    {outs : List Outcome} (h : BlocksPassed settings treat ownsInputs bs s outs s')
    (hstep : ∀ k, BlockCalls settings treat ownsInputs bs s k →
      μ k.after.tally = μ k.before.tally + g k.block) :
    μ s'.tally = μ s.tally + (bs.map g).sum := by
  induction h with
  | nil => rfl
  | cons hgoes _ ih =>
    rw [ih fun k hk => hstep k (.later hgoes hk), hstep _ (.first hgoes), List.map_cons,
      List.sum_cons, Nat.add_assoc]

end Sums

/-- A number of the tally, and what each operation adds to it: an operation with effects by what it
allocates, a construct where its operands are provided for, and any other not at all. Retains do
not matter. -/
structure Accrual (f : Routine) (settings : Settings) (final : Session) (μ : Tally → Nat)
    (w : OpId → Nat) : Prop where
  retains : ∀ t n, μ { t with retains := n } = μ t
  idle : ∀ {o d}, f.op? o = some d → d.kind.construct? = none →
    (∀ allocated freed, d.classify ≠ .effects allocated freed) → w o = 0
  owns : ∀ {o d s s'}, f.op? o = some d → d.classify = .effects d.allocated d.freed →
    Counted (List.replicate d.allocated.length .own) 0 s s' → μ s'.tally = μ s.tally + w o
  finishes : ∀ {c : Call} {fuel d site regions mid b front rest},
    c.Placed f settings final fuel b front rest → f.op? c.op = some d →
    f.isConstruct c.op = true → (∀ i ∈ c.held.owned, IndicatorOf f c.before.routine b i) →
    Run f .all c.before mid →
    (pass : ConstructPass f settings c.op d c.held.owned site regions mid b front rest c.out
      c.after) →
    μ pass.transferred.tally = μ pass.inside.tally + w c.op

section Accrues

variable {μ : Tally → Nat} {w : OpId → Nat}

theorem Accrual.of_retains (ha : Accrual f settings final μ w)
    (h : ∃ n, s'.tally = { s.tally with retains := n }) : μ s'.tally = μ s.tally := by
  obtain ⟨n, h⟩ := h
  rw [h, ha.retains]

variable (ha : Accrual f settings final μ w) (hw : f.WellFormed)
include ha hw

/-- The treatment of an operation adds what is due to it and to all that is visited inside. -/
theorem Call.Placed.accrues {c : Call} (h : c.Placed f settings final (fuel + 1) b front rest)
    (howned : ∀ i ∈ c.held.owned, IndicatorOf f c.before.routine b i)
    (hinner : ∀ k, Transit.Placed f settings final fuel k c.op →
      μ k.after.tally = μ k.before.tally + f.blockTotal w fuel k.block) :
    μ c.after.tally = μ c.before.tally + f.total w (fuel + 1) c.op := by
  obtain ⟨_, d, hfuel, hd, hcase⟩ := h.cases hw
  obtain rfl : fuel = _ := Nat.succ.inj hfuel
  -- the blocks that are gone through are all that are entered, and each adds its own
  have hblocks : ∀ {outs mid}, AtBlocks f c.before c.op (d.regions.flatMap f.blocksOf) →
      BlocksPassed settings (Pass.throughOpWithin settings fuel) (f.isConstruct c.op)
        (d.regions.flatMap f.blocksOf) c.before outs mid →
      μ mid.tally = μ c.before.tally + ((f.enteredBlocks c.op).map (f.blockTotal w fuel)).sum := by
    intro outs mid hat hpassed
    have hall : f.enteredBlocks c.op = d.regions.flatMap f.blocksOf := by
      rw [enteredBlocks, regionsOf_of hd, List.filter_eq_self]
      exact fun b hb => decide_eq_true (hat.enters b hb)
    rw [hall]
    exact hpassed.sum fun k hk => hinner k (h.into hw hd (hat.enters k.block hk.mem) hk)
  rw [total_succ]
  cases hcase with
  | effects next post hclass _ hown =>
    have hnone : f.enteredBlocks c.op = [] :=
      enteredBlocks_eq_nil fun b hb => (hb.classify hd).2 _ _ hclass
    rw [hnone, ha.owns hd hclass (Pass.ownAll_counted hown)]
    rfl
  | plain _ hclass _ _ _ _ htally =>
    have hspec := d.classify_spec
    rw [hclass] at hspec
    have hnone : f.enteredBlocks c.op = [] :=
      enteredBlocks_eq_nil fun b hb => (hb.classify hd).1 hclass
    rw [hnone, ha.idle hd hspec (by simp [hclass]), htally]
    rfl
  | unknown outs hclass _ hat hpassed =>
    have hspec := d.classify_spec
    rw [hclass] at hspec
    rw [ha.idle hd hspec (by simp [hclass]), Nat.zero_add]
    exact hblocks hat (isConstruct_of_unknown hd hclass ▸ hpassed)
  | construct kind site outs regions mid hkind hat hpassed _ _ _ _ hpass =>
    obtain ⟨pass⟩ := hpass
    have hcons : f.isConstruct c.op = true := by simp [isConstruct_of hd, hkind]
    have hrun := hpassed.run (throughOpWithin_spec hw settings fuel) hw hat fun _ => hcons
    have ht := h.atOp.threaded.run hw hrun
    -- backwards from the end: aliases, operands, drops and sends, regions
    rw [pass.tally, ha.finishes h hd hcons howned hrun.anywhere pass,
      ha.of_retains (pass.tally_inside hw ht), hblocks hat (hcons ▸ hpassed), Nat.add_assoc,
      Nat.add_comm (w c.op)]

/-- Going through a block adds what is due to the operations visited there. -/
theorem Transit.Placed.accrues {k : Transit} (h : k.Placed f settings final fuel o) :
    μ k.after.tally = μ k.before.tally + f.blockTotal w fuel k.block := by
  induction fuel using Nat.strongRecOn generalizing k o with
  | ind fuel ih =>
    obtain ⟨pass⟩ := h.pass hw
    have hbody : (f.opsOf k.block).dropLast = pass.body := by simp [pass.original]
    obtain ⟨hmarks, htally⟩ := Pass.Uncounted.openBlock _ _ _ _ _ pass.opens
    obtain ⟨n, hcloses⟩ := closeBlock_counted (pass.threaded.booked hw)
      (fun i hi => (pass.tokens i hi).known) pass.closes
    have hwalks : μ pass.walked.tally =
        μ pass.opened.tally + (pass.body.map (f.total w fuel)).sum := by
      refine throughOps_sum (fun c hc => ?_) pass.walks
      have hc := pass.calls hc
      obtain ⟨front, rest, hcall⟩ := h.call hw hc
      obtain ⟨n, d, rfl, -⟩ := hcall.cases hw
      exact hcall.accrues ha hw (fun i hi => (h.within hw hc i hi).1) fun k' hk' =>
        ih n (Nat.lt_succ_self n) hk'
    rw [ha.of_retains hcloses.retains_only, hwalks, htally, blockTotal, hbody]

/-- A run adds up what is due to all that is visited. -/
theorem threadFromRoot_accrues (hroot : f.threadFromRoot settings = .ok (out, final)) :
    μ final.tally = μ {} + (f.visits.map w).sum := by
  obtain ⟨b, outcome, henters, hgoes, -⟩ := threadFromRoot_block hw hroot
  have htransit : Transits f settings f.ops.size ⟨b, false, .start f, outcome, final⟩ :=
    .body rfl rfl henters hgoes
  obtain ⟨o, hplaced⟩ := htransit.placed hw hroot
  have hentered : f.enteredBlocks f.root = [b] := by
    apply List.perm_singleton.mp
    apply (List.perm_ext_iff_of_nodup (nodup_enteredBlocks hw.linked) (List.nodup_singleton b)).mpr
    intro c
    rw [mem_enteredBlocks, List.mem_singleton]
    exact ⟨fun hc => hw.root_block_unique hc henters, fun hc => hc ▸ henters⟩
  have hvisits : (f.visits.map w).sum = f.total w (f.ops.size + 1) f.root := rfl
  obtain ⟨name, hkind⟩ := hw.root_routine
  obtain ⟨d, hd, hname⟩ := exists_op?_of_kind? hkind
  -- nothing is due to the root itself
  have hidle : w f.root = 0 := by
    apply ha.idle hd
    · simp [hname, OpKind.construct?]
    · simp [Op.classify, hname, OpKind.construct?, Op.allocated, Op.freed, OpKind.effects,
        OpKind.effectSpecs]
  rw [hvisits, total_succ, hentered, hidle, hplaced.accrues ha hw]
  simp [Session.start]

end Accrues

end BufferOwnership
