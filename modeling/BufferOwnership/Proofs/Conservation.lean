import BufferOwnership.Proofs.ConstructLedger
import BufferOwnership.Proofs.Erasure

/-!
# Conservation of ownership

In a routine that frees nothing, each indicator that threading introduces should be consumed once.
Whether it is, is decided at the constructs. For each indicator that a construct takes over, its
block strikes off the least owned one of the class, and if that is another one, then that one is
lost. `Pass.guarded` insists that the right one is struck off. With it at every operation a routine
is threaded in the same way, unless something is lost: then it is given up.
-/

namespace BufferOwnership

open Routine

/-- No operation that can be reached frees anything. -/
def Routine.FreesNothing (f : Routine) : Prop :=
  ∀ o d, f.Reached o → f.op? o = some d → d.freed = []

/-! ## The guarded pass -/

/-- What a block strikes off for an operation is what the operation took over. -/
def Outcome.settled (aliases : AliasClasses) (owned : ValueSet) (out : Outcome) : Bool :=
  (out.released.toList.foldl (Holdings.release aliases) ⟨owned, ∅⟩).owned = owned.diff out.released

namespace Pass

/-- Treats an operation, and stops if its block would strike off something else than what the
operation took over, and so go on to release what it does not own. That is a failure of the guard
alone: a pass without one goes on. -/
def guarded (treat : OpPass) : OpPass := fun o owned => do
  let out ← treat o owned
  let classes ← aliases
  if out.settled classes owned then
    return out
  else
    fun _ => .error (.fault (.unguarded o))

/-- Treats an operation whose nesting is less deep than the fuel, guarded at every operation. -/
def throughOpGuarded (settings : Settings) : Nat → OpPass
  | 0, o, _ => fun _ => .error (.fault (.endless o))
  | fuel + 1, o, owned => guarded (throughOp settings (throughOpGuarded settings fuel)) o owned

end Pass

/-- Makes the ownership of buffers explicit in a routine, guarded at every operation. -/
def Routine.threadGuarded (r : Routine) (settings : Settings) :
    Except (Failure Rejection) (Report × Routine) := do
  let (outcome, session) ← Pass.throughOpGuarded settings r.depthBound r.root ∅ (.start r)
  session.routine.checkResult settings
  return ({ tally := session.tally, returned := outcome.acquired }, session.routine)

variable {f r r' : Routine} {s s' : Session} {v i : ValueId} {o t : OpId} {b : BlockId}
variable {front rest : List OpId} {d : Op} {settings : Settings}
variable {owned : ValueSet} {out : Outcome} {treat careful : OpPass}

/-- A run that is to give a certain answer does so if `sound` holds, and fails otherwise. -/
def Follows {α : Type} (run : Except (Failure Rejection) α) (answer : α) (sound : Prop) : Prop :=
  (sound → run = .ok answer) ∧ (¬ sound → ∀ a, run ≠ .ok a)

namespace Follows

variable {α β : Type} {a : α} {c : β} {sound sound' all : Prop} {run : Except (Failure Rejection) α}
variable {next : α → Pass β} {mid : Session}

theorem of_ok (h : run = .ok a) : Follows run a True :=
  ⟨fun _ => h, fun hnot => absurd trivial hnot⟩

theorem congr (h : Follows run a sound) (hall : all ↔ sound) : Follows run a all :=
  ⟨fun hs => h.1 (hall.mp hs), fun hs => h.2 fun hsound => hs (hall.mpr hsound)⟩

/-- One step after another. -/
theorem bind {run : Pass α} (h : Follows (run s) (a, mid) sound)
    (h' : Follows (next a mid) (c, s') sound') (hall : all ↔ sound ∧ sound') :
    Follows ((run >>= next) s) (c, s') all := by
  by_cases hs : sound
  · rw [Pass.bind_of_ok (h.1 hs)]
    exact h'.congr (by simp [hall, hs])
  · refine ⟨fun hsound => absurd (hall.mp hsound).1 hs, fun _ answer heq => ?_⟩
    obtain ⟨a', mid', hrun, -⟩ := Pass.bind_eq_ok.mp heq
    exact h.2 hs _ hrun

/-- A step that does not depend on the guard comes after. -/
theorem andThen {run : Pass α} (h : Follows (run s) (a, mid) sound)
    (h' : next a mid = .ok (c, s')) : Follows ((run >>= next) s) (c, s') sound :=
  h.bind (of_ok h') (by simp)

/-- A step that does not depend on the guard comes before. -/
theorem after {run : Pass α} (h : run s = .ok (a, mid)) (h' : Follows (next a mid) (c, s') sound) :
    Follows ((run >>= next) s) (c, s') sound :=
  (of_ok h).bind h' (by simp)

end Follows

/-! ## Striking off -/

namespace ValueSet

variable {a c : ValueSet}

theorem ext_mem (h : ∀ v, v ∈ a ↔ v ∈ c) : a = c := by
  have hperm : a.toList.Perm c.toList :=
    (List.perm_ext_iff_of_nodup a.nodup_toList c.nodup_toList).mpr h
  refine ext_toList (hperm.eq_of_pairwise (fun v w _ _ hvw hwv => ?_) a.ascending c.ascending)
  exact absurd (Nat.lt_trans hvw hwv) (Nat.lt_irrefl v.index)

/-- Of two sets of the same size that differ, each has a member that the other has not. -/
theorem exists_mem_of_ne (hlen : c.toList.length ≤ a.toList.length) (hne : c ≠ a) :
    ∃ v ∈ a, v ∉ c := by
  by_contra hall
  push Not at hall
  have hperm : a.toList.Perm c.toList :=
    (List.subperm_of_subset a.nodup_toList hall).perm_of_length_le hlen
  exact hne (ext_mem fun v => (hperm.mem_iff (a := v)).symm)

end ValueSet

namespace Holdings

variable {h : Holdings}

/-- Something owned is released by striking off an owned indicator that is not greater. -/
theorem release_of_mem (aliases : AliasClasses) (hv : v ∈ h.owned) :
    ∃ w ∈ h.owned, w.index ≤ v.index ∧
      h.release aliases v = { h with owned := h.owned.erase w } := by
  have hself : aliases.same v v = true := by simp [AliasClasses.same]
  cases hfind : h.owned.toList.find? (aliases.same v) with
  | none => exact absurd hself (List.find?_eq_none.mp hfind v hv)
  | some w =>
    refine ⟨w, List.mem_of_find?_eq_some hfind, ?_, by simp [release, hfind]⟩
    obtain ⟨-, before, after, hsplit, hnone⟩ := List.find?_eq_some_iff_append.mp hfind
    have hv : v ∈ before ++ w :: after := hsplit ▸ hv
    have hascending := h.owned.ascending
    rw [hsplit] at hascending
    rcases List.mem_append.mp hv with hv | hv
    · simpa [hself] using hnone v hv
    · rcases List.mem_cons.mp hv with rfl | hv
      · exact Nat.le_refl _
      · have hlt := (List.pairwise_cons.mp (List.pairwise_append.mp hascending).2.1).1 v hv
        exact Nat.le_of_lt hlt

theorem length_erase {w : ValueId} (hw : w ∈ owned) :
    (owned.erase w).toList.length + 1 = owned.toList.length := by
  rw [(ValueSet.perm_cons_erase hw).length_eq, List.length_cons]

/-- Releasing owned indicators in ascending order strikes off all, and passes nothing on. -/
theorem foldl_release (aliases : AliasClasses) {l : List ValueId} (hl : l.Pairwise (· < ·))
    (hsub : ∀ v ∈ l, v ∈ h.owned) :
    (l.foldl (release aliases) h).released = h.released ∧
      (l.foldl (release aliases) h).owned.toList.length + l.length = h.owned.toList.length ∧
      ∀ i ∈ (l.foldl (release aliases) h).owned, i ∈ h.owned := by
  induction l generalizing h with
  | nil => exact ⟨rfl, rfl, fun _ => id⟩
  | cons v l ih =>
    obtain ⟨hv, hl⟩ := List.pairwise_cons.mp hl
    obtain ⟨w, hw, hle, hrelease⟩ := release_of_mem aliases (hsub v (by simp))
    -- what is struck off is not greater, so the others are still owned
    have hrest : ∀ u ∈ l, u ∈ (h.release aliases v).owned := by
      intro u hu
      rw [hrelease]
      refine ValueSet.mem_erase.mpr ⟨hsub u (by simp [hu]), ?_⟩
      rintro rfl
      exact absurd (hv u hu) (Nat.not_lt.mpr hle)
    obtain ⟨hreleased, hlen, howned⟩ := ih hl hrest
    rw [List.foldl_cons]
    rw [hrelease] at hreleased hlen howned ⊢
    refine ⟨hreleased, ?_, fun i hi => (ValueSet.mem_erase.mp (howned i hi)).1⟩
    have := length_erase hw
    simp only [List.length_cons] at hlen ⊢
    omega

end Holdings

/-! ## Operations -/

/-- The account of one operation: what it takes over, it takes from what its block owns, and what it
leaves is new. Without transfers it takes over nothing. -/
structure OpAccount (f : Routine) (settings : Settings) (owned : ValueSet) (r : Routine)
    (out : Outcome) (r' : Routine) (sound : Prop) : Prop where
  ledger : Ledger f r out.released.toList r' out.acquired sound
  released : ∀ i ∈ out.released, i ∈ owned
  acquired : Acquired f r r' out.acquired
  untransferred : settings.transfer = false → sound ∧ out.released = ∅

/-- A treatment is accounted for, and succeeds when guarded iff the account is sound and settled. -/
def OpLedger (f : Routine) (settings : Settings) (treat careful : OpPass) : Prop :=
  ∀ {o : OpId} {owned : ValueSet} {s s' : Session} {out : Outcome} {b : BlockId}
    {front rest : List OpId}, AtOp f s o owned b front rest → Booked f s.routine →
    treat o owned s = .ok (out, s') →
    ∃ sound, OpAccount f settings owned s.routine out s'.routine sound ∧
      Follows (careful o owned s) (out, s') (sound ∧ out.settled s'.aliases owned = true)

/-- What a block holds at some point, accounted for since the routine was `r₀`: all that it owns was
introduced since then, and there is nothing that it released without owning it. -/
structure Books (f r₀ r : Routine) (held : Holdings) (sound : Prop) : Prop where
  ledger : Ledger f r₀ [] r held.owned.toList sound
  owned : ∀ i ∈ held.owned, Introduced f r i ∧ ¬ Introduced f r₀ i
  released : held.released = ∅

section Absorb

variable {r₀ : Routine} {held : Holdings} {sound sound' : Prop}
variable {aliases : AliasClasses}

namespace OpAccount

variable (h : OpAccount f settings owned r out r' sound')
include h

/-- What is acquired is neither owned nor was it introduced. -/
theorem not_mem_acquired (hv : v.index < r.values.size) : v ∉ out.acquired :=
  fun hmem => Nat.not_lt.mpr (h.acquired.fresh v hmem) hv

/-- What is not taken over passes by the operation. -/
theorem framed (howned : ∀ i ∈ owned, i.index < r.values.size) :
    Ledger f r owned.toList r' (out.acquired ++ (owned.diff out.released).toList) sound' := by
  refine (h.ledger.frame (owned.diff out.released).toList fun i hi => ?_).congr
    (fun v _ => ?_) fun v _ => rfl
  · exact howned i (ValueSet.mem_diff.mp hi).1
  · exact (ValueSet.count_diff h.released v).symm

end OpAccount

theorem Outcome.settled_of_empty (h : out.released = ∅) :
    out.settled aliases owned = true := by
  have hdiff : owned.diff ∅ = owned := ValueSet.ext_mem fun v => by simp
  simp [settled, h, hdiff]

/-- A member that is not struck off although it was taken over makes another one lost. -/
theorem exists_struck (hsub : ∀ i ∈ out.released, i ∈ owned)
    (hnot : out.settled aliases owned = false) :
    ∃ j ∈ owned.diff out.released,
      j ∉ (out.released.toList.foldl (Holdings.release aliases) ⟨owned, ∅⟩).owned := by
  obtain ⟨-, hlen, -⟩ := Holdings.foldl_release aliases out.released.ascending
    (h := ⟨owned, ∅⟩) hsub
  have hperm : (out.released.toList ++ (owned.diff out.released).toList).Perm owned.toList :=
    List.perm_iff_count.mpr (ValueSet.count_diff hsub)
  have hlen' := hperm.length_eq
  rw [List.length_append] at hlen'
  refine ValueSet.exists_mem_of_ne ?_ (by simpa [Outcome.settled] using hnot)
  simp only at hlen
  omega

/-- The holdings after an operation are accounted for. They are sound if they were so before, the
operation is sound, and what was struck off is what the operation took over. -/
theorem Books.absorb (h : Books f r₀ r held sound)
    (hop : OpAccount f settings held.owned r out r' sound') :
    Books f r₀ r' (held.absorb aliases out)
      (sound ∧ sound' ∧ out.settled aliases held.owned = true) := by
  have hknown : ∀ i ∈ held.owned, i.index < r.values.size := fun i hi =>
    (h.owned i hi).1.known h.ledger.booked'.linked
  have hall : Ledger f r₀ [] r' (out.acquired ++ (held.owned.diff out.released).toList)
      (sound ∧ sound') := h.ledger.trans (hop.framed hknown) Iff.rfl
  -- nothing that was introduced before is involved
  have hbase : ∀ {w}, Introduced f r₀ w → w.index < r.values.size ∧ w ∉ held.owned := fun hw =>
    ⟨(h.ledger.kept.introduced h.ledger.booked.linked hw).known h.ledger.booked'.linked,
      fun hmem => (h.owned _ hmem).2 hw⟩
  obtain ⟨ownedBefore, releasedBefore⟩ := held
  obtain rfl : releasedBefore = ∅ := h.released
  simp only at hknown hall hbase hop h
  obtain ⟨hreleased, -, hsub⟩ := Holdings.foldl_release aliases
    out.released.ascending (h := ⟨ownedBefore, ∅⟩) hop.released
  have howned : ∀ j ∈ (Holdings.absorb aliases ⟨ownedBefore, ∅⟩ out).owned,
      j ∈ ownedBefore ∨ j ∈ out.acquired := fun j hj => Holdings.mem_owned_absorb hj
  refine ⟨?_, fun j hj => ?_, hreleased⟩
  · cases hsettled : out.settled aliases ownedBefore with
    | true =>
      have hstruck : (out.released.toList.foldl (Holdings.release aliases)
          ⟨ownedBefore, ∅⟩).owned = ownedBefore.diff out.released := by
        simpa [Outcome.settled] using hsettled
      have hcount : ∀ w, (Holdings.absorb aliases ⟨ownedBefore, ∅⟩ out).owned.toList.count w =
          (out.acquired ++ (ownedBefore.diff out.released).toList).count w := by
        intro w
        rw [Holdings.absorb, hstruck]
        refine ValueSet.count_insertMany hop.acquired.nodup (fun u hu hmem => ?_) w
        exact hop.not_mem_acquired (hknown u (ValueSet.mem_diff.mp hmem).1) hu
      simpa [and_assoc] using hall.congr (fun _ _ => rfl) fun w _ => hcount w
    | false =>
      have habsent : ∀ {w}, w ∉ ownedBefore → w ∉ out.acquired →
          (Holdings.absorb aliases ⟨ownedBefore, ∅⟩ out).owned.toList.count w = 0 :=
        fun hw hw' => List.count_eq_zero.mpr fun hmem => (howned _ hmem).elim hw hw'
      refine hall.broken (by simp) (fun w hw => ?_) ?_
      · obtain ⟨hlt, hw⟩ := hbase hw
        have hdiff : w ∉ ownedBefore.diff out.released := fun hmem =>
          hw (ValueSet.mem_diff.mp hmem).1
        rw [habsent hw (hop.not_mem_acquired hlt), List.count_append,
          List.count_eq_zero.mpr (hop.not_mem_acquired hlt), List.count_eq_zero.mpr hdiff]
      · by_cases hs : sound ∧ sound'
        · -- another one than was taken over is struck off
          obtain ⟨j, hj, hstruck⟩ := exists_struck hop.released hsettled
          obtain ⟨hr, hr₀⟩ := h.owned j (ValueSet.mem_diff.mp hj).1
          have hr' := hop.ledger.kept.introduced hop.ledger.booked.linked hr
          have hnew := hop.not_mem_acquired (hknown j (ValueSet.mem_diff.mp hj).1)
          have hone := hall.spent hs j hr' hr₀
          rw [List.count_append, List.count_eq_zero.mpr hnew, Nat.zero_add,
            ValueSet.count_toList, if_pos hj] at hone
          have hgone : j ∉ (Holdings.absorb aliases ⟨ownedBefore, ∅⟩ out).owned := fun hmem =>
            (ValueSet.mem_insertMany.mp hmem).elim hstruck hnew
          refine ⟨j, hr', hr₀, ?_⟩
          rw [ValueSet.count_toList, if_neg hgone]
          omega
        · -- what was lost already is not owned
          obtain ⟨w, hw, hr₀, hzero⟩ := hall.lost hs
          rw [List.count_append] at hzero
          have hnew : w ∉ out.acquired := List.count_eq_zero.mp (by omega)
          have hdiff : w ∉ ownedBefore.diff out.released := List.count_eq_zero.mp (by omega)
          have hout : w ∉ ownedBefore := by
            intro hmem
            have htaken : w ∈ out.released := by
              by_contra hnot
              exact hdiff (ValueSet.mem_diff.mpr ⟨hmem, hnot⟩)
            have hcarried := hop.ledger.carried w (h.owned w hmem).1
            rw [ValueSet.count_toList, if_pos htaken] at hcarried
            omega
          exact ⟨w, hw, hr₀, by rw [habsent hout hnew]; omega⟩
  · rcases howned j hj with hj | hj
    · obtain ⟨hr, hr₀⟩ := h.owned j hj
      exact ⟨hop.ledger.kept.introduced hop.ledger.booked.linked hr, hr₀⟩
    · exact ⟨hop.acquired.introduced j hj, fun hr₀ => hop.not_mem_acquired (hbase hr₀).1 hj⟩

end Absorb

/-! ## Blocks -/

section Blocks

variable {sound : Prop}

theorem throughOps_ledger {l : List OpId} (htreat : OpSpec f treat)
    (hop : OpLedger f settings treat careful) (hw : f.WellFormed)
    (hat : AtOps f s b front l t held.owned) (hbooks : Books f r₀ s.routine held sound)
    (h : Pass.throughOps treat l held s = .ok (held', s')) :
    ∃ sound', Books f r₀ s'.routine held' (sound ∧ sound') ∧
      Follows (Pass.throughOps careful l held s) (held', s') sound' ∧
      (settings.transfer = false → sound') := by
  induction l generalizing s front held sound with
  | nil =>
    cases h
    exact ⟨True, by simpa using hbooks, .of_ok rfl, fun _ => trivial⟩
  | cons o rest ih =>
    obtain ⟨out, s₁, hout, h⟩ := throughOps_cons h
    obtain ⟨mid, hat₁, -⟩ := hat.next htreat hw hout
    rcases hop hat.first hbooks.ledger.booked' hout with ⟨sound₁, haccount, hfollows₁⟩
    rcases ih hat₁ (hbooks.absorb haccount) h with ⟨sound₂, hbooks₂, hfollows₂, hoff⟩
    refine ⟨(sound₁ ∧ out.settled s₁.aliases held.owned = true) ∧ sound₂, ?_, ?_,
      fun hsetting => ?_⟩
    · simpa only [and_assoc] using hbooks₂
    · exact hfollows₁.bind (Follows.after rfl hfollows₂) Iff.rfl
    · obtain ⟨hsound, hnone⟩ := haccount.untransferred hsetting
      exact ⟨⟨hsound, Outcome.settled_of_empty hnone⟩, hoff hsetting⟩

/-- The account of a block: it leaves what it acquires, and releases nothing from outside. -/
structure BlockAccount (f : Routine) (settings : Settings) (r : Routine) (out : Outcome)
    (r' : Routine) (sound : Prop) : Prop where
  ledger : Ledger f r [] r' out.acquired sound
  released : out.released = ∅
  known : ∀ i ∈ out.acquired, i.index < r'.values.size
  untransferred : settings.transfer = false → sound

theorem throughBlock_ledger {ownsInputs : Bool} (htreat : OpSpec f treat)
    (hop : OpLedger f settings treat careful) (hw : f.WellFormed) (ht : Threaded f s)
    (hvisited : f.Visited o) (henters : f.Enters o b) (hopened : ownsInputs = true → f.Opened b)
    (hun : BlockUntouched f s.routine b) (hb : Booked f s.routine)
    (h : Pass.throughBlock settings treat b ownsInputs s = .ok (out, s')) :
    ∃ sound, BlockAccount f settings s.routine out s'.routine sound ∧
      Follows (Pass.throughBlock settings careful b ownsInputs s) (out, s') sound := by
  obtain ⟨k⟩ := throughBlock_stages htreat hw ht hvisited henters hopened hun h
  obtain ⟨hopens, howned⟩ := openBlock_ledger hb k.opens
  have hbooks : Books f s.routine k.opened.routine ⟨k.owned, ∅⟩ True := by
    refine ⟨hopens, fun i hi => ⟨(howned i hi).1, fun hold => ?_⟩, rfl⟩
    exact Nat.not_lt.mpr (howned i hi).2 (hold.known hb.linked)
  rcases throughOps_ledger htreat hop hw k.atOps hbooks k.walks with
    ⟨sound, hwalked, hfollows, hoff⟩
  have hcloses := closeBlock_ledger hwalked.ledger.booked' (fun i hi => (k.tokens i hi).known)
    k.closes
  have hknown : ∀ i ∈ out.acquired, i.index < s'.routine.values.size := by
    obtain ⟨-, front, -, htokens⟩ := Pass.closeBlock_inserts hw k.threaded k.list k.reached
      k.last.live k.tokens k.closes
    exact fun i hi => (htokens i hi).known
  refine ⟨sound, ⟨?_, ?_, hknown, hoff⟩, ?_⟩
  · simpa using hwalked.ledger.andThen hcloses
  · rw [k.released, hwalked.released]
  · -- the steps but for the pass through the operations do not depend on the guard
    have hfound : Pass.ask (·.terminator? b) s = .ok (some k.t, s) :=
      Pass.ask_eq_ok.mpr ⟨k.found, rfl⟩
    have hbody : Pass.ask (·.bodyOps b) k.opened = .ok (k.body, k.opened) :=
      Pass.ask_eq_ok.mpr ⟨k.bodyOps, rfl⟩
    refine .after hfound (.after k.opens (.after hbody (hfollows.andThen ?_)))
    rw [Pass.bind_of_ok k.closes, ← k.released]
    rfl

end Blocks

/-! ## Constructs -/

section Constructs

variable {kind : ConstructKind} {site : ConstructSite}
variable (htreat : OpSpec f treat) (hop : OpLedger f settings treat careful) (hw : f.WellFormed)
include htreat hop hw

section

variable (hd : f.op? o = some d) (hcons : d.kind.construct?.isSome = true)
include hd hcons

theorem throughRegion_ledger {g : RegionId} {out : RegionOutcome}
    (hat : AtBlocks f s o (f.blocksOf g)) (hb : Booked f s.routine)
    (h : Pass.throughRegion settings treat site kind g s = .ok (out, s')) :
    ∃ sound, BlockAccount f settings s.routine out.outcome s'.routine sound ∧
      Follows (Pass.throughRegion settings careful site kind g s) (out, s') sound := by
  obtain ⟨args, _, hargs, h⟩ := Pass.bind_eq_ok.mp h
  obtain ⟨-, rfl⟩ := Pass.ask_eq_ok.mp hargs
  obtain ⟨b?, _, hask, h⟩ := Pass.bind_eq_ok.mp h
  obtain ⟨hb?, rfl⟩ := Pass.ask_eq_ok.mp hask
  cases b? with
  | none =>
    have hout := h
    cases h
    refine ⟨True, ⟨.refl hb [], rfl, by simp [Outcome.none], fun _ => trivial⟩, ?_⟩
    exact .after hargs (.after hask (.of_ok hout))
  | some b =>
    have hblocks : f.blocksOf g = [b] :=
      (hat.threaded.blocksOf g).symm.trans (singleBlock?_eq_some hb?)
    have henters := hat.enters b (by simp [hblocks])
    have hopened : f.Opened b :=
      ⟨o, ⟨hat.visited, by simp [isConstruct_of hd, hcons]⟩, henters⟩
    obtain ⟨outcome, mid, hblock, h⟩ := Pass.bind_eq_ok.mp h
    have hout := h
    split at h
    · exact absurd h Pass.reject_ne_ok
    · cases h
      rcases throughBlock_ledger htreat hop hw hat.threaded hat.visited henters (fun _ => hopened)
        (hat.untouched b (by simp [hblocks])) hb hblock with ⟨sound, haccount, hfollows⟩
      refine ⟨sound, haccount, ?_⟩
      exact .after hargs (.after hask (hfollows.andThen hout))

theorem throughRegions_ledger {gs : List RegionId} {outs : List RegionOutcome}
    (hat : AtBlocks f s o (gs.flatMap f.blocksOf)) (hsingle : ∀ g ∈ gs, (f.blocksOf g).length ≤ 1)
    (hb : Booked f s.routine)
    (h : Pass.throughRegions settings treat site kind gs s = .ok (outs, s')) :
    ∃ sound, Ledger f s.routine [] s'.routine (outs.flatMap (·.outcome.acquired)) sound ∧
      (∀ out ∈ outs, out.outcome.released = ∅ ∧
        ∀ i ∈ out.outcome.acquired, i.index < s'.routine.values.size) ∧
      (settings.transfer = false → sound) ∧
      Follows (Pass.throughRegions settings careful site kind gs s) (outs, s') sound := by
  induction gs generalizing s outs with
  | nil =>
    have hout := h
    cases h
    exact ⟨True, .refl hb [], by simp, fun _ => trivial, .of_ok hout⟩
  | cons g rest ih =>
    obtain ⟨first, mid, hfirst, h⟩ := Pass.bind_eq_ok.mp h
    obtain ⟨others, last, hothers, h⟩ := Pass.bind_eq_ok.mp h
    have hout := h
    cases h
    rw [List.flatMap_cons] at hat
    obtain ⟨hrun₁, rfl, -⟩ := throughRegion_spec htreat hw hd hcons hat.first
      (hsingle g (by simp)) hfirst
    rcases throughRegion_ledger htreat hop hw hd hcons hat.first hb hfirst with
      ⟨sound₁, haccount, hfollows₁⟩
    rcases ih (hat.next hw hrun₁) (fun g' hg' => hsingle g' (by simp [hg']))
      haccount.ledger.booked' hothers with ⟨sound₂, hledger₂, houts, hoff, hfollows₂⟩
    refine ⟨sound₁ ∧ sound₂, ?_, fun out hmem => ?_, fun hsetting => ?_, ?_⟩
    · -- what the first region hands on passes by the others
      have hframed := hledger₂.frame_left _ haccount.known
      rw [List.append_nil] at hframed
      exact haccount.ledger.trans hframed Iff.rfl
    · rcases List.mem_cons.mp hmem with rfl | hmem
      · exact ⟨haccount.released, fun i hi =>
          Nat.lt_of_lt_of_le (haccount.known i hi) hledger₂.size_values⟩
      · exact houts out hmem
    · exact ⟨haccount.untransferred hsetting, hoff hsetting⟩
    · exact hfollows₁.bind (hfollows₂.andThen hout) Iff.rfl

theorem throughConstruct_ledger (hat : AtOp f s o owned b front rest) (hb : Booked f s.routine)
    (h : Pass.throughConstruct settings treat kind o owned s = .ok (out, s')) :
    ∃ sound, OpAccount f settings owned s.routine out s'.routine sound ∧
      Follows (Pass.throughConstruct settings careful kind o owned s) (out, s') sound := by
  obtain ⟨walk⟩ := throughConstruct_stages hw hd hcons htreat hat h
  have ht' := hat.threaded.run hw walk.run
  rcases throughRegions_ledger htreat hop hw hd hcons walk.atBlocks walk.single hb
    walk.regions with ⟨sound, hledger₁, hregion, hoff₁, hfollows⟩
  obtain ⟨hledger₂, hreleased, hacquired, hoff₂⟩ := walk.pass.ledger hw hd hcons hledger₁.booked'
    (fun out hout => (hregion out hout).1)
    (fun out hout => (walk.ready out hout).sendable hw ht') (fun out hout => (hregion out hout).2)
    (fun i hi => ((hat.owned i hi).keep walk.run.keeps fun _ => id).known)
  refine ⟨sound, ⟨?_, hreleased, ⟨hacquired.introduced, fun i hi => ?_, hacquired.nodup⟩, ?_⟩, ?_⟩
  · -- what is taken over passes by the regions
    exact (hledger₁.frame _ fun i hi => (hat.owned i (hreleased i hi)).known).andThen hledger₂
  · exact Nat.le_trans hledger₁.size_values (hacquired.fresh i hi)
  · exact fun hsetting => ⟨hoff₁ hsetting, hoff₂ hsetting⟩
  · rw [walk.splits]
    exact hfollows.andThen walk.finishes

end

end Constructs

/-! ## All operations -/

/-- An operation that has no part in ownership but by what is inside it. -/
theorem OpAccount.of_none {sound : Prop} (h : Ledger f r [] r' [] sound)
    (hoff : settings.transfer = false → sound) :
    OpAccount f settings owned r .none r' sound where
  ledger := h
  released _ hi := absurd hi ValueSet.not_mem_empty
  acquired := .nil
  untransferred hsetting := ⟨hoff hsetting, rfl⟩

section Operations

variable (htreat : OpSpec f treat) (hop : OpLedger f settings treat careful) (hw : f.WellFormed)
include htreat hop hw

theorem throughUnknownBlocks_ledger {bs : List BlockId} (hat : AtBlocks f s o bs)
    (hb : Booked f s.routine)
    (h : Pass.throughUnknownBlocks settings treat o bs s = .ok (out, s')) :
    ∃ sound, Ledger f s.routine [] s'.routine [] sound ∧ (settings.transfer = false → sound) ∧
      Follows (Pass.throughUnknownBlocks settings careful o bs s) (out, s') sound := by
  induction bs generalizing s with
  | nil =>
    have hout := h
    cases h
    exact ⟨True, .refl hb [], fun _ => trivial, .of_ok hout⟩
  | cons b rest ih =>
    have hat : AtBlocks f s o ([b] ++ rest) := hat
    obtain ⟨first, s₁, hfirst, h⟩ := Pass.bind_eq_ok.mp h
    obtain ⟨hrun₁, -⟩ := throughBlock_spec htreat hw hat.threaded hat.visited
      (hat.enters b (by simp)) (by simp) (hat.untouched b (by simp)) hfirst
    have hrun₁ : Run f (.ofBlocks f [b]) s s₁ := hrun₁.mono (Footprint.ofBlock_within (by simp))
    rcases throughBlock_ledger htreat hop hw hat.threaded hat.visited (hat.enters b (by simp))
      (by simp) (hat.untouched b (by simp)) hb hfirst with ⟨sound₁, haccount, hfollows₁⟩
    split at h
    · rename_i hempty
      -- the block has no part in ownership, so its account is closed before the next one
      have hnothing : first.acquired = [] := by
        simpa using (Bool.and_eq_true_iff.mp hempty).1
      rcases ih (hat.next hw hrun₁) haccount.ledger.booked' h with
        ⟨sound₂, hledger₂, hoff, hfollows₂⟩
      have hledger₁ := haccount.ledger
      rw [hnothing] at hledger₁
      refine ⟨sound₁ ∧ sound₂, hledger₁.trans hledger₂ Iff.rfl, fun hsetting => ?_, ?_⟩
      · exact ⟨haccount.untransferred hsetting, hoff hsetting⟩
      · refine hfollows₁.bind ?_ Iff.rfl
        rw [if_pos hempty]
        exact hfollows₂
    · obtain ⟨_, _, -, h⟩ := Pass.bind_eq_ok.mp h
      exact absurd h Pass.reject_ne_ok

theorem throughUnknownRegions_ledger (hd : f.op? o = some d) (hclass : d.classify = .unknownRegions)
    (hat : AtOp f s o owned b front rest) (hb : Booked f s.routine)
    (h : Pass.throughUnknownRegions settings treat o s = .ok (out, s')) :
    ∃ sound, Ledger f s.routine [] s'.routine [] sound ∧ (settings.transfer = false → sound) ∧
      Follows (Pass.throughUnknownRegions settings careful o s) (out, s') sound := by
  rw [throughUnknownRegions_split hw hd hat h]
  rw [throughUnknownRegions_split hw hd hat h] at h
  exact throughUnknownBlocks_ledger htreat hop hw
    (hat.atBlocks hw hd fun c => (enters_iff_of_unknown hd hclass).mp) hb h

/-- What an operation does to the books, and when the careful pass lets it. -/
theorem throughOp_ledger (hfree : f.FreesNothing) (hat : AtOp f s o owned b front rest)
    (hb : Booked f s.routine) (h : Pass.throughOp settings treat o owned s = .ok (out, s')) :
    ∃ sound, OpAccount f settings owned s.routine out s'.routine sound ∧
      Follows (Pass.throughOp settings careful o owned s) (out, s') sound := by
  obtain ⟨d, hd, -⟩ := exists_op?_of_parent? hat.parent
  obtain ⟨τ, hentry⟩ := hat.entry hw hd
  -- both passes go by the class of the operation
  rw [Pass.throughOp_of hentry, Op.classify_map] at h ⊢
  have hspec := d.classify_spec
  cases hclass : d.classify with
  | construct kind =>
    simp only [hclass, Pass.byClass] at h hspec ⊢
    exact throughConstruct_ledger htreat hop hw hd (by simp [hspec]) hat hb h
  | effects allocated freed =>
    simp only [hclass, Pass.byClass] at h hspec ⊢
    obtain ⟨-, rfl, rfl⟩ := hspec
    -- nothing is freed, so there is nothing that the careful pass could refuse
    rw [hfree o d (hat.visited.reached hw.linked) hd] at h ⊢
    obtain ⟨next, post, -, hreleased, hown⟩ := hat.throughEffects h
    obtain ⟨hledger, hacquired⟩ :=
      ownAll_ledger hb (by simp [hd]) (hat.allocated_results hw hd) hown
    have hnone : out.released = ∅ := hreleased
    refine ⟨True, ⟨?_, fun i hi => ?_, hacquired, fun _ => ⟨trivial, hnone⟩⟩, .of_ok h⟩
    · rw [hnone]
      exact hledger
    · rw [hnone] at hi
      exact absurd hi ValueSet.not_mem_empty
  | routine => exact absurd hclass (hat.not_routine hw hd)
  | unknownRegions =>
    simp only [hclass, Pass.byClass] at h ⊢
    obtain ⟨-, rfl, -⟩ := throughUnknownRegions_spec htreat hw hd hclass hat h
    rcases throughUnknownRegions_ledger htreat hop hw hd hclass hat hb h with
      ⟨sound, hledger, hoff, hfollows⟩
    exact ⟨sound, .of_none hledger hoff, hfollows⟩
  | plain =>
    simp only [hclass, Pass.byClass] at h ⊢
    obtain ⟨rfl, hroutine, -⟩ := throughPlain_eq_ok h
    refine ⟨True, .of_none ?_ fun _ => trivial, .of_ok h⟩
    rw [hroutine]
    exact .refl hb []

end Operations

/-- A guarded treatment succeeds if what it guards does and the block strikes off what was taken. -/
theorem Follows.guarded {sound : Prop} (h : Follows (treat o owned s) (out, s') sound) :
    Follows (Pass.guarded treat o owned s) (out, s')
      (sound ∧ out.settled s'.aliases owned = true) := by
  refine h.bind (.after rfl ?_) Iff.rfl
  cases hsettled : out.settled s'.aliases owned with
  | true => exact .congr (.of_ok rfl) (by simp)
  | false =>
    exact ⟨fun hfalse => absurd hfalse (by simp), fun _ _ => nofun⟩

theorem throughOpWithin_ledger (hw : f.WellFormed) (hfree : f.FreesNothing) (settings : Settings)
    (fuel : Nat) :
    OpLedger f settings (Pass.throughOpWithin settings fuel)
      (Pass.throughOpGuarded settings fuel) := by
  induction fuel with
  | zero =>
    intro o owned s s' out b front rest _ _ h
    cases h
  | succ fuel ih =>
    intro o owned s s' out b front rest hat hb h
    rcases throughOp_ledger (throughOpWithin_spec hw settings fuel) ih hw hfree hat hb h with
      ⟨sound, haccount, hfollows⟩
    exact ⟨sound, haccount, hfollows.guarded⟩

/-! ## The whole routine -/

/-- Threading leaves what it returns, and the guarded pass follows as long as nothing is lost. -/
theorem threadFromRoot_ledger (hw : f.WellFormed) (hfree : f.FreesNothing)
    (h : f.threadFromRoot settings = .ok (out, s)) :
    ∃ sound, Ledger f f [] s.routine out.acquired sound ∧ (settings.transfer = false → sound) ∧
      Follows (Pass.throughOpGuarded settings f.depthBound f.root ∅ (.start f)) (out, s) sound := by
  obtain ⟨b, name, henters, hsplit⟩ := throughOp_root hw h
  obtain ⟨outcome, s₁, hblock, h⟩ := Pass.bind_eq_ok.mp ((hsplit _).symm.trans h)
  have hout := h
  obtain ⟨-, rfl, rfl⟩ := finishRoutine_eq_ok h
  have hun := BlockUntouched.start hw henters
  rcases throughBlock_ledger (throughOpWithin_spec hw settings f.ops.size)
    (throughOpWithin_ledger hw hfree settings f.ops.size) hw (Threaded.start hw) .refl henters
    (by simp) hun (Booked.start hw) hblock with ⟨sound, haccount, hfollows⟩
  refine ⟨sound, haccount.ledger, haccount.untransferred, ?_⟩
  -- the root takes over nothing, so there is nothing for its guard to find
  have hroot : Follows (Pass.throughOp settings (Pass.throughOpGuarded settings f.ops.size) f.root ∅
      (.start f)) ({ released := ∅, acquired := outcome.acquired }, s₁) sound := by
    rw [hsplit]
    exact hfollows.andThen hout
  exact hroot.guarded.congr (by simp [Outcome.settled_of_empty])

/-- All indicators that were introduced are consumed once: each of them is an operand of a live
operation or is returned, and not both or more than once. -/
def Conserved (f g : Routine) (returned : List ValueId) : Prop :=
  ∀ i, Introduced f g i → (g.uses i).length + returned.count i = 1

theorem threadOwnership_ledger {g : Routine} (hw : f.WellFormed) (hfree : f.FreesNothing)
    {report : Report} (h : f.threadOwnership settings = .ok (report, g)) :
    ∃ sound, Ledger f f [] g report.returned sound ∧ (settings.transfer = false → sound) ∧
      Follows (f.threadGuarded settings) (report, g) sound := by
  obtain ⟨⟨out, s⟩, hroot, h⟩ := bind_eq_ok.mp h
  have hout := h
  obtain ⟨_, -, h⟩ := bind_eq_ok.mp h
  cases h
  rcases threadFromRoot_ledger hw hfree hroot with ⟨sound, hledger, hoff, hfollows⟩
  refine ⟨sound, hledger, hoff, fun hs => ?_, fun hs answer heq => ?_⟩
  · rw [threadGuarded, hfollows.1 hs]
    exact hout
  · obtain ⟨_, hguarded, -⟩ := bind_eq_ok.mp heq
    exact hfollows.2 hs _ hguarded

/-- In a routine that frees nothing, all indicators are conserved if and only if the guarded pass
gives the same answer. If it does not, then an indicator is lost. Without transfers all indicators
are conserved. -/
theorem threadOwnership_conserves_iff {g : Routine} (hw : f.WellFormed) (hfree : f.FreesNothing)
    (settings : Settings) {report : Report}
    (h : f.threadOwnership settings = .ok (report, g)) :
    (Conserved f g report.returned ↔ f.threadGuarded settings = .ok (report, g)) ∧
      (f.threadGuarded settings ≠ .ok (report, g) →
        ∃ i, Introduced f g i ∧ g.uses i = [] ∧ i ∉ report.returned) ∧
      (settings.transfer = false → Conserved f g report.returned) := by
  rcases threadOwnership_ledger hw hfree h with ⟨sound, hledger, hoff, hfollows⟩
  have hconserved : sound → Conserved f g report.returned := fun hs i hi =>
    hledger.spent hs i hi not_introduced_self
  have hlost : ¬ sound → ∃ i, Introduced f g i ∧ (g.uses i).length + report.returned.count i = 0 :=
    fun hs => by
      rcases hledger.lost hs with ⟨i, hi, -, hzero⟩
      exact ⟨i, hi, hzero⟩
  refine ⟨⟨fun hall => ?_, fun hguarded => ?_⟩, fun hguarded => ?_, fun hsetting => ?_⟩
  · -- if the careful pass refused something, an indicator would be lost
    apply hfollows.1
    by_contra hs
    rcases hlost hs with ⟨i, hi, hzero⟩
    have hone := hall i hi
    omega
  · apply hconserved
    by_contra hs
    exact hfollows.2 hs _ hguarded
  · rcases hlost fun hs => hguarded (hfollows.1 hs) with ⟨i, hi, hzero⟩
    refine ⟨i, hi, List.length_eq_zero_iff.mp (by omega), List.count_eq_zero.mp (by omega)⟩
  · exact hconserved (hoff hsetting)

/-! ## A buffer that is passed on, and one that is overtaken -/

theorem Routine.freesNothing_of_check
    (h : (f.ops.toList.all fun d => d.freed.isEmpty) = true) : f.FreesNothing := by
  intro o d _ hd
  have hmem : d ∈ f.ops.toList := Array.mem_toList_iff.mpr (Array.mem_of_getElem? hd)
  exact List.isEmpty_iff.mp (List.all_eq_true.mp h d hmem)

/-- A buffer is carried through a loop and returned. -/
def relay : Edit Unit := do
  let entry : InsertPoint := .atEnd ⟨0⟩
  let buffer ← Emit.alloc entry (.buffer .f32 1)
  let loop ← Emit.forLoop entry ⟨0⟩ ⟨0⟩ ⟨0⟩ [buffer]
  let _ ← Emit.yield (.atEnd loop.body) loop.carried
  let carried ← Edit.ask fun r => return (← r.op loop.op).results
  let _ ← Emit.ret entry carried

def relayRoutine : Routine := relay.build "relay" [.scalar .index]

theorem threadOwnership_conserves_relay :
    ∃ report g, relayRoutine.threadOwnership {} = .ok (report, g) ∧ report.tally.transfers = 1 ∧
      Conserved relayRoutine g report.returned := by
  have hw : relayRoutine.WellFormed := Routine.wellFormed_of_check (by decide +kernel)
  have hfree : relayRoutine.FreesNothing := Routine.freesNothing_of_check (by decide +kernel)
  have hguarded : relayRoutine.threadGuarded {} = relayRoutine.threadOwnership {} := by
    decide +kernel
  obtain ⟨⟨report, g⟩, h, htransfers⟩ := exists_of_check (x := relayRoutine.threadOwnership {})
    (P := fun answer => answer.1.tally.transfers = 1) (by decide +kernel)
  refine ⟨report, g, h, htransfers, ?_⟩
  apply (threadOwnership_conserves_iff hw hfree {} h).1.mpr
  rw [hguarded, h]

/-- A loop begins with the second of two buffers and goes on with the first. -/
def overtaking : Edit Unit := do
  let entry : InsertPoint := .atEnd ⟨0⟩
  let first ← Emit.alloc entry (.buffer .f32 1)
  let second ← Emit.alloc entry (.buffer .f32 1)
  let loop ← Emit.forLoop entry ⟨0⟩ ⟨0⟩ ⟨0⟩ [second]
  let _ ← Emit.yield (.atEnd loop.body) [first]
  let _ ← Emit.ret entry []

def overtakingRoutine : Routine := overtaking.build "overtaking" [.scalar .index]

/-- The first buffer's indicator is struck in place of the one that went into the loop. -/
theorem overtakingRoutine_not_conserved :
    overtakingRoutine.WellFormed ∧ overtakingRoutine.FreesNothing ∧
      ∃ report g, overtakingRoutine.threadOwnership {} = .ok (report, g) ∧
        Introduced overtakingRoutine g ⟨6⟩ ∧ g.uses ⟨6⟩ = [] ∧ report.returned = [] ∧
        ¬ Conserved overtakingRoutine g report.returned := by
  refine ⟨Routine.wellFormed_of_check (by decide +kernel),
    Routine.freesNothing_of_check (by decide +kernel), ?_⟩
  obtain ⟨⟨report, g⟩, h, hkind, hresult, huses, hreturned⟩ := exists_of_check
    (x := overtakingRoutine.threadOwnership {})
    (P := fun answer => answer.2.kind? ⟨6⟩ = some .own ∧ ⟨6⟩ ∈ answer.2.resultsOf ⟨6⟩ ∧
      answer.2.uses ⟨6⟩ = [] ∧ answer.1.returned = []) (by decide +kernel)
  have hintroduced : Introduced overtakingRoutine g ⟨6⟩ :=
    .own (by decide +kernel) hkind hresult
  refine ⟨report, g, h, hintroduced, huses, hreturned, fun hall => ?_⟩
  have hone := hall _ hintroduced
  rw [huses, hreturned] at hone
  cases hone

end BufferOwnership
