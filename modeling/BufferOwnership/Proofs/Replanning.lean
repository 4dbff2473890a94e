import BufferOwnership.Proofs.Alignment
import BufferOwnership.Proofs.EarliestReleases
import BufferOwnership.Proofs.EscapePlan

/-!
# Planning what has been planned

When the work on a routine is done, an indicator is there for each buffer that it returns. To plan
the escapes of the body once more, with the indicators that are returned and the classes of the end,
would find each returned buffer alone with its indicator, as long as no two of the returned buffers
share a class. Such a plan proposes nothing: to close the body with it gives the same indicators
again, and leaves the session as it is.
-/

namespace BufferOwnership

open Routine

variable {f : Routine} {s : Session} {b : BlockId} {t : OpId} {body : List OpId}
variable {v i : ValueId} {settings : Settings} {out : Outcome} {escaping indicators : List ValueId}

/-! ## Buffers alone with their indicators -/

theorem eraseDups_of_nodup {l : List ValueId} (h : l.Nodup) : l.eraseDups = l := by
  induction l with
  | nil => rfl
  | cons v l ih =>
    obtain ⟨hv, hl⟩ := List.nodup_cons.mp h
    have hrest : (l.filter fun w => !w == v) = l := by
      refine List.filter_eq_self.mpr fun w hw => ?_
      have hne : w ≠ v := fun heq => hv (heq ▸ hw)
      simpa using hne
    rw [List.eraseDups_cons, hrest, ih hl]

namespace AliasClasses

/-- One indicator for each value, in its class, and the values are in different classes. -/
structure Apart (c : AliasClasses) (escaping indicators : List ValueId) : Prop where
  count : indicators.length = escaping.length
  same : ∀ (n : Nat) v i, escaping[n]? = some v → indicators[n]? = some i → c.same v i = true
  apart : escaping.Pairwise fun v w => c.same v w = false

variable {c : AliasClasses} (h : c.Apart escaping indicators)
include h

theorem Apart.nodup_leader : (escaping.map c.leader).Nodup := by
  refine List.pairwise_map.mpr (h.apart.imp fun {v w} hvw => ?_)
  simpa [AliasClasses.same] using hvw

/-- The class of a value tells where it stands. -/
theorem Apart.place_unique {n m : Nat} {w : ValueId} (hv : escaping[n]? = some v)
    (hw : escaping[m]? = some w) (hleader : c.leader w = c.leader v) : m = n := by
  have hlt : m < (escaping.map c.leader).length := by
    simpa using (List.getElem?_eq_some_iff.mp hw).1
  refine (List.getElem?_inj hlt h.nodup_leader).mp ?_
  rw [List.getElem?_map, List.getElem?_map, hv, hw, Option.map_some, Option.map_some, hleader]

/-- The group of a value holds this value and its indicator. -/
theorem Apart.escapeGroup {n : Nat} (hv : escaping[n]? = some v) (hi : indicators[n]? = some i) :
    c.escapeGroup escaping (.ofList indicators) (c.leader v) = ⟨c.leader v, [(n, v)], [i]⟩ := by
  have hescaping : (c.escapeGroup escaping (.ofList indicators) (c.leader v)).escaping =
      [(n, v)] := by
    -- a list without repetitions that has one member is this one
    refine List.perm_singleton.mp ((List.perm_ext_iff_of_nodup ?_ (List.nodup_singleton _)).mpr ?_)
    · exact (c.ascending_escapeGroup escaping _ _).imp fun hlt heq => by simp [heq] at hlt
    · rintro ⟨m, w⟩
      rw [c.mem_escaping_escapeGroup, List.mem_singleton, Prod.mk.injEq]
      constructor
      · rintro ⟨hw, hleader⟩
        obtain rfl := h.place_unique hv hw hleader
        exact ⟨rfl, Option.mem_unique hw hv⟩
      · rintro ⟨rfl, rfl⟩
        exact ⟨hv, rfl⟩
  have howned : (c.escapeGroup escaping (.ofList indicators) (c.leader v)).owned = [i] := by
    refine List.perm_singleton.mp ((List.perm_ext_iff_of_nodup ?_ (List.nodup_singleton _)).mpr ?_)
    · exact (ValueSet.nodup_toList _).filter _
    · intro j
      rw [List.mem_singleton, AliasClasses.escapeGroup, List.mem_filter, ← ValueSet.mem_def,
        ValueSet.mem_ofList, decide_eq_true_eq]
      constructor
      · -- an indicator stands where a value of its class stands
        rintro ⟨hj, hleader⟩
        obtain ⟨m, hm⟩ := List.mem_iff_getElem?.mp hj
        have hlt : m < escaping.length := h.count ▸ (List.getElem?_eq_some_iff.mp hm).1
        have hw := List.getElem?_eq_getElem hlt
        have hclass : c.leader escaping[m] = c.leader j := by
          simpa [AliasClasses.same] using h.same m _ j hw hm
        obtain rfl := h.place_unique hv hw (hclass.trans hleader)
        exact Option.mem_unique hm hi
      · rintro rfl
        refine ⟨List.mem_of_getElem? hi, ?_⟩
        simpa [AliasClasses.same, eq_comm] using h.same n v j hv hi
  rw [← hescaping, ← howned]
  rfl

/-- The plan, group by group. -/
theorem Apart.planEscapes_eq : c.planEscapes escaping (.ofList indicators) =
    (escaping.zip indicators).zipIdx.map fun e => ⟨c.leader e.1.1, [(e.2, e.1.1)], [e.1.2]⟩ := by
  rw [AliasClasses.planEscapes, leaders, eraseDups_of_nodup h.nodup_leader, List.map_map]
  have hlength : (escaping.zip indicators).length = escaping.length := by simp [h.count]
  refine List.ext_getElem (by simp [hlength]) fun n hn _ => ?_
  have hescaping : n < escaping.length := by simpa using hn
  have hindicators : n < indicators.length := h.count ▸ hescaping
  simpa using h.escapeGroup (List.getElem?_eq_getElem hescaping)
    (List.getElem?_eq_getElem hindicators)

end AliasClasses

/-! ## Closing with such a plan -/

/-- Groups of one buffer and one indicator need nothing. -/
theorem settleGroups_of_isDirect {groups : List EscapeGroup}
    (h : ∀ group ∈ groups, group.isDirect = true) :
    Pass.settleGroups t groups s =
      .ok (groups.flatMap fun group => (group.escaping.map (·.1)).zip group.owned, s) := by
  induction groups with
  | nil => rfl
  | cons group groups ih =>
    have hfirst : Pass.settleGroup t group s =
        .ok ((group.escaping.map (·.1)).zip group.owned, s) := by
      rw [Pass.settleGroup, if_pos (h group (by simp))]
      rfl
    have hothers := ih fun other hother => h other (by simp [hother])
    exact Pass.bind_eq_ok.mpr ⟨_, s, hfirst, Pass.bind_eq_ok.mpr ⟨_, s, hothers, rfl⟩⟩

/-- Where every position has its indicator no null is needed. -/
theorem fillSlots_of_settled {settled : List (Nat × ValueId)} {positions : List Nat}
    (h : List.Forall₂ (fun k i => settled.lookup k = some i) positions indicators) :
    Pass.fillSlots t settled none positions s = .ok (indicators, s) := by
  induction h with
  | nil => rfl
  | cons hlookup _ ih =>
    simp only [Pass.fillSlots, hlookup]
    exact Pass.bind_eq_ok.mpr ⟨_, s, ih, rfl⟩

/-- Nothing is released while each indicator has an escaping value in its class. -/
theorem releaseUnescaped_of_escaping
    (h : ∀ i ∈ indicators, ∃ v ∈ escaping, s.aliases.same v i = true) :
    Pass.releaseUnescaped settings t escaping indicators s = .ok ((), s) := by
  induction indicators with
  | nil => rfl
  | cons i indicators ih =>
    rw [releaseUnescaped_escapes (h i (by simp))]
    exact ih fun j hj => h j (by simp [hj])

theorem lookup_zipIdx_swap (l : List ValueId) (start n : Nat) :
    ((l.zipIdx start).map Prod.swap).lookup (start + n) = l[n]? := by
  induction l generalizing start n with
  | nil => rfl
  | cons i l ih =>
    cases n with
    | zero => simp
    | succ n =>
      have hne : (start + (n + 1) == start) = false := by simp
      rw [List.zipIdx_cons, List.map_cons, Prod.swap_prod_mk, List.lookup_cons, hne,
        ← Nat.add_assoc, Nat.add_right_comm, ih (start + 1) n]
      rfl

/-- The plan has one group for each value, in order, and each group needs nothing. -/
structure AliasClasses.PlansDirect (c : AliasClasses) (escaping indicators : List ValueId) :
    Prop where
  values : (c.planEscapes escaping (.ofList indicators)).map (·.escaping) =
    escaping.zipIdx.map fun e => [e.swap]
  owned : (c.planEscapes escaping (.ofList indicators)).map (·.owned) = indicators.map ([·])
  direct : ∀ group ∈ c.planEscapes escaping (.ofList indicators), group.isDirect = true

section Apart

variable {c : AliasClasses} (h : c.Apart escaping indicators)
include h

theorem AliasClasses.Apart.plansDirect : c.PlansDirect escaping indicators := by
  have hfst : (escaping.zip indicators).map Prod.fst = escaping := List.map_fst_zip h.count.ge
  have hsnd : (escaping.zip indicators).map Prod.snd = indicators := List.map_snd_zip h.count.le
  constructor
  · calc (c.planEscapes escaping (.ofList indicators)).map (·.escaping)
      _ = (escaping.zip indicators).zipIdx.map fun e => [(e.2, e.1.1)] := by
        rw [h.planEscapes_eq, List.map_map]
        rfl
      _ = ((escaping.zip indicators).map Prod.fst).zipIdx.map fun e => [e.swap] := by
        rw [List.zipIdx_map, List.map_map]
        rfl
      _ = escaping.zipIdx.map fun e => [e.swap] := by rw [hfst]
  · calc (c.planEscapes escaping (.ofList indicators)).map (·.owned)
      _ = (((escaping.zip indicators).zipIdx.map Prod.fst).map Prod.snd).map ([·]) := by
        rw [h.planEscapes_eq, List.map_map, List.map_map, List.map_map]
        rfl
      _ = indicators.map ([·]) := by rw [List.zipIdx_map_fst, hsnd]
  · intro group hgroup
    rw [h.planEscapes_eq] at hgroup
    obtain ⟨_, -, rfl⟩ := List.mem_map.mp hgroup
    rfl

/-- Each position gets its indicator. -/
theorem AliasClasses.Apart.settled :
    ((c.planEscapes escaping (.ofList indicators)).flatMap fun group =>
      (group.escaping.map (·.1)).zip group.owned) = indicators.zipIdx.map Prod.swap := by
  have hsnd : (escaping.zip indicators).map Prod.snd = indicators :=
    List.map_snd_zip h.count.le
  nth_rewrite 2 [← hsnd]
  rw [h.planEscapes_eq, List.flatMap_map, List.zipIdx_map, List.map_map]
  exact (List.map_eq_flatMap ..).symm

end Apart

/-- Where each buffer sent has an indicator, alone in its class, closing changes nothing. -/
theorem closeBlock_of_apart {d : Op} (hd : s.routine.op? t = some d)
    (hknown : ∀ v ∈ d.operands, v.index < s.routine.values.size)
    (h : s.aliases.Apart (d.operands.filter s.routine.holdsBuffer) indicators) :
    Pass.closeBlock settings t (.ofList indicators) s = .ok (indicators, s) := by
  refine Pass.bind_eq_ok.mpr ⟨d.operands.filter s.routine.holdsBuffer, s, ?_, ?_⟩
  · exact Pass.ask_eq_ok.mpr ⟨by rw [bind_of_ok (op_of hd), buffers_ok hknown], rfl⟩
  -- each step of the closing is a `bind` whose first part leaves the session as it is
  refine Pass.bind_eq_ok.mpr ⟨(), s, releaseUnescaped_of_escaping ?_, ?_⟩
  · intro i hi
    obtain ⟨n, hn⟩ := List.mem_iff_getElem?.mp (ValueSet.mem_ofList.mp hi)
    have hlt := h.count ▸ (List.getElem?_eq_some_iff.mp hn).1
    exact ⟨_, List.getElem_mem hlt, h.same n _ i (List.getElem?_eq_getElem hlt) hn⟩
  refine Pass.bind_eq_ok.mpr ⟨s.aliases, s, rfl, ?_⟩
  refine Pass.bind_eq_ok.mpr ⟨_, s, settleGroups_of_isDirect h.plansDirect.direct, ?_⟩
  rw [h.settled]
  apply fillSlots_of_settled
  refine List.forall₂_iff_get.mpr ⟨by simp [h.count], fun n _ hn => ?_⟩
  simpa [List.getElem?_eq_getElem hn] using lookup_zipIdx_swap indicators 0 n

/-! ## The body of a routine -/

section Root

variable (hw : f.WellFormed) (hroot : f.threadFromRoot settings = .ok (out, s))
variable (henters : f.Enters f.root b) (hlist : f.opsOf b = body ++ [t])
include hw hroot henters hlist

/-- What is returned fits the returned buffers, once these are known to be in different classes. -/
theorem threadFromRoot_apart
    (hapart : ((s.routine.operandsOf t).filter s.routine.holdsBuffer).Pairwise fun v w =>
      s.aliases.same v w = false) :
    s.aliases.Apart ((s.routine.operandsOf t).filter s.routine.holdsBuffer) out.acquired := by
  obtain ⟨ht, -, -⟩ := threadFromRoot_spec hw hroot
  obtain ⟨δ, hδ⟩ := ht.embedded
  obtain ⟨hoperands, haligned⟩ := threadFromRoot_returns hw hroot hδ henters hlist
  rw [hoperands] at hapart ⊢
  refine ⟨?_, fun n v i hv hi => ?_, hapart⟩
  · rw [haligned.count, bufferCount, List.countP_eq_length_filter]
  · exact (haligned.classes n v i hv hi).resolve_right id

/-- If no two of the buffers that a routine returns share a class at the end, then to plan their
escapes again, with what is returned, finds each of them alone with its indicator. No retain comes
of it: to close the body again gives the same answer in the same session. -/
theorem threadFromRoot_replans
    (hapart : ((s.routine.operandsOf t).filter s.routine.holdsBuffer).Pairwise fun v w =>
      s.aliases.same v w = false) :
    s.aliases.PlansDirect ((s.routine.operandsOf t).filter s.routine.holdsBuffer) out.acquired ∧
      Pass.closeBlock settings t (.ofList out.acquired) s = .ok (out.acquired, s) ∧
      ∀ report g, f.threadOwnership settings = .ok (report, g) →
        g = s.routine ∧ report.returned = out.acquired := by
  have h := threadFromRoot_apart hw hroot henters hlist hapart
  refine ⟨h.plansDirect, ?_, fun report g hthread => ?_⟩
  · obtain ⟨ht, -, b', body', t', front, henters', hwalked, -⟩ := threadFromRoot_spec hw hroot
    obtain rfl := hw.root_block_unique henters henters'
    obtain ⟨-, hlast⟩ := List.append_inj' (hlist.symm.trans hwalked.original) rfl
    obtain rfl : t = t' := List.singleton_inj.mp hlast
    have hmem : t ∈ s.routine.opsOf b := by simp [hwalked.list]
    obtain ⟨d, hd⟩ := ht.wellFormed.coherent.exists_op?_of_mem hmem
    rw [operandsOf_of hd] at h
    refine closeBlock_of_apart hd (fun v hv => ht.wellFormed.known t v ?_) h
    rwa [operandsOf_of hd]
  · obtain ⟨out', s', hroot', rfl, hreturned⟩ := threadOwnership_eq_ok hthread
    obtain ⟨rfl, rfl⟩ : out = out' ∧ s = s' := by simpa using hroot.symm.trans hroot'
    exact ⟨rfl, hreturned⟩

end Root

/-- A buffer comes out of a loop and is returned together with a number and a parameter. -/
def assorted : Edit Unit := do
  let entry : InsertPoint := .atEnd ⟨0⟩
  let buffer ← Emit.alloc entry (.buffer .f32 1)
  let loop ← Emit.forLoop entry ⟨1⟩ ⟨1⟩ ⟨1⟩ [buffer]
  let _ ← Emit.yield (.atEnd loop.body) loop.carried
  let carried ← Edit.ask fun r => return (← r.op loop.op).results
  let _ ← Emit.ret entry (carried ++ [⟨1⟩, ⟨0⟩])

def assortedRoutine : Routine :=
  assorted.build "assorted" [.buffer .f32 1, .scalar .index]

/-- The parameter is not owned, so it leaves with the result of a retain, alone in its class. -/
theorem assortedRoutine_replans :
    ∃ out s, assortedRoutine.threadFromRoot {} = .ok (out, s) ∧ s.tally.retains = 1 ∧
      (s.routine.operandsOf ⟨4⟩).filter s.routine.holdsBuffer = [⟨8⟩, ⟨0⟩] ∧
      s.aliases.PlansDirect [⟨8⟩, ⟨0⟩] out.acquired ∧ out.acquired.length = 2 ∧
      Pass.closeBlock {} ⟨4⟩ (.ofList out.acquired) s = .ok (out.acquired, s) := by
  have hw : assortedRoutine.WellFormed := Routine.wellFormed_of_check (by decide +kernel)
  have henters : assortedRoutine.Enters assortedRoutine.root ⟨0⟩ := by decide +kernel
  have hlist : assortedRoutine.opsOf ⟨0⟩ = [⟨1⟩, ⟨2⟩] ++ [⟨4⟩] := by decide +kernel
  obtain ⟨⟨out, s⟩, hroot, htally, hbuffers, hsame, hlength⟩ :=
    exists_of_check (x := assortedRoutine.threadFromRoot {})
      (P := fun a => a.2.tally.retains = 1 ∧
        (a.2.routine.operandsOf ⟨4⟩).filter a.2.routine.holdsBuffer = [⟨8⟩, ⟨0⟩] ∧
        a.2.aliases.same ⟨8⟩ ⟨0⟩ = false ∧ a.1.acquired.length = 2)
      (by decide +kernel)
  obtain ⟨hplans, hcloses, -⟩ :=
    threadFromRoot_replans hw hroot henters hlist (by simp [hbuffers, hsame])
  exact ⟨out, s, hroot, htally, hbuffers, hbuffers ▸ hplans, hlength, hcloses⟩

end BufferOwnership
