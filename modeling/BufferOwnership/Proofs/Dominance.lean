import BufferOwnership.Proofs.Erasure

/-!
# Definitions dominate uses

Threading ownership keeps a routine well formed. What the result uses is defined, by a block
argument or by an operation that is not erased, and the definition comes before the use in the same
block or in one around it. This holds of what was there before and of all that was inserted.
-/

namespace BufferOwnership

open Routine

variable {f g r : Routine} {o p : OpId} {b : BlockId} {v : ValueId} {front : List OpId}

/-- A block whose operations are reached. -/
def Routine.ReachedBlock (r : Routine) (b : BlockId) : Prop :=
  ∃ o, r.holder? b = some o ∧ r.Reached o

theorem Routine.ReachedBlock.op (hl : r.Linked) (hb : r.ReachedBlock b) (hp : p ∈ r.opsOf b) :
    r.Reached p := by
  obtain ⟨o, hholder, ho⟩ := hb
  exact ho.step ((hl.up?_of_mem hp).trans hholder)

theorem Routine.WellFormed.reachedBlock (hw : r.WellFormed) (ho : r.Reached o)
    (hparent : r.parent? o = some b) : r.ReachedBlock b :=
  ho.exists_holder hw.root_unlinked hparent

/-- What is visible in a reached block is an argument there or a result of a reached operation. -/
theorem Routine.Visible.definer (h : r.Visible b front v) (hw : r.WellFormed)
    (hb : r.ReachedBlock b) (hfront : ∀ p ∈ front, p ∈ r.opsOf b) :
    (∃ c, r.ReachedBlock c ∧ v ∈ r.argsOf c) ∨
      ∃ p, r.Reached p ∧ r.isErased p = false ∧ v ∈ r.resultsOf p := by
  induction h with
  | argument harg => exact .inl ⟨_, hb, harg⟩
  | earlier hp hres =>
    have hreached := hb.op hw.linked (hfront _ hp)
    exact .inr ⟨_, hreached, hw.live _ hreached, hres⟩
  | @enclosing b c front before after v o hholder hlist _ ih =>
    obtain ⟨o', hholder', ho⟩ := hb
    obtain rfl := Option.mem_unique hholder hholder'
    have hparent := (hw.linked.op_listed o c).mp (by simp [hlist])
    exact ih (hw.reachedBlock ho hparent) fun p hp => by simp [hlist, hp]

/-- The operands of reached operations are defined by what is reached and not erased. -/
theorem Routine.WellFormed.definer (hw : r.WellFormed) (ho : r.Reached o)
    (hv : v ∈ r.operandsOf o) :
    (∃ c, r.ReachedBlock c ∧ v ∈ r.argsOf c) ∨
      ∃ p, r.Reached p ∧ r.isErased p = false ∧ v ∈ r.resultsOf p := by
  obtain ⟨b, front, rest, hlist, hvis⟩ := hw.in_scope o ho v hv
  have hparent := (hw.linked.op_listed o b).mp (by simp [hlist])
  exact hvis.definer hw (hw.reachedBlock ho hparent) fun p hp => by simp [hlist, hp]

/-- Threading ownership keeps links and scopes: the result is well formed, and what it uses is
defined by arguments and operations that are there. -/
theorem threadOwnership_wellFormed (hw : f.WellFormed) (settings : Settings) {report : Report}
    (h : f.threadOwnership settings = .ok (report, g)) :
    g.WellFormed ∧ ∀ o, g.Reached o → ∀ v ∈ g.operandsOf o,
      (∃ c, g.ReachedBlock c ∧ v ∈ g.argsOf c) ∨
        ∃ p, g.Reached p ∧ g.isErased p = false ∧ v ∈ g.resultsOf p := by
  obtain ⟨out, s, hroot, rfl, -⟩ := threadOwnership_eq_ok h
  have hwell := (threadFromRoot_spec hw hroot).1.wellFormed
  exact ⟨hwell, fun o ho v hv => hwell.definer ho hv⟩

theorem threadOwnership_wellFormed_renewal :
    ∃ report g, renewalRoutine.threadOwnership {} = .ok (report, g) ∧ g.WellFormed := by
  obtain ⟨⟨report, g⟩, h⟩ :=
    exists_of_toBool (x := renewalRoutine.threadOwnership {}) (by decide +kernel)
  exact ⟨report, g, h, (threadOwnership_wellFormed renewalRoutine_wellFormed {} h).1⟩

end BufferOwnership
