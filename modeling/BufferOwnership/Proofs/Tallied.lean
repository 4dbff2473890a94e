import BufferOwnership.Proofs.Slots

/-!
# The tally and the routine

Threading keeps a number for each kind of operation that it inserts. The marks of a routine say of
each entry which of the kinds it is, as long as it is not erased. `Counted` says which marks come in
between two sessions, and that the tally has followed. Every stage keeps that the marks behind those
of the original routine are those that the tally has counted (`Tallied`).
-/

namespace BufferOwnership

open Routine

/-! ## Marks -/

/-- The kinds of operations that are inserted. -/
inductive IndicatorKind where
  | own
  | retain
  | null
deriving DecidableEq

/-- Which of them an operation is by its kind. -/
def OpKind.indicatorKind? : OpKind → Option IndicatorKind
  | .own => some .own
  | .retain _ => some .retain
  | .null => some .null
  | _ => none

/-- What a tally has for one of them. -/
def Tally.inserted (t : Tally) : IndicatorKind → Nat
  | .own => t.owns
  | .retain => t.retains
  | .null => t.nulls

/-- Which of them an entry is, if it is not erased. -/
def Op.mark? (d : Op) : Option IndicatorKind :=
  if d.erased then none else d.kind.indicatorKind?

namespace Routine

/-- The marks of all entries, in order. -/
def marks (r : Routine) : List (Option IndicatorKind) := r.ops.toList.map Op.mark?

/-- How many live operations there are of a kind that is inserted. -/
def liveCount (r : Routine) (m : IndicatorKind) : Nat := r.marks.count (some m)

end Routine

variable {f r r' : Routine} {s s' mid : Session} {b : BlockId} {o t x : OpId} {v i : ValueId}
variable {operands indicators : List ValueId} {point : InsertPoint} {d : Op} {settings : Settings}
variable {m : IndicatorKind} {owned : ValueSet} {settled : List (Nat × ValueId)} {types : List Ty}
variable {pre post : List OpId} {kind : OpKind} {u : Unit}

theorem OpKind.indicatorKind?_of_construct {k : OpKind} (h : k.construct?.isSome = true) :
    k.indicatorKind? = none := by
  cases k <;> simp_all [OpKind.construct?, OpKind.indicatorKind?]

namespace Routine

variable {mark : Option IndicatorKind}

@[simp] theorem length_marks : r.marks.length = r.ops.size := by simp [marks]

theorem getElem?_marks (k : Nat) : r.marks[k]? = (r.op? ⟨k⟩).map Op.mark? := by
  simp [marks, op?]

theorem marks_congr (h : ∀ p, (r'.op? p).map Op.mark? = (r.op? p).map Op.mark?) :
    r'.marks = r.marks :=
  List.ext_getElem? fun k => by rw [getElem?_marks, getElem?_marks, h]

/-- A new entry adds a mark at the end. -/
theorem marks_concat (hold : ∀ p, p ≠ r.freshOp → (r'.op? p).map Op.mark? = (r.op? p).map Op.mark?)
    (hnew : (r'.op? r.freshOp).map Op.mark? = some mark) : r'.marks = r.marks ++ [mark] := by
  refine List.ext_getElem? fun k => ?_
  by_cases hk : k = r.ops.size
  · subst hk
    rw [getElem?_marks, List.getElem?_append_right (by simp)]
    simpa [freshOp] using hnew
  · have hne : (⟨k⟩ : OpId) ≠ r.freshOp := fun h => hk (congrArg OpId.index h)
    rw [getElem?_marks, hold _ hne, ← getElem?_marks]
    by_cases hlt : k < r.ops.size
    · rw [List.getElem?_append_left (by simpa using hlt)]
    · rw [List.getElem?_eq_none (by simp; omega), List.getElem?_eq_none (by simp; omega)]

/-- A changed entry changes the mark in its place. -/
theorem marks_set (hx : x.index < r.ops.size)
    (hold : ∀ p, p ≠ x → (r'.op? p).map Op.mark? = (r.op? p).map Op.mark?)
    (hnew : (r'.op? x).map Op.mark? = some mark) : r'.marks = r.marks.set x.index mark := by
  refine List.ext_getElem? fun k => ?_
  by_cases hk : x.index = k
  · subst hk
    rw [getElem?_marks, hnew, List.getElem?_set_self (by simpa using hx)]
  · have hne : (⟨k⟩ : OpId) ≠ x := fun h => hk (congrArg OpId.index h).symm
    rw [getElem?_marks, hold _ hne, List.getElem?_set_ne hk, getElem?_marks]

end Routine

theorem Emitted.marks (h : Emitted r r' b pre post kind operands types) :
    r'.marks = r.marks ++ [kind.indicatorKind?] := by
  refine marks_concat (fun p hp => ?_) ?_
  · rw [h.op, if_neg hp]
  · simp [h.op, Op.mark?]

/-- A construct has no mark, and neither has what it gives way to. -/
theorem Rebuilt.marks (h : Rebuilt r r' o d b pre post indicators types)
    (hcons : d.kind.construct?.isSome = true) : r'.marks = r.marks ++ [none] := by
  have hnone := OpKind.indicatorKind?_of_construct hcons
  refine marks_concat (fun p hp => ?_) ?_
  · rw [h.op, if_neg hp]
    by_cases hpo : p = o
    · subst hpo
      simp [h.old, Op.mark?, hnone]
    · rw [if_neg hpo]
      cases r.op? p with
      | none => rfl
      | some e => cases he : e.erased <;> simp [Op.mark?, Op.renew, he]
  · simp [h.op, Op.mark?, hnone]

/-- An erased operation loses its mark. -/
theorem marks_eraseOp (hd : r.op? x = some d) (hleaf : d.regions = [])
    (h : r.eraseOp x = .ok r') : r'.marks = r.marks.set x.index none := by
  obtain ⟨hop, -⟩ := eraseOp_leaf_entries hd hleaf h
  refine marks_set (lt_of_op? hd) (fun p hp => ?_) ?_
  · rw [hop, if_neg hp]
  · simp [hop, Op.mark?]

/-! ## Steps that are not counted -/

namespace Pass

variable {α β : Type}

/-- A step that leaves the marks and the tally as they are. -/
def Uncounted (x : Pass α) : Prop :=
  ∀ s a s', x s = .ok (a, s') → s'.routine.marks = s.routine.marks ∧ s'.tally = s.tally

namespace Uncounted

theorem pure (a : α) : Uncounted (Pure.pure a : Pass α) := by
  intro s b s' h
  rw [(pure_eq_ok.mp h).2]
  exact ⟨rfl, rfl⟩

theorem bind {x : Pass α} {g : α → Pass β} (hx : Uncounted x) (hg : ∀ a, Uncounted (g a)) :
    Uncounted (x >>= g) := by
  intro s b s' h
  obtain ⟨a, mid, hmid, h⟩ := bind_eq_ok.mp h
  obtain ⟨hmarks, htally⟩ := hx s a mid hmid
  obtain ⟨hmarks', htally'⟩ := hg a mid b s' h
  exact ⟨hmarks'.trans hmarks, htally'.trans htally⟩

theorem ask (query : Routine → Except Fault α) : Uncounted (Pass.ask query) := by
  intro s a s' h
  rw [(ask_eq_ok.mp h).2]
  exact ⟨rfl, rfl⟩

theorem aliases : Uncounted Pass.aliases := by
  intro s a s' h
  rw [(aliases_eq_ok h).2]
  exact ⟨rfl, rfl⟩

theorem modifyAliases (g : AliasClasses → AliasClasses) : Uncounted (Pass.modifyAliases g) :=
  fun _ _ _ h => ⟨by rw [(modifyAliases_eq_ok h).1], modifyAliases_tally h⟩

theorem reject (reason : Rejection) : Uncounted (Pass.reject reason : Pass α) :=
  fun _ _ _ h => absurd h reject_ne_ok

theorem edit {change : Edit α} (h : ∀ r a r', change r = .ok (a, r') → r'.marks = r.marks) :
    Uncounted (Pass.edit change) := by
  intro s a s' hedit
  obtain ⟨r', hchange, rfl⟩ := edit_eq_ok.mp hedit
  exact ⟨h _ _ _ hchange, rfl⟩

theorem ownArguments {args : List ValueId} :
    ∀ {owned : ValueSet}, Uncounted (Pass.ownArguments b args owned) := by
  induction args with
  | nil => exact fun {owned} => .pure owned
  | cons arg rest ih =>
    refine .bind (.edit fun r a r' h => marks_congr fun p => ?_) fun indicator =>
      .bind (.modifyAliases _) fun _ => ih
    rw [op?_addBlockArg h]

theorem openBlock (b : BlockId) (ownsInputs : Bool) : Uncounted (Pass.openBlock b ownsInputs) := by
  unfold Pass.openBlock
  split
  · exact .bind (.ask _) fun _ => .ownArguments
  · exact .pure _

theorem capture (site : ConstructSite) (g : RegionId) (acquired : List ValueId) (v : ValueId) :
    Uncounted (Pass.capture site g acquired v) := by
  refine .bind (.ask _) fun data => ?_
  split
  · exact .reject _
  · refine .bind (.ask _) fun yielded => .bind (.ask _) fun slot? => ?_
    split
    · exact .reject _
    · split
      · exact .reject _
      · refine .bind .aliases fun classes => ?_
        split
        · exact .reject _
        · exact .bind (.modifyAliases _) fun _ => .pure _

theorem captureAll (site : ConstructSite) (g : RegionId) {vs : List ValueId} :
    ∀ {acquired : List ValueId}, Uncounted (Pass.captureAll site g vs acquired) := by
  induction vs with
  | nil => exact fun {acquired} => .pure _
  | cons v rest ih =>
    exact .bind (.capture site g _ v) fun _ => .bind ih fun _ => .pure _

theorem reconcile (site : ConstructSite) (regions : List RegionOutcome) :
    Uncounted (Pass.reconcile site regions) := by
  unfold Pass.reconcile
  split
  · exact .pure _
  · split
    · simp only [Pass.reconcilePair]
      split
      · exact .pure _
      · exact .bind (.captureAll site _) fun _ => .bind (.captureAll site _) fun _ => .pure _
    · exact .reject _

theorem sendAcquired (out : RegionOutcome) : Uncounted (Pass.sendAcquired out) := by
  refine .bind (.ask _) fun b? => ?_
  split
  · exact .pure _
  · refine .bind (.ask _) fun t? => ?_
    split
    · exact .pure _
    · refine .edit fun r a r' h => marks_congr fun p => ?_
      obtain ⟨d, hd, rfl⟩ := appendOperands_eq_ok (Edit.change_eq_ok.mp h)
      rw [op?_modifyOp]
      split
      · cases r.op? p <;> rfl
      · rfl

theorem forM {x : α → Pass Unit} (hx : ∀ a, Uncounted (x a)) (l : List α) :
    Uncounted (l.forM x) := by
  induction l with
  | nil => exact .pure _
  | cons a rest ih => exact .bind (hx a) fun _ => ih

end Uncounted

end Pass

/-! ## Steps that are counted -/

/-- Between two sessions operations of the given kinds come in, in order, and the given number of
indicators goes into a construct; and the tally has it all. -/
structure Counted (added : List IndicatorKind) (taken : Nat) (s s' : Session) : Prop where
  marks : s'.routine.marks = s.routine.marks ++ added.map some
  inserted : ∀ m, s'.tally.inserted m = s.tally.inserted m + added.count m
  transfers : s'.tally.transfers = s.tally.transfers + taken

namespace Counted

variable {added added' : List IndicatorKind} {taken taken' : Nat}

theorem trans (h : Counted added taken s mid) (h' : Counted added' taken' mid s') :
    Counted (added ++ added') (taken + taken') s s' where
  marks := by rw [h'.marks, h.marks, List.map_append, List.append_assoc]
  inserted m := by rw [h'.inserted, h.inserted, List.count_append, Nat.add_assoc]
  transfers := by rw [h'.transfers, h.transfers, Nat.add_assoc]

theorem refl (s : Session) : Counted [] 0 s s := ⟨by simp, by simp, rfl⟩

theorem of_uncounted {α : Type} {x : Pass α} {a : α} (hx : Pass.Uncounted x)
    (h : x s = .ok (a, s')) : Counted [] 0 s s' := by
  obtain ⟨hmarks, htally⟩ := hx s a s' h
  exact ⟨by simp [hmarks], by simp [htally], by rw [htally]; rfl⟩

/-- An operation comes in, and one is added to the number for its kind. -/
theorem of_emission (h : Emit.operation point kind operands types 0 s.routine = .ok (x, s'.routine))
    (hkind : kind.indicatorKind? = some m)
    (htally : ∀ m', s'.tally.inserted m' = s.tally.inserted m' + [m].count m')
    (htransfers : s'.tally.transfers = s.tally.transfers) : Counted [m] 0 s s' := by
  obtain ⟨-, _, _, _, -, hemitted⟩ := Emit.operation_emitted h
  exact ⟨by rw [hemitted.marks, hkind]; rfl, htally, htransfers⟩

/-- Where retains are all that comes in, the other numbers stay. -/
theorem retains_only {n : Nat} (h : Counted (List.replicate n .retain) 0 s s') :
    ∃ k, s'.tally = { s.tally with retains := k } := by
  refine ⟨s'.tally.retains, ?_⟩
  have howns := h.inserted .own
  have hnulls := h.inserted .null
  have htransfers := h.transfers
  rw [List.count_replicate] at howns hnulls
  cases hs : s'.tally
  simp_all [Tally.inserted]

end Counted

theorem Pass.own_counted (h : Pass.own point v s = .ok (i, s')) : Counted [.own] 0 s s' := by
  obtain ⟨-, -, x, hop⟩ := Pass.own_eq_ok h
  obtain ⟨_, mid, hedit, h⟩ := Pass.bind_eq_ok.mp h
  obtain ⟨r', -, rfl⟩ := Pass.edit_eq_ok.mp hedit
  obtain ⟨_, mid', hmodify, h⟩ := Pass.bind_eq_ok.mp h
  obtain ⟨_, mid'', hcount, h⟩ := Pass.bind_eq_ok.mp h
  cases h
  have htally := Pass.count_tally hcount
  rw [Pass.modifyAliases_tally hmodify] at htally
  exact .of_emission hop rfl (fun m' => by cases m' <;> simp [htally, Tally.inserted])
    (by rw [htally])

theorem Pass.retain_counted {retained owned : List ValueId}
    (h : Pass.retain point retained owned s = .ok (x, s')) : Counted [.retain] 0 s s' := by
  obtain ⟨hop, -⟩ := Pass.retain_eq_ok h
  obtain ⟨-, -, htally⟩ := Pass.counted_edit_eq_ok h
  exact .of_emission hop rfl (fun m' => by cases m' <;> simp [htally, Tally.inserted])
    (by rw [htally])

theorem Pass.null_counted (h : Pass.null point s = .ok (i, s')) : Counted [.null] 0 s s' := by
  obtain ⟨-, -, x, hop⟩ := Pass.null_eq_ok h
  obtain ⟨-, -, htally⟩ := Pass.counted_edit_eq_ok h
  exact .of_emission hop rfl (fun m' => by cases m' <;> simp [htally, Tally.inserted])
    (by rw [htally])

/-- Each buffer that is allocated gets an own. -/
theorem Pass.ownAll_counted {buffers : List ValueId}
    (h : Pass.ownAll point buffers s = .ok (indicators, s')) :
    Counted (List.replicate buffers.length .own) 0 s s' := by
  induction buffers generalizing s indicators with
  | nil =>
    cases h
    exact .refl _
  | cons v buffers ih =>
    obtain ⟨i, others, mid, -, hown, hothers⟩ := Pass.ownAll_cons h
    exact (Pass.own_counted hown).trans (ih hothers)

theorem Counted.trans_retains {s₁ s₂ s₃ : Session}
    (h : ∃ n, Counted (List.replicate n .retain) 0 s₁ s₂)
    (h' : ∃ n, Counted (List.replicate n .retain) 0 s₂ s₃) :
    ∃ n, Counted (List.replicate n .retain) 0 s₁ s₃ := by
  obtain ⟨n, hn⟩ := h
  obtain ⟨k, hk⟩ := h'
  refine ⟨n + k, ?_⟩
  rw [← List.replicate_append_replicate]
  exact hn.trans hk

theorem Pass.settleGroup_counted {group : EscapeGroup}
    (h : Pass.settleGroup t group s = .ok (settled, s')) :
    ∃ n, Counted (List.replicate n .retain) 0 s s' := by
  unfold Pass.settleGroup at h
  split at h
  · cases h
    exact ⟨0, .refl s⟩
  · obtain ⟨x, mid, hretain, h⟩ := Pass.bind_eq_ok.mp h
    refine ⟨1, (Pass.retain_counted hretain).trans (.of_uncounted ?_ h)⟩
    exact .bind (.ask _) fun _ => .bind (.modifyAliases _) fun _ => .pure _

/-- Closing a block inserts retains only: a slot that is left over for a null does not occur. -/
theorem closeBlock_counted {acquired : List ValueId} (hb : Booked f s.routine)
    (howned : ∀ i ∈ owned, i.index < s.routine.values.size)
    (h : Pass.closeBlock settings t owned s = .ok (acquired, s')) :
    ∃ n, Counted (List.replicate n .retain) 0 s s' := by
  obtain ⟨escaping, mid, settled, -, hrelease, hsettle, -⟩ := closeBlock_settled hb howned h
  have hreleased := Pass.releaseUnescaped_chain
    (R := fun s s' => ∃ n, Counted (List.replicate n .retain) 0 s s') (fun s => ⟨0, .refl s⟩)
    Counted.trans_retains (fun _ _ _ hretain => ⟨1, Pass.retain_counted hretain⟩) hrelease
  have hsettled := Pass.settleGroups_chain
    (R := fun s s' => ∃ n, Counted (List.replicate n .retain) 0 s s') (fun s => ⟨0, .refl s⟩)
    Counted.trans_retains (fun _ => Pass.settleGroup_counted) hsettle
  exact Counted.trans_retains hreleased hsettled

/-- A construct's operand gets an indicator that is there, counted as a transfer, or a new null. -/
theorem Pass.transferOperands_counted {released released' : ValueSet}
    (h : Pass.transferOperands settings o owned operands released s = .ok ((indicators,
      released'), s')) :
    ∃ nulls taken, Counted (List.replicate nulls .null) taken s s' ∧
      nulls + taken = operands.length ∧ (settings.transfer = false → taken = 0) ∧
      ∀ n, (∀ i ∈ owned, i.index < n) → n ≤ s.routine.values.size →
        taken = indicators.countP (·.index < n) := by
  induction operands generalizing s indicators released with
  | nil =>
    obtain ⟨heq, rfl⟩ := Pass.pure_eq_ok.mp h
    obtain ⟨rfl, -⟩ := Prod.mk.inj heq
    exact ⟨0, 0, .refl s, rfl, fun _ => rfl, fun _ _ _ => rfl⟩
  | cons v operands ih =>
    obtain ⟨i?, _, htransfer, h⟩ := Pass.bind_eq_ok.mp h
    obtain ⟨rfl, hi⟩ := transferable?_eq_ok htransfer
    cases i? with
    | some i =>
      -- an indicator that the block owns goes in, so it is older than what is inserted from now on
      obtain ⟨_, mid, hcount, h⟩ := Pass.bind_eq_ok.mp h
      obtain ⟨⟨others, last⟩, _, hothers, h⟩ := Pass.bind_eq_ok.mp h
      cases h
      have hi := hi i rfl
      obtain ⟨hroutine, -⟩ := Pass.count_eq_ok hcount
      have htally := Pass.count_tally hcount
      have hfirst : Counted [] 1 s mid :=
        ⟨by simp [hroutine], fun m => by cases m <;> simp [htally, Tally.inserted], by rw [htally]⟩
      obtain ⟨nulls, taken, hcounted, hlen, -, htaken⟩ := ih hothers
      refine ⟨nulls, 1 + taken, hfirst.trans hcounted, ?_, fun hoff => ?_, fun n howned hn => ?_⟩
      · rw [List.length_cons, ← hlen]
        omega
      · rw [hi.allowed] at hoff
        cases hoff
      · rw [List.countP_cons_of_pos (by simpa using howned i hi.mem),
          htaken n howned (hroutine ▸ hn), Nat.add_comm]
    | none =>
      -- a null is inserted, and its result is a new entry
      obtain ⟨i, mid, hnull, h⟩ := Pass.bind_eq_ok.mp h
      obtain ⟨⟨others, last⟩, _, hothers, h⟩ := Pass.bind_eq_ok.mp h
      cases h
      obtain ⟨rfl, -, x, hemit⟩ := Pass.null_eq_ok hnull
      obtain ⟨-, _, _, _, -, hemitted⟩ := Emit.operation_emitted hemit
      obtain ⟨nulls, taken, hcounted, hlen, hnone, htaken⟩ := ih hothers
      have hall := (Pass.null_counted hnull).trans hcounted
      rw [Nat.zero_add] at hall
      refine ⟨nulls + 1, taken, hall, ?_, hnone, fun n howned hn => ?_⟩
      · rw [List.length_cons, ← hlen]
        omega
      · rw [List.countP_cons_of_neg (by simpa using hn),
          htaken n howned (Nat.le_trans hn (by simp [hemitted.size_values]))]

/-! ## What a run keeps -/

/-- The marks behind those of the original routine are what the tally has counted. -/
def Tallied (f : Routine) (s : Session) : Prop :=
  ∀ m, (s.routine.marks.drop f.ops.size).count (some m) = s.tally.inserted m

theorem Threaded.size_ops_le (ht : Threaded f s) : f.ops.size ≤ s.routine.ops.size := by
  by_contra hlt
  have hf : f.op? s.routine.freshOp ≠ none := by
    obtain ⟨d, hd⟩ := exists_op? (r := f) (o := s.routine.freshOp) (Nat.not_le.mp hlt)
    simp [hd]
  exact ht.op? hf (op?_freshOp _)

/-- An operation that comes from the run has its mark behind those of the original routine. -/
theorem le_index_of_op?_eq_none (h : f.op? x = none) : f.ops.size ≤ x.index := by
  by_contra hlt
  obtain ⟨d, hd⟩ := exists_op? (r := f) (Nat.not_le.mp hlt)
  rw [hd] at h
  cases h

namespace Tallied

theorem start (f : Routine) : Tallied f (.start f) := by
  intro m
  rw [List.drop_eq_nil_of_le (by simp [Session.start])]
  cases m <;> rfl

theorem counted {added : List IndicatorKind} {taken : Nat} (h : Tallied f s)
    (hsize : f.ops.size ≤ s.routine.ops.size) (hc : Counted added taken s s') : Tallied f s' := by
  intro m
  have hsome : (added.map some).count (some m) = added.count m :=
    List.count_map_of_injective added some (Option.some_injective _) m
  rw [hc.marks, List.drop_append_of_le_length (by simpa using hsize), List.count_append, h m, hsome,
    hc.inserted]

/-- A construct that gives way to a new one is not counted. -/
theorem concat_none (h : Tallied f s) (hsize : f.ops.size ≤ s.routine.ops.size)
    (hmarks : s'.routine.marks = s.routine.marks ++ [none]) (htally : s'.tally = s.tally) :
    Tallied f s' := by
  intro m
  rw [hmarks, List.drop_append_of_le_length (by simpa using hsize), List.count_append, h m, htally]
  rfl

/-- A retain that is erased is taken off the tally. It has been counted before. -/
theorem erase (h : Tallied f s) (hf : f.op? x = none) (hd : s.routine.op? x = some d)
    (hkind : ∃ n, d.kind = .retain n) (hlive : d.erased = false) (hleaf : d.regions = [])
    (herase : s.routine.eraseOp x = .ok s'.routine)
    (htally : s'.tally = { s.tally with retains := s.tally.retains - 1 }) : Tallied f s' := by
  intro m
  obtain ⟨n, hkind⟩ := hkind
  have hle := le_index_of_op?_eq_none hf
  have hmark : (s.routine.marks.drop f.ops.size)[x.index - f.ops.size]? =
      some (some IndicatorKind.retain) := by
    rw [List.getElem?_drop, Nat.add_sub_cancel' hle, getElem?_marks]
    simp [hd, Op.mark?, hlive, hkind, OpKind.indicatorKind?]
  obtain ⟨hlt, hget⟩ := List.getElem?_eq_some_iff.mp hmark
  rw [marks_eraseOp hd hleaf herase, List.drop_set, if_neg (Nat.not_lt.mpr hle),
    List.count_set hlt, hget, h m, htally]
  cases m <;> simp [Tally.inserted]

end Tallied

/-- Retains that are dropped are taken off the tally, one by one. -/
theorem dropAll_tallied (hw : f.WellFormed) {displaced : List ValueId} (ht : Threaded f s)
    (hdisplaced : ∀ i ∈ displaced, Displaced f s.routine o i)
    (h : displaced.forM Pass.dropIfDead s = .ok (u, s')) :
    (Tallied f s → Tallied f s') ∧ ∃ n, s'.tally = { s.tally with retains := n } := by
  induction displaced generalizing s with
  | nil =>
    cases h
    exact ⟨id, _, rfl⟩
  | cons i rest ih =>
    obtain ⟨_, mid, hdrop, h⟩ := Pass.bind_eq_ok.mp h
    have hi := hdisplaced i (by simp)
    obtain ⟨hrun, -, hkeep⟩ := dropIfDead_spec ht hw hi hdrop
    obtain ⟨hrest, n, hn⟩ :=
      ih (ht.run hw hrun) (fun j hj => hkeep j (hdisplaced j (by simp [hj]))) h
    rcases hi.dropped ht hw hdrop with
      rfl | ⟨x, d, hf, hd, hkind, hlive, hleaf, -, -, herase, -, htally⟩
    · exact ⟨hrest, n, hn⟩
    · refine ⟨fun hs => hrest (hs.erase hf hd ⟨_, hkind⟩ hlive hleaf herase htally), n, ?_⟩
      rw [hn, htally]

section Construct

variable {site : ConstructSite} {outs : List RegionOutcome} {front rest : List OpId} {out : Outcome}

/-- Up to where its operands are provided for, a construct loses retains at most. -/
theorem ConstructPass.drops_tallied (hw : f.WellFormed) (ht : Threaded f s)
    (pass : ConstructPass f settings o d owned site outs s b front rest out s') :
    (Tallied f pass.sent → Tallied f pass.inside) ∧
      ∃ n, pass.inside.tally = { pass.sent.tally with retains := n } := by
  have hdisplaced : ∀ i ∈ pass.agreed.displaced, Displaced f pass.sent.routine o i := fun i hi => by
    have hi := pass.agrees.displaced i hi
    rw [← pass.forgets.routine] at hi
    exact hi.keep pass.run_sends.keeps fun c _ => pass.run_sends.opsOf id
  have ht' := (pass.forgets.threaded ht hw).run hw pass.run_sends
  exact dropAll_tallied hw ht' hdisplaced pass.drops

theorem ConstructPass.uncounted_sent
    (pass : ConstructPass f settings o d owned site outs s b front rest out s') :
    pass.sent.routine.marks = s.routine.marks ∧ pass.sent.tally = s.tally := by
  obtain ⟨hmarks, htally⟩ := Pass.Uncounted.reconcile _ _ _ _ _ pass.reconciles
  obtain ⟨hmarks', htally'⟩ :=
    Pass.Uncounted.forM (fun out => .sendAcquired out) _ _ _ _ pass.sends
  exact ⟨hmarks'.trans hmarks, htally'.trans htally⟩

theorem ConstructPass.tally_inside (hw : f.WellFormed) (ht : Threaded f s)
    (pass : ConstructPass f settings o d owned site outs s b front rest out s') :
    ∃ n, pass.inside.tally = { s.tally with retains := n } := by
  obtain ⟨-, n, hn⟩ := pass.drops_tallied hw ht
  exact ⟨n, by rw [hn, pass.uncounted_sent.2]⟩

theorem ConstructPass.tallied (hw : f.WellFormed) (ht : Threaded f s) (hd : f.op? o = some d)
    (hcons : f.isConstruct o = true)
    (pass : ConstructPass f settings o d owned site outs s b front rest out s')
    (hs : Tallied f s) : Tallied f s' := by
  obtain ⟨nulls, taken, hcounted, -⟩ := Pass.transferOperands_counted pass.transfers
  have hsent : Tallied f pass.sent := fun m => by
    rw [pass.uncounted_sent.1, pass.uncounted_sent.2]
    exact hs m
  have hs₁ := ((pass.drops_tallied hw ht).1 hsent).counted pass.threaded.size_ops_le hcounted
  obtain ⟨-, pre, post, types, hrebuilt⟩ := pass.exists_rebuilt
  refine hs₁.concat_none pass.threaded'.size_ops_le ?_ pass.tally
  rw [pass.routine]
  apply hrebuilt.marks
  rw [pass.entry_kind]
  simpa [isConstruct_of hd] using hcons

end Construct

theorem Stage.tallied (hw : f.WellFormed) (h : Stage f settings s s') (hs : Tallied f s) :
    Tallied f s' := by
  have hsize := (h.spec hw).1.size_ops_le
  cases h with
  | opens _ _ _ hopens => exact hs.counted hsize (.of_uncounted (.openBlock _ _) hopens)
  | effects _ _ _ hown => exact hs.counted hsize (Pass.ownAll_counted hown)
  | plain _ _ _ _ _ hroutine _ htally =>
    intro m
    rw [hroutine, htally]
    exact hs m
  | closes ht _ _ _ htokens _ hcloses =>
    obtain ⟨n, hn⟩ := closeBlock_counted (ht.booked hw) (fun i hi => (htokens i hi).known) hcloses
    exact hs.counted hsize hn
  | finishes ht hvisited hd _ _ pass _ => exact pass.tallied hw ht hd hvisited.2 hs

theorem Stages.tallied (hw : f.WellFormed) (h : Stages f settings s s') (hs : Tallied f s) :
    Tallied f s' := by
  induction h with
  | refl => exact hs
  | tail _ hstage ih => exact hstage.tallied hw ih

/-! ## The end of a run -/

/-- The entries of the original routine keep their marks: what is erased of them has none. -/
theorem Threaded.marks_take (ht : Threaded f s) : s.routine.marks.take f.ops.size = f.marks := by
  obtain ⟨δ, hδ⟩ := ht.embedded
  refine List.ext_getElem? fun k => ?_
  by_cases hk : k < f.ops.size
  · rw [List.getElem?_take_of_lt hk, getElem?_marks, getElem?_marks]
    obtain ⟨d, hd⟩ := exists_op? (r := f) (o := ⟨k⟩) hk
    obtain ⟨e, he, hkind, -, hsame⟩ := hδ.change.kept _ d hd
    rw [hd, he, Option.map_some, Option.map_some, Option.some_inj]
    by_cases hlive : d.erased = true
    · rw [hsame hlive]
    · by_cases hop : δ.op ⟨k⟩ = ⟨k⟩
      · obtain ⟨e', he', hgrown⟩ :=
          hδ.change.image _ d hd (by simpa using hlive) (hδ.lossless _)
        rw [hop, he] at he'
        cases he'
        simp [Op.mark?, hgrown.live, hkind, hlive]
      · -- a construct that was rebuilt had no mark before either
        have hcons := (hδ.change.renamed _ hop).1
        simp only [isConstruct_of hd] at hcons
        have hnone := OpKind.indicatorKind?_of_construct hcons
        simp [Op.mark?, hkind, hnone]
  · rw [List.getElem?_eq_none (by simp; omega), List.getElem?_eq_none (by simp; omega)]

/-- What the tally has counted is what the routine has more than the original one. -/
theorem Tallied.liveCount (hs : Tallied f s) (ht : Threaded f s) (m : IndicatorKind) :
    s.routine.liveCount m = f.liveCount m + s.tally.inserted m := by
  rw [Routine.liveCount, Routine.liveCount, ← hs m, ← ht.marks_take, ← List.count_append,
    List.take_append_drop]

end BufferOwnership
