import BufferOwnership.Alias.Calls
import BufferOwnership.Proofs.Aliases

/-!
# What alias classes answer

A call of alias classes is answered from the calls before it. `Together` says which values belong
together by then, and `Holds` which indicator a buffer has. Both are read off the list of calls
alone; `Reflects` ties them to the links and records that are kept instead, and holds after every
call, although questions register values and shorten ways.
-/

namespace BufferOwnership

namespace AliasClasses

/-! ## What the calls so far say -/

def Call.joins? : Call → Option (ValueId × ValueId)
  | .union a b => some (a, b)
  | .setIndicator buffer indicator => some (buffer, indicator)
  | _ => none

def joined (calls : List Call) : List (ValueId × ValueId) := calls.filterMap Call.joins?

/-- Two values are related by the least equivalence that relates every pair joined so far. -/
def Together (past : List Call) : ValueId → ValueId → Prop :=
  Relation.EqvGen fun a b => (a, b) ∈ joined past

/-- Does a call change what is recorded for a buffer? -/
def Call.settles (buffer : ValueId) : Call → Bool
  | .setIndicator b _ => b = buffer
  | .takeIndicator b => b = buffer
  | _ => false

/-- An indicator is the last one recorded for exactly this buffer, and it has not been taken. -/
def Holds (past : List Call) (buffer indicator : ValueId) : Prop :=
  ∃ before after, past = before ++ .setIndicator buffer indicator :: after ∧
    ∀ call ∈ after, call.settles buffer = false

def answerTo (past : List Call) (call : Call) : Answer := ((empty.run past).2.call call).1

variable {c c' : AliasClasses} {past : List Call} {q : Call} {a b buffer i : ValueId}

theorem joined_append (past rest : List Call) :
    joined (past ++ rest) = joined past ++ joined rest :=
  List.filterMap_append

theorem Together.equivalence (past : List Call) : Equivalence (Together past) :=
  Relation.EqvGen.is_equivalence _

theorem Together.mono (h : Together past a b) (rest : List Call) : Together (past ++ rest) a b := by
  refine Relation.EqvGen.mono (fun x y hxy => ?_) a b h
  rw [joined_append]
  exact List.mem_append_left _ hxy

/-- A call that settles nothing about a buffer leaves its indicator. -/
theorem holds_append_of_not_settles (h : q.settles buffer = false) :
    Holds (past ++ [q]) buffer i ↔ Holds past buffer i := by
  constructor
  · rintro ⟨before, after, hpast, hafter⟩
    rcases List.eq_nil_or_concat after with rfl | ⟨init, last, rfl⟩
    · -- the call itself is not the one that recorded the indicator
      obtain ⟨-, hlast⟩ := List.append_inj' hpast rfl
      rw [List.singleton_inj.mp hlast] at h
      simp [Call.settles] at h
    · rw [List.concat_eq_append, ← List.cons_append, ← List.append_assoc] at hpast
      obtain ⟨rfl, -⟩ := List.append_inj' hpast rfl
      exact ⟨before, init, rfl, fun c hc => hafter c (by simp [hc])⟩
  · rintro ⟨before, after, rfl, hafter⟩
    refine ⟨before, after ++ [q], by simp, fun c hc => ?_⟩
    rcases List.mem_append.mp hc with hc | hc
    · exact hafter c hc
    · rwa [List.mem_singleton.mp hc]

/-- After a call that settles what a buffer has, nothing before it matters. -/
theorem holds_append_of_settles (h : q.settles buffer = true) :
    Holds (past ++ [q]) buffer i ↔ q = .setIndicator buffer i := by
  constructor
  · rintro ⟨before, after, hpast, hafter⟩
    rcases List.eq_nil_or_concat after with rfl | ⟨init, last, rfl⟩
    · exact List.singleton_inj.mp (List.append_inj' hpast rfl).2
    · rw [List.concat_eq_append, ← List.cons_append, ← List.append_assoc] at hpast
      -- the call comes after the one that recorded the indicator, so it would not settle
      obtain rfl : q = last := List.singleton_inj.mp (List.append_inj' hpast rfl).2
      rw [hafter q (by simp)] at h
      cases h
  · rintro rfl
    exact ⟨past, [], rfl, by simp⟩

/-! ## What is kept reflects the calls -/

/-- The classes and the recorded indicators are those that some calls lead to. -/
structure Reflects (past : List Call) (c : AliasClasses) : Prop where
  sound : c.Sound
  same : ∀ a b, c.same a b = true ↔ Together past a b
  indicator : ∀ buffer i, c.indicatorOf? buffer = some i ↔ Holds past buffer i

theorem Reflects.empty : Reflects [] empty where
  sound := .empty
  same a b := by
    rw [same_empty_iff]
    constructor
    · rintro rfl
      exact .refl a
    · intro h
      induction h with
      | rel _ _ hmem => cases hmem
      | refl _ => rfl
      | symm _ _ _ ih => exact ih.symm
      | trans _ _ _ _ _ ih ih' => exact ih.trans ih'
  indicator buffer i := by
    constructor
    · intro h
      cases h
    · rintro ⟨before, after, hpast, -⟩
      simp at hpast

/-- Classes in which every value keeps its leader are the same classes. -/
theorem Joins.of_agrees (h : c.Sound → Agrees c c') : Joins c [] c' where
  grows hsound := ⟨(h hsound).sound, fun a b hab => by
    simpa only [AliasClasses.same, (h hsound).leader] using hab⟩
  joined _ := by simp
  least hsound R _ hold _ a b hab :=
    hold a b (by simpa only [AliasClasses.same, (h hsound).leader] using hab)

theorem Sound.find_find (h : c.Sound) (a b : ValueId) : Agrees c ((c.find a).2.find b).2 :=
  (h.find a).2.1.trans ((h.find a).2.1.sound.find b).2.1

theorem call_equivalent_of_ne (c : AliasClasses) (hab : a ≠ b) :
    c.call (.equivalent a b) =
      (.truth ((c.find a).1 = ((c.find a).2.find b).1), ((c.find a).2.find b).2) :=
  if_neg hab

/-- A call joins its pair, if it has one, and nothing else. -/
theorem joins_call (c : AliasClasses) (q : Call) : Joins c (joined [q]) (c.call q).2 := by
  cases q with
  | union a b =>
    simp only [AliasClasses.call]
    exact .union c a b
  | equivalent a b =>
    by_cases hab : a = b
    · rw [AliasClasses.call, if_pos hab]
      exact .of_links rfl
    · simp only [call_equivalent_of_ne c hab]
      exact .of_agrees fun h => h.find_find a b
  | leader a =>
    simp only [AliasClasses.call]
    exact .of_agrees fun h => (h.find a).2.1
  | setIndicator buffer i =>
    simp only [AliasClasses.call]
    exact .setIndicator c buffer i
  | indicatorOf buffer => exact .of_links rfl
  | takeIndicator buffer => exact .of_links rfl

/-- Dropping the entries of one key does not change what another key has. -/
theorem lookup_filter_ne {other : ValueId} (hne : other ≠ buffer)
    (entries : List (ValueId × ValueId)) :
    (entries.filter fun entry => entry.1 ≠ other).lookup buffer = entries.lookup buffer := by
  induction entries with
  | nil => rfl
  | cons entry entries ih =>
    obtain ⟨key, value⟩ := entry
    by_cases hkey : key = other
    · have hbuffer : (buffer == key) = false := by simpa [hkey] using Ne.symm hne
      rw [List.filter_cons_of_neg (by simpa using hkey), List.lookup_cons, hbuffer, ih]
    · rw [List.filter_cons_of_pos (by simpa using hkey), List.lookup_cons, List.lookup_cons, ih]

/-- Nothing is left of a key whose entries are dropped. -/
theorem lookup_filter_self (buffer : ValueId) (entries : List (ValueId × ValueId)) :
    (entries.filter fun entry => entry.1 ≠ buffer).lookup buffer = none := by
  rw [List.lookup_eq_none_iff]
  intro entry hentry
  have hne : entry.1 ≠ buffer := by simpa using (List.mem_filter.mp hentry).2
  simpa using Ne.symm hne

/-- A call that settles nothing about a buffer keeps its record. -/
theorem indicatorOf?_call (h : q.settles buffer = false) :
    (c.call q).2.indicatorOf? buffer = c.indicatorOf? buffer := by
  unfold indicatorOf?
  cases q with
  | union a b => rw [AliasClasses.call, indicators_union]
  | equivalent a b =>
    by_cases hab : a = b
    · rw [AliasClasses.call, if_pos hab]
    · rw [call_equivalent_of_ne c hab, indicators_find, indicators_find]
  | leader a => exact congrArg (List.lookup buffer) (indicators_find c a)
  | setIndicator other i =>
    have hne : other ≠ buffer := by simpa [Call.settles] using h
    have hbuffer : (buffer == other) = false := by simpa using Ne.symm hne
    rw [AliasClasses.call, setIndicator, indicators_union, List.lookup_cons, hbuffer]
    exact lookup_filter_ne hne _
  | indicatorOf other => rfl
  | takeIndicator other =>
    have hne : other ≠ buffer := by simpa [Call.settles] using h
    exact lookup_filter_ne hne _

/-- A call keeps what is kept in step with the calls. -/
theorem Reflects.call (h : Reflects past c) (q : Call) : Reflects (past ++ [q]) (c.call q).2 := by
  have hjoins := joins_call c q
  refine ⟨(hjoins.grows h.sound).1, fun a b => ⟨fun hab => ?_, fun hab => ?_⟩, fun buffer i => ?_⟩
  · -- a call joins no more than it says, and what was together is together still
    refine hjoins.least h.sound _ (Together.equivalence _)
      (fun a b hab => ((h.same a b).mp hab).mono [q]) (fun pair hpair => .rel _ _ ?_) a b hab
    rw [joined_append]
    exact List.mem_append_right _ hpair
  · -- the induction is on how the two values come to be related
    induction hab with
    | rel x y hxy =>
      rw [joined_append] at hxy
      rcases List.mem_append.mp hxy with hold | hnew
      · exact (hjoins.grows h.sound).2 x y ((h.same x y).mpr (.rel x y hold))
      · exact hjoins.joined h.sound (x, y) hnew
    | refl x => exact same_self _ x
    | symm x y _ ih => exact same_symm ih
    | trans x y z _ _ ih ih' => exact same_trans ih ih'
  · -- only two kinds of calls settle what a buffer has
    cases hsettles : q.settles buffer with
    | false => rw [indicatorOf?_call hsettles, holds_append_of_not_settles hsettles, h.indicator]
    | true =>
      rw [holds_append_of_settles hsettles]
      cases q with
      | setIndicator other j =>
        obtain rfl : other = buffer := by simpa [Call.settles] using hsettles
        rw [AliasClasses.call, indicatorOf?, setIndicator, indicators_union, List.lookup_cons_self,
          Option.some.injEq, Call.setIndicator.injEq, and_iff_right rfl]
      | takeIndicator other =>
        obtain rfl : other = buffer := by simpa [Call.settles] using hsettles
        have hgone : (c.dropIndicator other).indicatorOf? other = none :=
          lookup_filter_self other c.indicators
        simp [AliasClasses.call, hgone]
      | union _ _ => cases hsettles
      | equivalent _ _ => cases hsettles
      | leader _ => cases hsettles
      | indicatorOf _ => cases hsettles

theorem run_append (c : AliasClasses) (past rest : List Call) :
    (c.run (past ++ rest)) =
      ((c.run past).1 ++ ((c.run past).2.run rest).1, ((c.run past).2.run rest).2) := by
  induction past generalizing c with
  | nil => rfl
  | cons call past ih => simp only [List.cons_append, run, ih]

theorem length_run (c : AliasClasses) (calls : List Call) :
    (c.run calls).1.length = calls.length := by
  induction calls generalizing c with
  | nil => rfl
  | cons call calls ih => simp only [run, List.length_cons, ih]

/-- Any number of calls keeps what is kept in step with the calls. -/
theorem Reflects.run (h : Reflects past c) (calls : List Call) :
    Reflects (past ++ calls) (c.run calls).2 := by
  induction calls generalizing past c with
  | nil => simpa [AliasClasses.run] using h
  | cons call calls ih => simpa [AliasClasses.run] using ih (h.call call)

theorem reflects_run (past : List Call) : Reflects past (empty.run past).2 := by
  simpa using Reflects.empty.run past

/-! ## Answers -/

/-- A call that joins nothing changes no leader. -/
theorem leader_call (h : c.Sound) (hq : q.joins? = none) (a : ValueId) :
    (c.call q).2.leader a = c.leader a := by
  cases q with
  | union _ _ => cases hq
  | equivalent x y =>
    by_cases hxy : x = y
    · rw [AliasClasses.call, if_pos hxy]
    · rw [call_equivalent_of_ne c hxy, (h.find_find x y).leader]
  | leader x => exact (h.find x).2.1.leader a
  | setIndicator _ _ => cases hq
  | indicatorOf _ => rfl
  | takeIndicator buffer =>
    have hlinks : (c.dropIndicator buffer).links = c.links := rfl
    simp only [AliasClasses.call, leader_of_links hlinks]

theorem leader_run (h : Reflects past c) {questions : List Call}
    (hquestions : ∀ q ∈ questions, q.joins? = none) (a : ValueId) :
    (c.run questions).2.leader a = c.leader a := by
  induction questions generalizing past c with
  | nil => rfl
  | cons q questions ih =>
    rw [AliasClasses.run, ih (h.call q) fun q' hq' => hquestions q' (by simp [hq'])]
    exact leader_call h.sound (hquestions q (by simp)) a

theorem answerTo_leader (past : List Call) (a : ValueId) :
    answerTo past (.leader a) = .value ((empty.run past).2.leader a) :=
  congrArg Answer.value ((reflects_run past).sound.find a).1

theorem answerTo_equivalent (past : List Call) (a b : ValueId) :
    answerTo past (.equivalent a b) = .truth ((empty.run past).2.same a b) := by
  obtain ⟨hleader, hagrees, -⟩ := (reflects_run past).sound.find a
  unfold answerTo
  by_cases hab : a = b
  · rw [AliasClasses.call, if_pos hab, hab, same_self]
  · rw [call_equivalent_of_ne _ hab, hleader, (hagrees.sound.find b).1, hagrees.leader]
    rfl

/-- **Alias classes answer by the closure of what was joined.** Two values are equivalent exactly if
the least equivalence over the pairs joined so far relates them. A leader is related to the value
that was asked for, and two leaders that are asked for with nothing joined in between are equal
exactly if their values are related. The indicator of a buffer is the last one recorded for it and
not taken yet. Neither taking it nor a question changes what is equivalent. -/
theorem run_refines_closure (past : List Call) :
    (∀ call rest, (empty.run (past ++ call :: rest)).1[past.length]? = some (answerTo past call)) ∧
      (∀ a b, ∃ t, answerTo past (.equivalent a b) = .truth t ∧ (t = true ↔ Together past a b)) ∧
      (∀ a, ∃ l, answerTo past (.leader a) = .value l ∧ Together past a l) ∧
      (∀ a b questions, (∀ q ∈ questions, q.joins? = none) →
        (answerTo past (.leader a) = answerTo (past ++ questions) (.leader b) ↔
          Together past a b) ∧
        answerTo (past ++ questions) (.equivalent a b) = answerTo past (.equivalent a b)) ∧
      (∀ buffer, ∃ i?, answerTo past (.indicatorOf buffer) = .indicator i? ∧
        answerTo past (.takeIndicator buffer) = .indicator i? ∧
        ∀ i, i? = some i ↔ Holds past buffer i) := by
  have h := reflects_run past
  refine ⟨fun call rest => ?_, fun a b => ⟨_, answerTo_equivalent past a b, h.same a b⟩,
    fun a => ⟨_, answerTo_leader past a, ?_⟩, fun a b questions hquestions => ⟨?_, ?_⟩,
    fun buffer => ⟨_, rfl, rfl, h.indicator buffer⟩⟩
  · rw [run_append, List.getElem?_append_right (by rw [length_run]), length_run, Nat.sub_self]
    rfl
  · rw [← h.same, AliasClasses.same, decide_eq_true_eq]
    exact (h.sound.leader_of_root (h.sound.link_leader a)).symm
  · rw [answerTo_leader, answerTo_leader, run_append, leader_run h hquestions, ← h.same,
      AliasClasses.same, decide_eq_true_eq, Answer.value.injEq]
  · rw [answerTo_equivalent, answerTo_equivalent, run_append, AliasClasses.same,
      AliasClasses.same, leader_run h hquestions, leader_run h hquestions]

end AliasClasses

end BufferOwnership
