import BufferOwnership.Proofs.AliasRanks

/-!
# Questions leave no trace

To find a leader registers the value and shortens the way to it. What later calls depend on is less
than the tables: the leader and the rank of each value, and the indicator of each buffer. This is
the `View` of alias classes. By `view_call` the tables answer every call as their view does, and a
question does not change the view.
-/

namespace BufferOwnership

namespace AliasClasses

variable {c c' : AliasClasses} {a b buffer : ValueId}

/-! ## Views -/

/-- What later calls depend on. -/
@[ext]
structure View where
  leader : ValueId → ValueId
  rank : ValueId → Nat
  indicator? : ValueId → Option ValueId

def view (c : AliasClasses) : View := ⟨c.leader, c.rank, c.indicatorOf?⟩

namespace View

/-- A leader comes under another one, which gains if their ranks are equal. -/
def putUnder (V : View) (low up : ValueId) : View :=
  { V with
    leader := fun w => if V.leader w = low then up else V.leader w
    rank := fun w =>
      if w = up ∧ V.rank low = V.rank up then min (V.rank up + 1) rankLimit else V.rank w }

def union (V : View) (a b : ValueId) : View :=
  if V.leader a = V.leader b then V
  else if V.rank (V.leader a) < V.rank (V.leader b) then V.putUnder (V.leader a) (V.leader b)
  else V.putUnder (V.leader b) (V.leader a)

/-- Settles the indicator of a buffer. -/
def record (V : View) (buffer : ValueId) (i? : Option ValueId) : View :=
  { V with indicator? := Function.update V.indicator? buffer i? }

def call (V : View) : Call → Answer × View
  | .union a b => (.done, V.union a b)
  | .equivalent a b => (.truth (V.leader a = V.leader b), V)
  | .leader a => (.value (V.leader a), V)
  | .setIndicator buffer i => (.done, (V.record buffer (some i)).union buffer i)
  | .indicatorOf buffer => (.indicator (V.indicator? buffer), V)
  | .takeIndicator buffer => (.indicator (V.indicator? buffer), V.record buffer none)

end View

/-! ## The tables and their view -/

@[simp] theorem leader_view (c : AliasClasses) : c.view.leader = c.leader := rfl

@[simp] theorem rank_view (c : AliasClasses) : c.view.rank = c.rank := rfl

@[simp] theorem indicator?_view (c : AliasClasses) : c.view.indicator? = c.indicatorOf? := rfl

theorem Sound.view_find (h : c.Sound) (a : ValueId) : (c.find a).2.view = c.view := by
  ext w : 2
  · exact (h.find a).2.1.leader w
  · exact rank_find c a w
  · simp only [indicator?_view, indicatorOf?, indicators_find]

theorem Paired.view_attach (h : c.Paired) (hj : c.Joinable a b) :
    (c.attach a b).view = c.view.putUnder (c.lower a b) (c.upper a b) := by
  ext w : 2
  · exact (h.sound.leader_attach hj).2 w
  · simp only [rank_view, View.putUnder, rank_attach (h.sizes ▸ hj.left.2), rank_lower_eq_iff]
  · simp only [indicator?_view, View.putUnder, indicatorOf?, indicators_attach]

/-- Joining is decided by leaders and ranks. -/
theorem Paired.view_union (h : c.Paired) (a b : ValueId) :
    (c.union a b).view = c.view.union a b := by
  have hfound := (h.find a).find b
  have hview : ((c.find a).2.find b).2.view = c.view := by
    rw [(h.find a).sound.view_find, h.sound.view_find]
  rw [h.sound.union_eq, View.union, leader_view, rank_view]
  split
  · exact hview
  · rename_i hne
    rw [hfound.view_attach (h.sound.joinable_found hne), hview, lower, upper, rank_find, rank_find,
      rank_find, rank_find]
    split <;> rfl

theorem view_eq_record {i? : Option ValueId} (hlinks : c'.links = c.links)
    (hranks : c'.ranks = c.ranks)
    (hrecords : c'.indicatorOf? = Function.update c.indicatorOf? buffer i?) :
    c'.view = c.view.record buffer i? := by
  ext w : 2
  · exact congrFun (leader_of_links hlinks) w
  · simp only [View.record, rank_view, rank, hranks]
  · exact congrFun hrecords w

/-- What is recorded for a buffer takes the place of what was there. -/
theorem indicatorOf?_record (c : AliasClasses) (buffer i : ValueId) :
    indicatorOf? { c with
      indicators := (buffer, i) :: c.indicators.filter fun entry => entry.1 ≠ buffer } =
      Function.update c.indicatorOf? buffer (some i) := by
  funext w
  rw [indicatorOf?]
  by_cases hw : w = buffer
  · rw [hw, List.lookup_cons_self, Function.update_self]
  · have hkey : (w == buffer) = false := by simpa using hw
    rw [List.lookup_cons, hkey, Function.update_of_ne hw]
    exact lookup_filter_ne (Ne.symm hw) _

theorem indicatorOf?_dropIndicator (c : AliasClasses) (buffer : ValueId) :
    (c.dropIndicator buffer).indicatorOf? = Function.update c.indicatorOf? buffer none := by
  funext w
  by_cases hw : w = buffer
  · rw [hw, Function.update_self]
    exact lookup_filter_self buffer _
  · rw [Function.update_of_ne hw]
    exact lookup_filter_ne (Ne.symm hw) _

theorem view_dropIndicator (c : AliasClasses) (buffer : ValueId) :
    (c.dropIndicator buffer).view = c.view.record buffer none :=
  view_eq_record rfl rfl (indicatorOf?_dropIndicator c buffer)

theorem Paired.view_setIndicator (h : c.Paired) (buffer i : ValueId) :
    (c.setIndicator buffer i).view = (c.view.record buffer (some i)).union buffer i := by
  rw [setIndicator, (h.record _).view_union]
  congr 1
  exact view_eq_record rfl rfl (indicatorOf?_record c buffer i)

/-! ## Calls -/

theorem Paired.call (h : c.Paired) (q : Call) : (c.call q).2.Paired :=
  call_keeps h (fun _ hc v _ => hc.find v) (fun _ hc a _ b _ => hc.union a b) fun _ hc => hc.record

/-- The tables answer a call as their view does, and lead to the same view. -/
theorem Paired.view_call (h : c.Paired) (q : Call) :
    c.view.call q = ((c.call q).1, (c.call q).2.view) := by
  cases q with
  | union a b => simp only [AliasClasses.call, View.call, h.view_union]
  | equivalent a b =>
    by_cases hab : a = b
    · simp [AliasClasses.call, View.call, hab]
    · -- the second value is looked up in the tables that the first one leaves
      obtain ⟨hleader, hagrees, -⟩ := h.sound.find a
      rw [call_equivalent_of_ne c hab, hleader, (hagrees.sound.find b).1, hagrees.leader,
        hagrees.sound.view_find, h.sound.view_find]
      rfl
  | leader a =>
    simp only [AliasClasses.call, View.call, (h.sound.find a).1, h.sound.view_find, leader_view]
  | setIndicator buffer i => simp only [AliasClasses.call, View.call, h.view_setIndicator]
  | indicatorOf buffer => rfl
  | takeIndicator buffer =>
    simp only [AliasClasses.call, View.call, view_dropIndicator, indicator?_view]

namespace View

/-- Carries out calls one after the other. -/
def run (V : View) (calls : List Call) : View := calls.foldl (fun V q => (V.call q).2) V

theorem run_cons (V : View) (q : Call) (calls : List Call) :
    V.run (q :: calls) = (V.call q).2.run calls := rfl

end View

theorem Paired.view_run (h : c.Paired) (calls : List Call) :
    (c.run calls).2.Paired ∧ (c.run calls).2.view = c.view.run calls := by
  induction calls generalizing c with
  | nil => exact ⟨h, rfl⟩
  | cons q calls ih =>
    obtain ⟨hpaired, hview⟩ := ih (h.call q)
    refine ⟨hpaired, hview.trans ?_⟩
    rw [View.run_cons, h.view_call]

/-- The answer to a call is the one that the view gives. -/
theorem getElem?_run (past rest : List Call) (q : Call) :
    (empty.run (past ++ q :: rest)).1[past.length]? =
      some ((empty.view.run past).call q).1 := by
  obtain ⟨hpaired, hview⟩ := Paired.empty.view_run past
  rw [run_append, List.getElem?_append_right (by rw [length_run]), length_run, Nat.sub_self,
    ← hview, hpaired.view_call]
  rfl

/-! ## Sequences that differ in questions -/

/-- A call that only asks. -/
inductive Question where
  | equivalent (a b : ValueId)
  | leader (a : ValueId)
  | indicatorOf (buffer : ValueId)

def Question.call : Question → Call
  | equivalent a b => .equivalent a b
  | leader a => .leader a
  | indicatorOf buffer => .indicatorOf buffer

/-- A place in a sequence of calls that is changed: a call stays, or a question comes or goes. -/
inductive CallChange where
  | kept (q : Call)
  | deleted (question : Question)
  | inserted (question : Question)

def callsBefore (changes : List CallChange) : List Call :=
  changes.filterMap fun
    | .kept q => some q
    | .deleted question => some question.call
    | .inserted _ => none

def callsAfter (changes : List CallChange) : List Call :=
  changes.filterMap fun
    | .kept q => some q
    | .deleted _ => none
    | .inserted question => some question.call

theorem View.call_question (V : View) (question : Question) : (V.call question.call).2 = V := by
  cases question with
  | equivalent a b => rfl
  | leader a => rfl
  | indicatorOf buffer => rfl

theorem View.run_changes (V : View) (changes : List CallChange) :
    V.run (callsAfter changes) = V.run (callsBefore changes) := by
  induction changes generalizing V with
  | nil => rfl
  | cons change changes ih =>
    cases change with
    | kept q => exact ih (V.call q).2
    -- a question leaves the view as it is, on whichever side it is asked
    | deleted question =>
      show _ = V.run (question.call :: callsBefore changes)
      rw [run_cons, V.call_question]
      exact ih V
    | inserted question =>
      show V.run (question.call :: callsAfter changes) = _
      rw [run_cons, V.call_question]
      exact ih V

/-- **Questions leave no trace.** Let questions be put into a sequence of calls and deleted from it,
at any places. Every call that stays is answered as before, a leader by the same leader. At any
point the leaders, which values are leaders, their ranks and the recorded indicators are the same,
so whatever is joined later is joined in the same way. -/
theorem run_ignores_questions (past rest : List CallChange) (q : Call) :
    (∃ answer,
      (empty.run (callsBefore (past ++ .kept q :: rest))).1[(callsBefore past).length]? =
        some answer ∧
      (empty.run (callsAfter (past ++ .kept q :: rest))).1[(callsAfter past).length]? =
        some answer) ∧
    ∀ v,
      ((empty.run (callsAfter past)).2.link v = v ↔
        (empty.run (callsBefore past)).2.link v = v) ∧
      (empty.run (callsAfter past)).2.leader v = (empty.run (callsBefore past)).2.leader v ∧
      (empty.run (callsAfter past)).2.rank v = (empty.run (callsBefore past)).2.rank v ∧
      (empty.run (callsAfter past)).2.indicatorOf? v =
        (empty.run (callsBefore past)).2.indicatorOf? v := by
  obtain ⟨hbefore, hviewBefore⟩ := Paired.empty.view_run (callsBefore past)
  obtain ⟨hafter, hviewAfter⟩ := Paired.empty.view_run (callsAfter past)
  have hview : (empty.run (callsAfter past)).2.view = (empty.run (callsBefore past)).2.view := by
    rw [hviewAfter, hviewBefore, View.run_changes]
  refine ⟨⟨((empty.view.run (callsBefore past)).call q).1, ?_, ?_⟩, fun v => ?_⟩
  · rw [callsBefore, List.filterMap_append]
    exact getElem?_run _ _ q
  · rw [← View.run_changes, callsAfter, List.filterMap_append]
    exact getElem?_run _ _ q
  · have hleader := congrFun (congrArg View.leader hview) v
    refine ⟨?_, hleader, congrFun (congrArg View.rank hview) v,
      congrFun (congrArg View.indicator? hview) v⟩
    rw [hafter.sound.link_eq_self_iff, hbefore.sound.link_eq_self_iff]
    rw [leader_view, leader_view] at hleader
    rw [hleader]

end AliasClasses

end BufferOwnership
