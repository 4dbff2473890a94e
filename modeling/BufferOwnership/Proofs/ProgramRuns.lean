import BufferOwnership.Program
import BufferOwnership.Proofs.Certify
import BufferOwnership.Proofs.ShapeSpec
import Mathlib.Algebra.GroupWithZero.Nat

/-!
# Programs, routine by routine

The routines of a program have nothing to do with each other. A run of a program is made up of the
runs of its routines, and where it is to stop at a rejection, of those up to the first that is
rejected. The others are skipped.

`cutOff` is the last routine that is run, and the flag that is handed from routine to routine says
no more than that (`runRoutines_eq`).
-/

namespace BufferOwnership

variable {α β : Type} {l : List α} {out : List β} {R : α → β → Prop} {i : Nat}

/-! ## Related lists -/

/-- What is related item by item is so at every position. -/
theorem forall₂_getElem? (h : List.Forall₂ R l out) {a : α} {b : β} (ha : l[i]? = some a)
    (hb : out[i]? = some b) : R a b := by
  induction h generalizing i with
  | nil => simp at ha
  | cons hab _ ih =>
    cases i with
    | zero =>
      obtain rfl : _ = a := by simpa using ha
      obtain rfl : _ = b := by simpa using hb
      exact hab
    | succ i => exact ih (by simpa using ha) (by simpa using hb)

/-- Items picked by their positions are related as well. -/
theorem forall₂_pick (h : List.Forall₂ R l out) (positions : List Nat) :
    List.Forall₂ R (positions.filterMap (l[·]?)) (positions.filterMap (out[·]?)) := by
  induction positions with
  | nil => exact .nil
  | cons i positions ih =>
    have hlen := h.length_eq
    by_cases hi : i < l.length
    · have hi' : i < out.length := hlen ▸ hi
      have ha : l[i]? = some l[i] := List.getElem?_eq_getElem hi
      have hb : out[i]? = some out[i] := List.getElem?_eq_getElem hi'
      rw [List.filterMap_cons_some ha, List.filterMap_cons_some hb]
      exact .cons (forall₂_getElem? h ha hb) ih
    · have ha : l[i]? = none := List.getElem?_eq_none (Nat.le_of_not_lt hi)
      have hb : out[i]? = none := List.getElem?_eq_none (hlen ▸ Nat.le_of_not_lt hi)
      rw [List.filterMap_cons_none ha, List.filterMap_cons_none hb]
      exact ih

/-! ## One routine -/

variable {settings : Settings} {routines : List Routine} {r : Routine} {e : ProgramEntry}

namespace Routine

/-- The run of a routine alone gives an answer, be it a rejection. -/
def Answers (settings : Settings) (r : Routine) : Prop :=
  ∀ fault, r.threadOwnership settings ≠ .error (.fault fault)

/-- Is a routine rejected if it is run alone? -/
def rejects (settings : Settings) (r : Routine) : Bool :=
  match r.threadOwnership settings with
  | .error (.rejected _) => true
  | _ => false

/-- An entry tells what comes of a routine that is run alone. -/
def Alone (settings : Settings) (r : Routine) (e : ProgramEntry) : Prop :=
  match r.threadOwnership settings with
  | .ok (report, result) => e.outcome = .transformed report ∧ e.routine = result
  | .error (.rejected reason) => e.outcome = .failed reason
  | .error (.fault _) => False

/-- A routine that answers has a root, and so a name. -/
theorem Answers.name (h : r.Answers settings) : ∃ name, r.name = .ok name := by
  cases hop : r.op r.root with
  | error fault =>
    -- asking for the root is the first thing that is done
    refine absurd ?_ (h fault)
    have hask : Pass.ask (·.op r.root) (Session.start r) = .error (.fault fault) := by
      simp [Pass.ask, Session.start, hop]
    have hroot : r.threadFromRoot settings = .error (.fault fault) := by
      show (Pass.ask (·.op r.root) (Session.start r) >>= _) = _
      rw [hask]
      rfl
    rw [threadOwnership, hroot]
    rfl
  | ok d =>
    rw [Routine.name, bind_of_ok hop]
    cases d.kind <;> exact ⟨_, rfl⟩

theorem entry_eq_ok (h : r.entry settings = .ok e) :
    r.name = .ok e.name ∧ r.Answers settings ∧ r.Alone settings e := by
  obtain ⟨name, hname, h⟩ := bind_eq_ok.mp h
  split at h
  all_goals rename_i heq
  · cases h
    exact ⟨hname, fun fault => by simp [heq], by simp [Alone, heq]⟩
  · cases h
    exact ⟨hname, fun fault => by simp [heq], by simp [Alone, heq]⟩
  · cases h

theorem exists_entry_eq_ok : (∃ e, r.entry settings = .ok e) ↔ r.Answers settings := by
  constructor
  · rintro ⟨e, he⟩
    exact (entry_eq_ok he).2.1
  · intro h
    obtain ⟨name, hname⟩ := h.name
    rw [entry, bind_of_ok hname]
    cases heq : r.threadOwnership settings with
    | ok answer => exact ⟨_, rfl⟩
    | error failure =>
      cases failure with
      | rejected reason => exact ⟨_, rfl⟩
      | fault fault => exact absurd heq (h fault)

theorem skippedEntry_eq_ok :
    r.skippedEntry = .ok e ↔ r.name = .ok e.name ∧ e.outcome = .skipped ∧ e.routine = r := by
  rw [skippedEntry, bind_eq_ok]
  constructor
  · rintro ⟨name, hname, h⟩
    cases h
    exact ⟨hname, rfl, rfl⟩
  · rintro ⟨hname, houtcome, rfl⟩
    refine ⟨e.name, hname, ?_⟩
    rw [← houtcome]
    rfl

namespace Alone

/-- A routine is transformed if and only if it is when it is run alone. -/
theorem isTransformed (h : r.Alone settings e) :
    e.outcome.isTransformed = true ↔ ∃ answer, r.threadOwnership settings = .ok answer := by
  unfold Alone at h
  split at h
  all_goals rename_i heq
  · simp [h.1, RoutineOutcome.isTransformed, heq]
  · simp [h, RoutineOutcome.isTransformed, heq]
  · exact h.elim

theorem failure? (h : r.Alone settings e) : e.outcome.failure?.isSome = r.rejects settings := by
  unfold Alone at h
  split at h
  all_goals rename_i heq
  · simp [h.1, RoutineOutcome.failure?, rejects, heq]
  · simp [h, RoutineOutcome.failure?, rejects, heq]
  · exact h.elim

end Alone

theorem rejects_eq_false_of_ok {answer : Report × Routine}
    (h : r.threadOwnership settings = .ok answer) : r.rejects settings = false := by
  simp [rejects, h]

end Routine

/-! ## The run of a program -/

/-- The position of the last routine that is run: the first rejected one, if the run stops there. -/
def cutOff (settings : Settings) (routines : List Routine) : Nat :=
  if settings.failFast then routines.findIdx (·.rejects settings) else routines.length

theorem cutOff_cons_of_rejects (hfast : settings.failFast = true)
    (h : r.rejects settings = true) : cutOff settings (r :: routines) = 0 := by
  simp [cutOff, hfast, List.findIdx_cons, h]

theorem cutOff_cons (h : (settings.failFast && r.rejects settings) = false) :
    cutOff settings (r :: routines) = cutOff settings routines + 1 := by
  cases hfast : settings.failFast with
  | false => simp [cutOff, hfast]
  | true =>
    have hr : r.rejects settings = false := by simpa [hfast] using h
    simp [cutOff, hfast, List.findIdx_cons, hr]

theorem runRoutines_skipping (settings : Settings) (routines : List Routine) :
    runRoutines settings true routines = routines.mapM Routine.skippedEntry := by
  induction routines with
  | nil => rfl
  | cons r routines ih => rw [runRoutines, ih, List.mapM_cons]

theorem runRoutines_cons (h : r.entry settings = .ok e) :
    runRoutines settings false (r :: routines) = (do
      let rest ← runRoutines settings (settings.failFast && r.rejects settings) routines
      return e :: rest) := by
  rw [runRoutines, h, bind_of_ok rfl, (Routine.entry_eq_ok h).2.2.failure?]

/-- The routines up to the cut-off are run, each on its own, and the others are passed over. -/
theorem runRoutines_eq (settings : Settings) (routines : List Routine) :
    runRoutines settings false routines = (do
      let front ← (routines.take (cutOff settings routines + 1)).mapM (·.entry settings)
      let back ← (routines.drop (cutOff settings routines + 1)).mapM Routine.skippedEntry
      return front ++ back) := by
  induction routines with
  | nil => simp [runRoutines, pure, Except.pure, bind, Except.bind]
  | cons r routines ih =>
    cases hentry : r.entry settings with
    | error fault =>
      rw [runRoutines, List.take_succ_cons, List.mapM_cons, hentry]
      rfl
    | ok e =>
      rw [runRoutines_cons hentry]
      cases hstop : settings.failFast && r.rejects settings with
      | true =>
        -- the first routine is rejected, and no other is run
        obtain ⟨hfast, hrejects⟩ := Bool.and_eq_true_iff.mp hstop
        rw [cutOff_cons_of_rejects hfast hrejects, runRoutines_skipping]
        simp [hentry, bind, Except.bind, pure, Except.pure]
      | false =>
        rw [cutOff_cons hstop, ih, List.take_succ_cons, List.drop_succ_cons, List.mapM_cons,
          hentry, bind_of_ok rfl]
        simp only [bind_assoc, pure_bind, List.cons_append]

/-- A report is made up of the entries of the routines that are run and of those that are not. -/
theorem runProgram_eq_ok {report : ProgramReport} :
    runProgram settings routines = .ok report ↔ ∃ front back, report.entries = front ++ back ∧
      List.Forall₂ (fun r e => r.entry settings = .ok e)
        (routines.take (cutOff settings routines + 1)) front ∧
      List.Forall₂ (fun r e => r.skippedEntry = .ok e)
        (routines.drop (cutOff settings routines + 1)) back := by
  rw [runProgram, runRoutines_eq]
  simp only [← mapM_eq_ok]
  constructor
  · intro h
    obtain ⟨entries, h, hreport⟩ := bind_eq_ok.mp h
    obtain ⟨front, hfront, h⟩ := bind_eq_ok.mp h
    obtain ⟨back, hback, h⟩ := bind_eq_ok.mp h
    cases h
    cases hreport
    exact ⟨front, back, rfl, hfront, hback⟩
  · rintro ⟨front, back, hentries, hfront, hback⟩
    rw [hfront, bind_of_ok rfl, hback, bind_of_ok rfl, ← hentries]
    rfl

/-- A program has a report iff each routine that is run has an answer and each other a name. -/
theorem exists_runProgram_eq_ok : (∃ report, runProgram settings routines = .ok report) ↔
    (∀ r ∈ routines.take (cutOff settings routines + 1), r.Answers settings) ∧
      ∀ r ∈ routines.drop (cutOff settings routines + 1), ∃ name, r.name = .ok name := by
  have hskipped : ∀ r : Routine, (∃ e, r.skippedEntry = .ok e) ↔ ∃ name, r.name = .ok name := by
    intro r
    constructor
    · rintro ⟨e, he⟩
      exact ⟨_, (Routine.skippedEntry_eq_ok.mp he).1⟩
    · rintro ⟨name, hname⟩
      exact ⟨⟨name, .skipped, r⟩, Routine.skippedEntry_eq_ok.mpr ⟨hname, rfl, rfl⟩⟩
  simp only [← Routine.exists_entry_eq_ok, ← hskipped, ← exists_mapM_eq_ok, runProgram_eq_ok,
    mapM_eq_ok]
  constructor
  · rintro ⟨report, front, back, -, hfront, hback⟩
    exact ⟨⟨front, hfront⟩, back, hback⟩
  · rintro ⟨⟨front, hfront⟩, back, hback⟩
    exact ⟨⟨front ++ back⟩, front, back, rfl, hfront, hback⟩

namespace ProgramReport

/-- What was reported of the routines that were transformed, in order. -/
def transformed (report : ProgramReport) : List Report :=
  report.entries.filterMap fun entry =>
    match entry.outcome with
    | .transformed report => some report
    | _ => none

/-- What a report says of the routines of a program. -/
structure Tells (settings : Settings) (routines : List Routine) (report : ProgramReport) :
    Prop where
  /-- There is one entry for each routine, in order, and it has the name of the routine. -/
  names : routines.map (·.name) = report.entries.map fun e => .ok e.name
  /-- Up to the cut-off, the entry tells what comes of the routine alone. -/
  attempted : ∀ i r e, routines[i]? = some r → report.entries[i]? = some e →
    i ≤ cutOff settings routines → r.Alone settings e
  /-- After the cut-off, the routine is skipped and stays what it was. -/
  skipped : ∀ i r e, routines[i]? = some r → report.entries[i]? = some e →
    cutOff settings routines < i → e.outcome = .skipped ∧ e.routine = r
  success : report.isSuccess = true ↔
    ∀ r ∈ routines, ∃ answer, r.threadOwnership settings = .ok answer
  errors : report.errors = report.entries.filterMap fun e =>
    match e.outcome with
    | .failed reason => some (e.name, reason)
    | _ => none
  owns : report.tally.owns = (report.transformed.map (·.tally.owns)).sum
  retains : report.tally.retains = (report.transformed.map (·.tally.retains)).sum
  nulls : report.tally.nulls = (report.transformed.map (·.tally.nulls)).sum
  transfers : report.tally.transfers = (report.transformed.map (·.tally.transfers)).sum

theorem errors_eq (report : ProgramReport) : report.errors = report.entries.filterMap fun e =>
    match e.outcome with
    | .failed reason => some (e.name, reason)
    | _ => none := by
  unfold errors
  congr 1
  funext e
  cases e.outcome <;> rfl

/-- A number of the tally is the sum over the transformed routines, if it is kept by addition. -/
theorem tally_eq_sum (report : ProgramReport) {μ : Tally → Nat} (hzero : μ {} = 0)
    (hadd : ∀ a b, μ (a + b) = μ a + μ b) :
    μ report.tally = (report.transformed.map fun done => μ done.tally).sum := by
  have hfold : ∀ (entries : List ProgramEntry) (start : Tally),
      μ (entries.foldl (fun total e => total + e.outcome.tally) start) =
        μ start + ((ProgramReport.transformed ⟨entries⟩).map fun done => μ done.tally).sum := by
    intro entries
    induction entries with
    | nil => simp [transformed]
    | cons e entries ih =>
      intro start
      rw [List.foldl_cons, ih, hadd, Nat.add_assoc]
      congr 1
      cases houtcome : e.outcome <;>
        simp [transformed, houtcome, RoutineOutcome.tally, hzero]
  rw [tally, hfold, hzero, Nat.zero_add]

end ProgramReport

/-! ## What a report says -/

/-- Routines that are run are all transformed if and only if each of them has an answer alone. -/
theorem all_isTransformed_iff {l : List Routine} {out : List ProgramEntry}
    (hl : List.Forall₂ (fun r e => r.entry settings = .ok e) l out) :
    out.all (fun e => e.outcome.isTransformed) = true ↔
      ∀ r ∈ l, ∃ answer, r.threadOwnership settings = .ok answer := by
  induction hl with
  | nil => simp
  | cons he _ ih =>
    rw [List.all_cons, Bool.and_eq_true, ih, List.forall_mem_cons,
      (Routine.entry_eq_ok he).2.2.isTransformed]

/-- Where nothing is rejected, the run goes to the end. -/
theorem cutOff_eq_length
    (hok : ∀ r ∈ routines, ∃ answer, r.threadOwnership settings = .ok answer) :
    cutOff settings routines = routines.length := by
  have hnone : routines.findIdx (·.rejects settings) = routines.length := by
    rw [List.findIdx_eq_length]
    intro r hr
    obtain ⟨answer, hanswer⟩ := hok r hr
    exact Routine.rejects_eq_false_of_ok hanswer
  rw [cutOff, hnone, ite_self]

section Report

variable {report : ProgramReport} (h : runProgram settings routines = .ok report)
include h

theorem runProgram_names : routines.map (·.name) = report.entries.map fun e => .ok e.name := by
  obtain ⟨front, back, hentries, hfront, hback⟩ := runProgram_eq_ok.mp h
  have hnames : ∀ {l : List Routine} {out : List ProgramEntry},
      List.Forall₂ (fun r e => r.name = .ok e.name) l out →
      l.map (·.name) = out.map fun e => .ok e.name := by
    intro l out hl
    induction hl with
    | nil => rfl
    | cons hname _ ih => rw [List.map_cons, List.map_cons, hname, ih]
  have hfront' := hnames (hfront.imp fun _ _ he => (Routine.entry_eq_ok he).1)
  have hback' := hnames (hback.imp fun _ _ he => (Routine.skippedEntry_eq_ok.mp he).1)
  rw [hentries, List.map_append, ← hfront', ← hback', ← List.map_append, List.take_append_drop]

theorem runProgram_attempted (hr : routines[i]? = some r) (he : report.entries[i]? = some e)
    (hi : i ≤ cutOff settings routines) : r.Alone settings e := by
  obtain ⟨front, back, hentries, hfront, -⟩ := runProgram_eq_ok.mp h
  have hr' : (routines.take (cutOff settings routines + 1))[i]? = some r := by
    rw [List.getElem?_take_of_lt (by omega), hr]
  have hlt : i < front.length := hfront.length_eq ▸ (List.getElem?_eq_some_iff.mp hr').1
  have he' : front[i]? = some e := by
    rw [← he, hentries, List.getElem?_append_left hlt]
  exact (Routine.entry_eq_ok (forall₂_getElem? hfront hr' he')).2.2

theorem runProgram_skipped (hr : routines[i]? = some r) (he : report.entries[i]? = some e)
    (hi : cutOff settings routines < i) : e.outcome = .skipped ∧ e.routine = r := by
  obtain ⟨front, back, hentries, hfront, hback⟩ := runProgram_eq_ok.mp h
  have hlt := (List.getElem?_eq_some_iff.mp hr).1
  have hlen : front.length = cutOff settings routines + 1 := by
    rw [← hfront.length_eq, List.length_take]
    omega
  have hr' : (routines.drop (cutOff settings routines + 1))[i - front.length]? = some r := by
    rw [List.getElem?_drop, ← hlen, Nat.add_sub_cancel' (by omega), hr]
  have he' : back[i - front.length]? = some e := by
    rw [← he, hentries, List.getElem?_append_right (by omega)]
  exact (Routine.skippedEntry_eq_ok.mp (forall₂_getElem? hback hr' he')).2

theorem runProgram_success : report.isSuccess = true ↔
    ∀ r ∈ routines, ∃ answer, r.threadOwnership settings = .ok answer := by
  obtain ⟨front, back, hentries, hfront, hback⟩ := runProgram_eq_ok.mp h
  rw [ProgramReport.isSuccess, hentries, List.all_append, Bool.and_eq_true,
    all_isTransformed_iff hfront]
  constructor
  · rintro ⟨htake, hskipped⟩
    -- a skipped routine would not count as transformed, so there is none
    obtain rfl : back = [] := by
      cases back with
      | nil => rfl
      | cons e back =>
        obtain ⟨r, rest, he, -, -⟩ := List.forall₂_cons_right_iff.mp hback
        have houtcome := (Routine.skippedEntry_eq_ok.mp he).2.1
        simp [houtcome, RoutineOutcome.isTransformed] at hskipped
    have hdrop := List.forall₂_nil_right_iff.mp hback
    rw [← List.take_append_drop (cutOff settings routines + 1) routines, hdrop, List.append_nil]
    exact htake
  · intro hok
    refine ⟨fun r hr => hok r (List.mem_of_mem_take hr), ?_⟩
    rw [cutOff_eq_length hok, List.drop_eq_nil_of_le (by omega)] at hback
    rw [List.forall₂_nil_left_iff.mp hback]
    rfl

theorem runProgram_tells : report.Tells settings routines where
  names := runProgram_names h
  attempted _ _ _ hr he hi := runProgram_attempted h hr he hi
  skipped _ _ _ hr he hi := runProgram_skipped h hr he hi
  success := runProgram_success h
  errors := report.errors_eq
  owns := report.tally_eq_sum (μ := Tally.owns) rfl fun _ _ => rfl
  retains := report.tally_eq_sum (μ := Tally.retains) rfl fun _ _ => rfl
  nulls := report.tally_eq_sum (μ := Tally.nulls) rfl fun _ _ => rfl
  transfers := report.tally_eq_sum (μ := Tally.transfers) rfl fun _ _ => rfl

/-- Where a run does not stop, routines picked by position get the entries of the whole program. -/
theorem runProgram_pick (hslow : settings.failFast = false) (positions : List Nat) :
    runProgram settings (positions.filterMap (routines[·]?)) =
      .ok ⟨positions.filterMap (report.entries[·]?)⟩ := by
  have hcut : ∀ l : List Routine, cutOff settings l + 1 = l.length + 1 := by
    intro l
    rw [cutOff, hslow]
    rfl
  obtain ⟨front, back, hentries, hfront, hback⟩ := runProgram_eq_ok.mp h
  rw [hcut, List.take_of_length_le (Nat.le_succ _)] at hfront
  rw [hcut, List.drop_eq_nil_of_le (Nat.le_succ _), List.forall₂_nil_left_iff] at hback
  rw [hback, List.append_nil] at hentries
  rw [hentries, runProgram_eq_ok]
  refine ⟨_, [], (List.append_nil _).symm, ?_, ?_⟩
  · rw [hcut, List.take_of_length_le (Nat.le_succ _)]
    exact forall₂_pick hfront positions
  · rw [hcut, List.drop_eq_nil_of_le (Nat.le_succ _)]
    exact .nil

end Report

/-- A run of a program is the run of its routines one by one, up to the cut-off. There is a report
if and only if those give answers and the others have names. It tells of each routine what comes of
it alone, or that it was skipped. Where the run does not stop at a rejection, a program with the
same routines in another order has the same entries in that order. -/
theorem runProgram_routinewise (settings : Settings) (routines : List Routine) :
    ((∃ report, runProgram settings routines = .ok report) ↔
      (∀ r ∈ routines.take (cutOff settings routines + 1), r.Answers settings) ∧
        ∀ r ∈ routines.drop (cutOff settings routines + 1), ∃ name, r.name = .ok name) ∧
    ∀ report, runProgram settings routines = .ok report →
      report.Tells settings routines ∧
      (settings.failFast = false → ∀ positions : List Nat,
        runProgram settings (positions.filterMap (routines[·]?)) =
          .ok ⟨positions.filterMap (report.entries[·]?)⟩) := by
  refine ⟨exists_runProgram_eq_ok, fun report h => ⟨runProgram_tells h, fun hslow positions => ?_⟩⟩
  exact runProgram_pick h hslow positions

/-- A program whose second routine has no terminator. -/
def stoppedProgram : List Routine := [renewalRoutine, .empty "open" [], renewalRoutine]

/-- The third routine is skipped only if the run stops; else the program can be turned round. -/
theorem stoppedProgram_routinewise :
    (∃ report, runProgram { parallel := false, failFast := true } stoppedProgram = .ok report ∧
      report.Tells { parallel := false, failFast := true } stoppedProgram ∧
      report.isSuccess = false ∧ report.errors.length = 1 ∧ report.transformed.length = 1) ∧
    ∃ report, runProgram { parallel := false } stoppedProgram = .ok report ∧
      report.transformed.length = 2 ∧
      runProgram { parallel := false } ([2, 1, 0].filterMap (stoppedProgram[·]?)) =
        .ok ⟨[2, 1, 0].filterMap (report.entries[·]?)⟩ := by
  constructor
  · obtain ⟨report, h, hcheck⟩ := exists_of_check
      (x := runProgram { parallel := false, failFast := true } stoppedProgram)
      (P := fun report => report.isSuccess = false ∧ report.errors.length = 1 ∧
        report.transformed.length = 1) (by decide +kernel)
    exact ⟨report, h, ((runProgram_routinewise _ _).2 report h).1, hcheck⟩
  · obtain ⟨report, h, htwo⟩ := exists_of_check
      (x := runProgram { parallel := false } stoppedProgram)
      (P := fun report => report.transformed.length = 2) (by decide +kernel)
    exact ⟨report, h, htwo, ((runProgram_routinewise _ _).2 report h).2 rfl [2, 1, 0]⟩

end BufferOwnership
