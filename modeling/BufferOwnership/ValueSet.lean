import BufferOwnership.Ident

/-!
# Sets of values

A set of values is the list of its members in ascending order. Two sets with the same members are
therefore equal, and whoever goes through a set goes through it in that order.
-/

namespace BufferOwnership

variable {v x : ValueId} {l : List ValueId}

/-- Puts a value into an ascending list, unless it is there. -/
def insertAscending (v : ValueId) : List ValueId → List ValueId
  | [] => [v]
  | w :: rest =>
    if v < w then v :: w :: rest
    else if v = w then w :: rest
    else w :: insertAscending v rest

theorem mem_insertAscending : x ∈ insertAscending v l ↔ x = v ∨ x ∈ l := by
  induction l with
  | nil => simp [insertAscending]
  | cons w rest ih =>
    by_cases hlt : v < w
    · simp [insertAscending, hlt]
    · by_cases heq : v = w
      · subst heq
        simp [insertAscending, hlt]
      · simp [insertAscending, hlt, heq, ih, or_left_comm]

theorem pairwise_insertAscending (h : l.Pairwise (· < ·)) :
    (insertAscending v l).Pairwise (· < ·) := by
  induction l with
  | nil => simp [insertAscending]
  | cons w rest ih =>
    obtain ⟨hw, hrest⟩ := List.pairwise_cons.1 h
    by_cases hlt : v < w
    · -- the new value comes first
      rw [insertAscending, if_pos hlt, List.pairwise_cons]
      refine ⟨fun x hx => ?_, h⟩
      rcases List.mem_cons.1 hx with rfl | hx
      · exact hlt
      · exact Nat.lt_trans hlt (hw x hx)
    · by_cases heq : v = w
      · rw [insertAscending, if_neg hlt, if_pos heq]
        exact h
      · -- the new value comes later
        rw [insertAscending, if_neg hlt, if_neg heq, List.pairwise_cons]
        refine ⟨fun x hx => ?_, ih hrest⟩
        rcases mem_insertAscending.1 hx with rfl | hx
        · have hne : x.index ≠ w.index := fun hi => heq (by cases x; cases w; simp_all)
          have hnlt : ¬ x.index < w.index := hlt
          show w.index < x.index
          omega
        · exact hw x hx

/-- A set of values, listed in ascending order. -/
structure ValueSet where
  toList : List ValueId
  ascending : toList.Pairwise (· < ·)

namespace ValueSet

variable {s t : ValueSet} {vs : List ValueId}

theorem ext_toList (h : s.toList = t.toList) : s = t := by
  cases s; cases t; cases h; rfl

instance : DecidableEq ValueSet := fun s t =>
  if h : s.toList = t.toList then .isTrue (ext_toList h)
  else .isFalse fun heq => h (congrArg toList heq)

instance : Membership ValueId ValueSet := ⟨fun s v => v ∈ s.toList⟩

instance (v : ValueId) (s : ValueSet) : Decidable (v ∈ s) :=
  inferInstanceAs (Decidable (v ∈ s.toList))

theorem mem_def : v ∈ s ↔ v ∈ s.toList := Iff.rfl

def empty : ValueSet := ⟨[], .nil⟩

instance : EmptyCollection ValueSet := ⟨empty⟩

def isEmpty (s : ValueSet) : Bool := s.toList.isEmpty

def insert (s : ValueSet) (v : ValueId) : ValueSet :=
  ⟨insertAscending v s.toList, pairwise_insertAscending s.ascending⟩

def erase (s : ValueSet) (v : ValueId) : ValueSet :=
  ⟨s.toList.filter (· ≠ v), s.ascending.filter _⟩

def insertMany (s : ValueSet) (vs : List ValueId) : ValueSet := vs.foldl insert s

def ofList (vs : List ValueId) : ValueSet := insertMany ∅ vs

def union (s t : ValueSet) : ValueSet := s.insertMany t.toList

def diff (s t : ValueSet) : ValueSet :=
  ⟨s.toList.filter (· ∉ t), s.ascending.filter _⟩

/-! ## Members -/

@[simp] theorem not_mem_empty : x ∉ (∅ : ValueSet) := List.not_mem_nil

theorem isEmpty_iff : s.isEmpty = true ↔ s = ∅ := by
  constructor
  · intro h
    exact ext_toList (List.isEmpty_iff.1 h)
  · rintro rfl
    rfl

@[simp] theorem mem_insert : x ∈ s.insert v ↔ x = v ∨ x ∈ s :=
  mem_insertAscending

@[simp] theorem mem_erase : x ∈ s.erase v ↔ x ∈ s ∧ x ≠ v := by
  simp [mem_def, erase]

@[simp] theorem mem_insertMany : x ∈ s.insertMany vs ↔ x ∈ s ∨ x ∈ vs := by
  induction vs generalizing s with
  | nil => simp [insertMany]
  | cons v vs ih =>
    have hstep : s.insertMany (v :: vs) = (s.insert v).insertMany vs := rfl
    rw [hstep, ih, mem_insert, List.mem_cons, or_comm (a := x = v), or_assoc]

@[simp] theorem mem_ofList : x ∈ ofList vs ↔ x ∈ vs := by
  simp [ofList]

@[simp] theorem mem_union : x ∈ s.union t ↔ x ∈ s ∨ x ∈ t := by
  simp [union, mem_def (s := t)]

@[simp] theorem mem_diff : x ∈ s.diff t ↔ x ∈ s ∧ x ∉ t := by
  show x ∈ s.toList.filter (· ∉ t) ↔ x ∈ s.toList ∧ x ∉ t
  simp

end ValueSet

end BufferOwnership
