import BufferOwnership.Routine.Outline
import Mathlib.Data.List.Basic

/-!
# What can be read off printed text

A printed text is put together from names, numbers, types and lists. Each of them can be told, and
where it ends, as long as it is followed by what always follows it: a word ends at a bracket, a
blank or a comma, and the operations of a block at a line that is not indented further. `Apart` says
this of two things that are printed; in the end outlines are told apart (`render_routine_inj`).
-/

namespace BufferOwnership

namespace Outline

/-- Two things are told apart by their texts, before texts that begin in some way, and what comes
behind them is told as well. -/
def Apart {α : Type} (Follow : List Char → Prop) (write : α → String) (x y : α) : Prop :=
  ∀ ⦃s s'⦄, Follow s → Follow s' →
    (write x).toList ++ s = (write y).toList ++ s' → x = y ∧ s = s'

/-- The characters at which a word ends. -/
def ends : List Char := [' ', ',', ':', '(', ')', '\n']

/-- A word does not go on. -/
def Stops (s : List Char) : Prop := ∃ c t, s = c :: t ∧ c ∈ ends

/-- Neither a word nor a list goes on. -/
def Closes (s : List Char) : Prop := ∃ c t, s = c :: t ∧ c ∈ ends ∧ c ≠ ','

theorem Closes.stops {s : List Char} (h : Closes s) : Stops s := by
  obtain ⟨c, t, hs, hc, -⟩ := h
  exact ⟨c, t, hs, hc⟩

section Apart

variable {α : Type} {F G : List Char → Prop} {write : α → String} {xs ys : List α}

/-- Words end where the first character comes that no word has. -/
theorem apart_word {x y : α} (hinj : write x = write y → x = y)
    (hx : (write x).toList.all (· ∉ ends)) (hy : (write y).toList.all (· ∉ ends)) :
    Apart Stops write x y := by
  rintro _ _ ⟨c, s, rfl, hc⟩ ⟨c', s', rfl, hc'⟩ h
  have hwords := congrArg (List.takeWhile fun c => c ∉ ends) h
  rw [List.takeWhile_append_of_pos (by simpa using hx),
    List.takeWhile_append_of_pos (by simpa using hy), List.takeWhile_cons_of_neg (by simpa),
    List.takeWhile_cons_of_neg (by simpa), List.append_nil, List.append_nil] at hwords
  rw [hwords] at h
  exact ⟨hinj (String.toList_inj.mp hwords), List.append_cancel_left h⟩

/-- Texts one after another. -/
def joined (write : α → String) : List α → String
  | [] => ""
  | x :: xs => write x ++ joined write xs

/-- Texts are told one after another if what comes behind all of them is none of them. -/
theorem apart_joined (h : ∀ x ∈ xs, ∀ y ∈ ys, Apart F write x y)
    (hnext : ∀ x s, F ((write x).toList ++ s)) (hend : ∀ s, G s → F s)
    (hnone : ∀ x s, ¬ G ((write x).toList ++ s)) : Apart G (joined write) xs ys := by
  intro s s' hs hs' heq
  have hcons : ∀ x xs t, (joined write (x :: xs)).toList ++ t =
      (write x).toList ++ ((joined write xs).toList ++ t) := by
    simp [joined]
  have hfollow : ∀ (zs : List α) {t : List Char}, G t → F ((joined write zs).toList ++ t) := by
    intro zs t ht
    cases zs with
    | nil => exact hend t ht
    | cons z zs => exact hcons z zs t ▸ hnext z _
  induction xs generalizing ys with
  | nil =>
    cases ys with
    | nil => exact ⟨rfl, heq⟩
    | cons y ys =>
      rw [show s = _ from heq, hcons] at hs
      exact absurd hs (hnone y _)
  | cons x xs ih =>
    cases ys with
    | nil =>
      rw [show s' = _ from heq.symm, hcons] at hs'
      exact absurd hs' (hnone x _)
    | cons y ys =>
      rw [hcons, hcons] at heq
      obtain ⟨rfl, hrest⟩ := h x (by simp) y (by simp) (hfollow xs hs) (hfollow ys hs') heq
      obtain ⟨rfl, rfl⟩ := ih (fun z hz w hw => h z (by simp [hz]) w (by simp [hw])) hrest
      exact ⟨rfl, rfl⟩

/-- Texts with commas between them, in a frame unless there are none. -/
def listed (first last : String) (write : α → String) : List α → String
  | [] => ""
  | xs => first ++ commaSeparated (xs.map write) ++ last

theorem listed_cons (first last : String) (x : α) (xs : List α) :
    listed first last write (x :: xs) =
      first ++ (write x ++ (joined (fun x => ", " ++ write x) xs ++ last)) := by
  induction xs generalizing x first with
  | nil => simp [listed, commaSeparated, joined, String.append_assoc]
  | cons y ys ih =>
    have hmore := ih (first ++ write x ++ ", ") y
    simp only [listed, commaSeparated, List.map_cons, String.intercalate_cons_cons, joined,
      String.append_assoc] at hmore ⊢
    exact hmore

theorem apart_listed (first last : String) (h : ∀ x ∈ xs, ∀ y ∈ ys, Apart Stops write x y)
    (hlast : ∀ s, G s → Closes (last.toList ++ s))
    (hnone : ∀ x s, ¬ G (first.toList ++ ((write x).toList ++ s))) :
    Apart G (listed first last write) xs ys := by
  intro s s' hs hs' heq
  have hcons : ∀ x xs t, (listed first last write (x :: xs)).toList ++ t = first.toList ++
      ((write x).toList ++ ((joined (fun x => ", " ++ write x) xs).toList ++
        (last.toList ++ t))) := by
    simp [listed_cons]
  cases xs with
  | nil =>
    cases ys with
    | nil => exact ⟨rfl, heq⟩
    | cons y ys =>
      rw [show s = _ from heq, hcons] at hs
      exact absurd hs (hnone y _)
  | cons x xs =>
    cases ys with
    | nil =>
      rw [show s' = _ from heq.symm, hcons] at hs'
      exact absurd hs' (hnone x _)
    | cons y ys =>
      rw [hcons, hcons, List.append_cancel_left_eq] at heq
      -- with a comma before the first text as well, all are alike
      have hapart : ∀ z ∈ x :: xs, ∀ w ∈ y :: ys, Apart Stops (fun x => ", " ++ write x) z w :=
        fun z hz w hw t t' ht ht' he => h z hz w hw ht ht' (by simpa using he)
      have hcomma : ∀ z t, (", " ++ write z).toList ++ t =
          ',' :: ' ' :: ((write z).toList ++ t) := by
        simp
      have hopen : ∀ z t, ¬ Closes ((", " ++ write z).toList ++ t) := by
        rintro z t ⟨c, u, he, -, hc⟩
        exact hc (List.cons.inj ((hcomma z t).symm.trans he)).1.symm
      obtain ⟨hxy, hrest⟩ := apart_joined hapart (fun z t => ⟨_, _, hcomma z t, by decide⟩)
        (fun _ => Closes.stops) hopen (hlast s hs) (hlast s' hs') (by simpa [joined] using heq)
      exact ⟨hxy, List.append_cancel_left hrest⟩

end Apart

/-! ## Words -/

/-- No end of a word is among characters of a kind that the ends are not of. -/
theorem all_notMem_ends {p : Char → Bool} (hends : ends.all (!p ·)) {l : List Char}
    (h : l.all p) : l.all (· ∉ ends) := by
  simp only [List.all_eq_true, decide_eq_true_eq] at *
  intro c hc hend
  simpa [h c hc] using hends c hend

theorem apart_number (n m : Nat) : Apart Stops (fun n : Nat => toString n) n m := by
  have hdigits : ∀ n : Nat, (toString n).toList = Nat.toDigits 10 n := fun n => by
    rw [Nat.toString_eq_ofList_toDigits, String.toList_ofList]
  have hword : ∀ n : Nat, (toString n).toList.all (· ∉ ends) := fun n => by
    rw [hdigits]
    refine all_notMem_ends (p := Char.isDigit) (by decide) (List.all_eq_true.mpr fun c hc => ?_)
    exact Nat.isDigit_of_mem_toDigits (by decide) (by decide) hc
  refine apart_word (fun h => ?_) (hword n) (hword m)
  have hsame := congrArg String.toList h
  rw [hdigits, hdigits] at hsame
  rw [← Nat.ofDigitChars_ten_toDigits (n := n), hsame, Nat.ofDigitChars_ten_toDigits]

theorem toList_value (v : ValueId) : (value v).toList = '%' :: (toString v.index).toList :=
  String.toList_append

theorem apart_value (v w : ValueId) : Apart Stops value v w := by
  intro s s' hs hs' h
  rw [toList_value, toList_value] at h
  obtain ⟨hindex, hrest⟩ := apart_number v.index w.index hs hs' (List.cons.inj h).2
  exact ⟨congrArg ValueId.mk hindex, hrest⟩

theorem elemName_inj {e e' : ElemType} (h : e.name = e'.name) : e = e' := by
  cases e <;> cases e' <;> simp_all [ElemType.name]

/-- A question mark stands for each dimension, and for nothing else. -/
theorem count_extents (n : Nat) : (Ty.extents n).toList.count '?' = n := by
  induction n with
  | zero => rfl
  | succ n ih => simp [Ty.extents, ih]

theorem render_inj {ty ty' : Ty} (h : ty.render = ty'.render) : ty = ty' := by
  have hchars := congrArg String.toList h
  have hfirst := congrArg List.head? hchars
  cases ty with
  | scalar e =>
    cases ty' with
    | scalar e' => rw [elemName_inj h]
    | _ => cases e <;> simp [Ty.render, ElemType.name] at hfirst
  | buffer e n =>
    cases ty' with
    | scalar e' => cases e' <;> simp [Ty.render, ElemType.name] at hfirst
    | buffer e' n' =>
      have hcount := congrArg (List.count '?') hchars
      have hnone : ∀ e : ElemType, e.name.toList.count '?' = 0 := fun e => by cases e <;> rfl
      simp only [Ty.render, String.toList_append, List.count_append, count_extents, hnone] at hcount
      obtain rfl : n = n' := by omega
      simp only [Ty.render, String.toList_append, List.append_cancel_left_eq,
        List.append_cancel_right_eq, String.toList_inj] at hchars
      rw [elemName_inj hchars]
    | ownership => simp [Ty.render] at hfirst
  | ownership =>
    cases ty' with
    | scalar e' => cases e' <;> simp [Ty.render, ElemType.name] at hfirst
    | buffer e' n' => simp [Ty.render] at hfirst
    | ownership => rfl

theorem apart_ty (ty ty' : Ty) : Apart Stops Ty.render ty ty' := by
  have hname : ∀ e : ElemType, e.name.toList.all (· ∉ ends) := fun e => by cases e <;> decide
  have hextents : ∀ n, (Ty.extents n).toList.all (· ∉ ends) := fun n => by
    induction n with
    | zero => decide
    | succ n ih =>
      rw [Ty.extents, String.toList_append, List.all_append, ih]
      decide
  have hword : ∀ ty : Ty, ty.render.toList.all (· ∉ ends) := by
    intro ty
    cases ty with
    | scalar e => exact hname e
    | buffer e n =>
      simp only [Ty.render, String.toList_append, List.all_append, hextents, hname]
      decide
    | ownership => decide
  exact apart_word render_inj (hword ty) (hword ty')

theorem apart_typedValue (v w : TypedValue) : Apart Stops typedValue v w := by
  intro s s' hs hs' h
  simp only [typedValue, String.toList_append, List.append_assoc] at h
  have hcolon : ∀ t, Stops (": ".toList ++ t) := fun _ => ⟨_, _, rfl, by decide⟩
  obtain ⟨hid, hrest⟩ := apart_value v.id w.id (hcolon _) (hcolon _) h
  obtain ⟨hty, hend⟩ := apart_ty v.ty w.ty hs hs' (List.append_cancel_left hrest)
  exact ⟨by cases v; cases w; simp_all, hend⟩

/-- Nonempty, of letters, digits, underscores and full stops; beyond ASCII all counts as letters. -/
def IsName (name : String) : Prop :=
  name ≠ "" ∧ name.toList.all fun c => c.isAlphanum ∨ c = '_' ∨ c = '.' ∨ 127 < c.toNat

theorem IsName.word {name : String} (h : IsName name) : name.toList.all (· ∉ ends) :=
  all_notMem_ends (by decide) h.2

theorem apart_name {name name' : String} (h : IsName name) (h' : IsName name') :
    Apart Stops id name name' :=
  apart_word id h.word h'.word

theorem IsName.head {name : String} (h : IsName name) (s : List Char) :
    (name.toList ++ s).head? ≠ some '%' := by
  obtain ⟨c, t, hcons⟩ := List.exists_cons_of_ne_nil fun he => h.1 (String.toList_eq_nil_iff.mp he)
  rw [hcons, List.cons_append, List.head?_cons]
  rintro ⟨⟩
  exact absurd (List.all_eq_true.mp h.2 '%' (by simp [hcons])) (by decide)

/-! ## The parts of a line -/

theorem resultNames_eq (vs : List TypedValue) :
    resultNames vs = listed "" " = " value (vs.map TypedValue.id) := by
  cases vs <;> simp [resultNames, listed, Function.comp_def]

theorem resultTypes_eq (vs : List TypedValue) :
    resultTypes vs = listed " : " "" Ty.render (vs.map TypedValue.ty) := by
  cases vs <;> simp [resultTypes, listed, Function.comp_def]

theorem blockArgs_eq (vs : List TypedValue) : blockArgs vs = listed "(" ")" typedValue vs := by
  cases vs <;> rfl

theorem regions_eq (depth : Nat) (gs : List RegionOutline) :
    regions depth " " gs = listed " " "" (region depth) gs := by
  have hmore : ∀ gs, regions depth ", " gs = joined (fun g => ", " ++ region depth g) gs := by
    intro gs
    induction gs with
    | nil => rfl
    | cons g gs ih => rw [regions, ih, joined]
  cases gs with
  | nil => rfl
  | cons g gs => simp [regions, hmore, listed_cons, String.append_assoc]

/-- Texts that begin with a value, with commas between them, end at any other end of a word. -/
theorem apart_commaSeparated {α : Type} {write : α → String} (h : ∀ x y, Apart Stops write x y)
    (hvalue : ∀ x, (write x).toList.head? = some '%') (xs ys : List α) :
    Apart Closes (fun xs => commaSeparated (xs.map write)) xs ys := by
  have hlisted : ∀ xs, commaSeparated (xs.map write) = listed "" "" write xs := fun xs => by
    cases xs <;> simp [listed, commaSeparated]
  rw [funext hlisted]
  refine apart_listed "" "" (fun x _ y _ => h x y) (fun _ hs => hs) ?_
  rintro x s ⟨c, t, hs, hc, -⟩
  have hfirst := congrArg List.head? hs
  simp only [String.toList_empty, List.nil_append, List.head?_append, hvalue] at hfirst
  cases hfirst
  exact absurd hc (by decide)

theorem apart_values (vs ws : List ValueId) :
    Apart Closes (fun vs => commaSeparated (vs.map value)) vs ws :=
  apart_commaSeparated apart_value (fun v => by rw [toList_value]; rfl) vs ws

/-- Operands end at a bracket, and the bar of a retain shows even where nothing stands beside it. -/
theorem apart_operands (xs ys : OperandList) :
    Apart (fun s => ∃ t, s = ")".toList ++ t) operands xs ys := by
  rintro _ _ ⟨s, rfl⟩ ⟨s', rfl⟩ h
  have hend : ∀ t, Closes (")".toList ++ t) := fun _ => ⟨_, _, rfl, by decide⟩
  have hbar : ∀ t, Closes (" | ".toList ++ t) := fun _ => ⟨_, _, rfl, by decide⟩
  have hgrouped : ∀ retained owned t, (operands (.grouped retained owned)).toList ++ t =
      (commaSeparated (retained.map value)).toList ++
        (" | ".toList ++ ((commaSeparated (owned.map value)).toList ++ t)) := by
    simp [operands]
  cases xs with
  | plain vs =>
    cases ys with
    | plain ws =>
      obtain ⟨rfl, hrest⟩ := apart_values vs ws (hend s) (hend s') h
      exact ⟨rfl, hrest⟩
    | grouped retained owned =>
      rw [hgrouped] at h
      obtain ⟨-, hrest⟩ := apart_values vs retained (hend s) (hbar _) h
      simp at hrest
  | grouped retained owned =>
    rw [hgrouped] at h
    cases ys with
    | plain ws =>
      obtain ⟨-, hrest⟩ := apart_values retained ws (hbar _) (hend s') h
      simp at hrest
    | grouped retained' owned' =>
      rw [hgrouped] at h
      obtain ⟨rfl, howned⟩ := apart_values retained retained' (hbar _) (hbar _) h
      obtain ⟨rfl, hrest⟩ := apart_values owned owned' (hend s) (hend s')
        (List.append_cancel_left howned)
      exact ⟨rfl, hrest⟩

end Outline

/-! ## Operations -/

def RegionOutline.blocks : RegionOutline → List BlockOutline
  | .mk blocks => blocks

def BlockOutline.ops : BlockOutline → List OpOutline
  | .mk _ _ ops => ops

/-- The operation and all operations nested in it have names. -/
inductive OpOutline.Named : OpOutline → Prop
  | intro {name : String} {results : List TypedValue} {values : OperandList}
      {nested : List RegionOutline} : Outline.IsName name →
      (∀ g ∈ nested, ∀ b ∈ g.blocks, ∀ x ∈ b.ops, x.Named) →
      (OpOutline.mk name results values nested).Named

namespace Outline

theorem ops_eq (depth : Nat) (xs : List OpOutline) : ops depth xs = joined (op depth) xs := by
  induction xs with
  | nil => rfl
  | cons x xs ih => rw [ops, ih, joined]

theorem blocks_eq (depth : Nat) (bs : List BlockOutline) :
    blocks depth bs = joined (block depth) bs := by
  induction bs with
  | nil => rfl
  | cons b bs ih => rw [blocks, ih, joined]

/-- A line begins that is not indented further. -/
def Returns (depth : Nat) (s : List Char) : Prop :=
  ∃ c t, s = (indent depth).toList ++ c :: t ∧ c ≠ ' '

/-- Two operations are told apart at every depth, and whatever comes behind them. -/
def ApartOps (x y : OpOutline) : Prop := ∀ depth, Apart (fun _ => True) (op depth) x y

theorem apart_ops (depth : Nat) {xs ys : List OpOutline} (h : ∀ x ∈ xs, ∀ y ∈ ys, ApartOps x y) :
    Apart (Returns depth) (ops (depth + 1)) xs ys := by
  rw [funext (ops_eq (depth + 1))]
  refine apart_joined (fun x hx y hy => h x hx y hy _) (fun _ _ => trivial) (fun _ _ => trivial) ?_
  -- an operation is indented further
  rintro ⟨name, results, values, nested⟩ s ⟨c, t, hline, hc⟩
  simp [op, indent] at hline
  exact hc hline.1.symm

section

variable {depth : Nat}

theorem apart_block {b b' : BlockOutline} (h : ∀ x ∈ b.ops, ∀ y ∈ b'.ops, ApartOps x y) :
    Apart (Returns depth) (block depth) b b' := by
  intro s s' hs hs' heq
  obtain ⟨id, args, inner⟩ := b
  obtain ⟨id', args', inner'⟩ := b'
  simp only [block, String.toList_append, List.append_assoc, List.append_cancel_left_eq,
    blockArgs_eq] at heq
  -- a bracket or a colon ends the number, and a colon the arguments
  have hnumber : ∀ args t, Stops ((listed "(" ")" typedValue args).toList ++
      (":\n".toList ++ t)) := by
    intro args t
    cases args with
    | nil => exact ⟨_, _, rfl, by decide⟩
    | cons v vs =>
      rw [listed_cons, String.toList_append]
      exact ⟨_, _, rfl, by decide⟩
  obtain ⟨hid, hargs⟩ := apart_number id.index id'.index (hnumber _ _) (hnumber _ _) heq
  obtain ⟨rfl, hcolon⟩ := apart_listed "(" ")" (G := fun s => s.head? = some ':')
    (fun v _ w _ => apart_typedValue v w) (fun _ _ => ⟨_, _, rfl, by decide⟩) (by simp)
    rfl rfl hargs
  obtain ⟨rfl, hend⟩ := apart_ops depth h hs hs' (List.append_cancel_left hcolon)
  obtain rfl : id = id' := congrArg BlockId.mk hid
  exact ⟨rfl, hend⟩

theorem apart_region {g g' : RegionOutline}
    (h : ∀ b ∈ g.blocks, ∀ b' ∈ g'.blocks, ∀ x ∈ b.ops, ∀ y ∈ b'.ops, ApartOps x y) :
    Apart (fun _ => True) (region depth) g g' := by
  intro s s' _ _ heq
  obtain ⟨bs⟩ := g
  obtain ⟨bs'⟩ := g'
  have hcons : ∀ b bs t, (region depth (.mk (b :: bs))).toList ++ t = "\x7b\n".toList ++
      ((joined (block depth) (b :: bs)).toList ++ ((indent depth).toList ++ '\x7d' :: t)) := by
    simp [region, joined, blocks_eq]
  cases bs with
  | nil =>
    cases bs' with
    | nil => exact ⟨rfl, List.append_cancel_left heq⟩
    | cons b' bs' => simp [region] at heq
  | cons b bs =>
    cases bs' with
    | nil => simp [region] at heq
    | cons b' bs' =>
      rw [hcons, hcons, List.append_cancel_left_eq] at heq
      -- a block starts with a caret, and the brace that ends the region does not
      have hheading : ∀ b t, ∃ u, (block depth b).toList ++ t =
          (indent depth).toList ++ '^' :: u := by
        rintro ⟨id, args, inner⟩ t
        simp only [block, String.toList_append, List.append_assoc]
        exact ⟨_, rfl⟩
      have hnone : ∀ b t, ¬ ∃ u, (block depth b).toList ++ t =
          (indent depth).toList ++ '\x7d' :: u := by
        rintro b t ⟨u', hu'⟩
        obtain ⟨u, hu⟩ := hheading b t
        simp [hu] at hu'
      obtain ⟨hbs, hrest⟩ := apart_joined
        (G := fun s => ∃ t, s = (indent depth).toList ++ '\x7d' :: t)
        (fun b hb b' hb' => apart_block (h b hb b' hb'))
        (fun b t => (hheading b t).elim fun u hu => ⟨'^', u, hu, by decide⟩)
        (fun s hs => hs.elim fun t ht => ⟨_, t, ht, by decide⟩) hnone ⟨_, rfl⟩ ⟨_, rfl⟩ heq
      exact ⟨congrArg RegionOutline.mk hbs, (List.cons.inj (List.append_cancel_left hrest)).2⟩

/-- Behind the types of the results there is a region or the end of the line. -/
theorem closes_regions (gs : List RegionOutline) (t : List Char) :
    let s := (listed " " "" (region depth) gs).toList ++ ("\n".toList ++ t)
    Closes s ∧ s.take 2 ≠ [' ', ':'] := by
  cases gs with
  | nil => exact ⟨⟨_, _, rfl, by decide⟩, by simp [listed]⟩
  | cons g gs =>
    obtain ⟨bs⟩ := g
    refine ⟨⟨' ', _, by simp [listed_cons]; rfl, by decide⟩, ?_⟩
    cases bs <;> simp [listed_cons, region]

end

theorem apart_op {x y : OpOutline} (hx : x.Named) (hy : y.Named) : ApartOps x y := by
  induction hx generalizing y with
  | @intro name results values nested hname _ ih =>
    intro depth s s' _ _ heq
    obtain @⟨name', results', values', nested', hname', hnested'⟩ := hy
    simp only [op, String.toList_append, List.append_assoc, List.append_cancel_left_eq,
      resultNames_eq, resultTypes_eq, regions_eq] at heq
    -- the text is read off from left to right, one part at a time
    obtain ⟨hids, htext⟩ := apart_listed "" " = " (G := fun s => s.head? ≠ some '%')
      (fun v _ w _ => apart_value v w) (fun _ _ => ⟨_, _, rfl, by decide⟩)
      (fun v t hne => hne (by simp [toList_value])) (hname.head _) (hname'.head _) heq
    have hopen : ∀ t, Stops ("(".toList ++ t) := fun _ => ⟨_, _, rfl, by decide⟩
    obtain ⟨rfl, hvalues⟩ := apart_name hname hname' (hopen _) (hopen _) htext
    obtain ⟨rfl, hbehind⟩ := apart_operands values values' ⟨_, rfl⟩ ⟨_, rfl⟩
      (List.append_cancel_left hvalues)
    obtain ⟨htypes, hregions⟩ := apart_listed " : " ""
      (G := fun s => Closes s ∧ s.take 2 ≠ [' ', ':']) (fun ty _ ty' _ => apart_ty ty ty')
      (fun _ hs => hs.1) (fun _ _ hs => hs.2 rfl) (closes_regions _ _) (closes_regions _ _)
      (List.append_cancel_left hbehind)
    have hnested : ∀ g ∈ nested, ∀ g' ∈ nested', Apart Stops (region depth) g g' :=
      fun g hg g' hg' s s' _ _ => apart_region
        (fun b hb b' hb' x hx y hy => ih g hg b hb x hx (hnested' g' hg' b' hb' y hy))
        trivial trivial
    obtain ⟨rfl, hrest⟩ := apart_listed " " "" (G := fun s => ∃ t, s = '\n' :: t) hnested
      (fun _ hs => hs.elim fun t ht => ⟨_, t, ht, by decide⟩) (by simp) ⟨_, rfl⟩ ⟨_, rfl⟩ hregions
    -- names and types were read apart from each other
    have hresults : results = results' := by
      have hzip := congrArg₂ List.zip hids htypes
      rw [List.zip_map', List.zip_map'] at hzip
      refine List.map_injective_iff.mpr ?_ hzip
      rintro ⟨id, ty⟩ ⟨id', ty'⟩ he
      simpa using he
    rw [hresults]
    exact ⟨rfl, (List.cons.inj hrest).2⟩

/-! ## Routines -/

theorem render_routine_inj {x y : RoutineOutline} (hx : IsName x.name) (hy : IsName y.name)
    (hops : ∀ o ∈ x.body, o.Named) (hops' : ∀ o ∈ y.body, o.Named) (h : x.render = y.render) :
    x = y := by
  have hchars := congrArg String.toList h
  simp only [RoutineOutline.render, String.toList_append, List.append_assoc,
    List.append_cancel_left_eq] at hchars
  have hopen : ∀ t, Stops ("(".toList ++ t) := fun _ => ⟨_, _, rfl, by decide⟩
  have hend : ∀ t, Closes (") \x7b\n".toList ++ t) := fun _ => ⟨_, _, rfl, by decide⟩
  obtain ⟨hname, htext⟩ := apart_name hx hy (hopen _) (hopen _) hchars
  have hparam : ∀ v, (typedValue v).toList.head? = some '%' := fun v => by
    simp [typedValue, toList_value]
  obtain ⟨hparams, hlines⟩ := apart_commaSeparated apart_typedValue hparam x.params y.params
    (hend _) (hend _) (List.append_cancel_left htext)
  obtain ⟨hbody, -⟩ := apart_ops 0
    (fun o ho o' ho' => apart_op (hops o ho) (hops' o' ho'))
    ⟨'\x7d', _, rfl, by decide⟩ ⟨'\x7d', _, rfl, by decide⟩ (List.append_cancel_left hlines)
  cases x
  cases y
  simp_all

end Outline

end BufferOwnership
