import BufferOwnership.Alias.Classes
import Mathlib.Data.Finset.Card
import Mathlib.Data.Nat.Find
import Mathlib.Logic.Function.Iterate

/-!
# What joining does to alias classes

Whether two values are in one class is decided by their leaders. As long as every way up ends
(`AliasClasses.Sound`), shortening ways changes no leader, and joining two values does what it
should and nothing else: two values are in one class afterwards if and only if they were before, or
one was with the first of the two and the other with the second.
-/

namespace BufferOwnership

namespace AliasClasses

variable {c c' c'' : AliasClasses} {a b v w : ValueId} {n : Nat}

/-! ## Ways up -/

/-- Every way up ends in a leader, and links of registered values lead to registered values. -/
structure Sound (c : AliasClasses) : Prop where
  ends : ∀ v, ∃ n, c.link (c.link^[n] v) = c.link^[n] v
  within : ∀ v, v.index < c.links.size → (c.link v).index < c.links.size

theorem link_of_size_le (h : c.links.size ≤ v.index) : c.link v = v := by
  simp [link, Array.getD_eq_getD_getElem?, Array.getElem?_eq_none h]

theorem lt_of_link_ne (h : c.link v ≠ v) : v.index < c.links.size := by
  by_contra hge
  exact h (link_of_size_le (Nat.not_lt.mp hge))

theorem climb_eq_iterate (c : AliasClasses) (n : Nat) (v : ValueId) :
    c.climb n v = c.link^[n] v := by
  induction n generalizing v with
  | zero => rfl
  | succ n ih =>
    rw [climb, Function.iterate_succ_apply]
    split
    · rename_i hroot
      rw [hroot, Function.iterate_fixed hroot]
    · exact ih (c.link v)

theorem leader_eq_iterate (c : AliasClasses) (v : ValueId) :
    c.leader v = c.link^[c.links.size] v :=
  climb_eq_iterate ..

/-- From a leader on, nothing changes. -/
theorem iterate_of_le {m : Nat} (hroot : c.link (c.link^[n] v) = c.link^[n] v) (hle : n ≤ m) :
    c.link^[m] v = c.link^[n] v := by
  obtain ⟨k, rfl⟩ := Nat.exists_eq_add_of_le' hle
  rw [Function.iterate_add_apply, Function.iterate_fixed hroot]

namespace Sound

variable (h : c.Sound)
include h

/-- No way up is longer than the table of links, since it comes to no value twice. -/
theorem link_leader (v : ValueId) : c.link (c.leader v) = c.leader v := by
  classical
  have hends := h.ends v
  obtain ⟨hroot, hmin⟩ : c.link (c.link^[Nat.find hends] v) = c.link^[Nat.find hends] v ∧
      ∀ k < Nat.find hends, c.link (c.link^[k] v) ≠ c.link^[k] v :=
    ⟨Nat.find_spec hends, fun k hk => Nat.find_min hends hk⟩
  generalize Nat.find hends = n at hroot hmin
  have hle : n ≤ c.links.size := by
    have hcard : (Finset.range n).card ≤ (Finset.range c.links.size).card := by
      apply Finset.card_le_card_of_injOn fun k => (c.link^[k] v).index
      · intro k hk
        exact Finset.mem_coe.mpr (Finset.mem_range.mpr
          (lt_of_link_ne (hmin k (Finset.mem_range.mp (Finset.mem_coe.mp hk)))))
      · intro j hj k hk hjk
        have hjn : j < n := Finset.mem_range.mp (Finset.mem_coe.mp hj)
        have hkn : k < n := Finset.mem_range.mp (Finset.mem_coe.mp hk)
        have heq : c.link^[j] v = c.link^[k] v := congrArg ValueId.mk hjk
        -- after a repetition the leader would be reached too early
        have hearly : ∀ {i m}, i < m → m < n → c.link^[i] v = c.link^[m] v → False := by
          intro i m him hmn hsame
          refine hmin (n - m + i) (by omega) ?_
          rw [Function.iterate_add_apply, hsame, ← Function.iterate_add_apply,
            Nat.sub_add_cancel (Nat.le_of_lt hmn)]
          exact hroot
        rcases Nat.lt_trichotomy j k with hlt | heq' | hlt
        · exact (hearly hlt hkn heq).elim
        · exact heq'
        · exact (hearly hlt hjn heq.symm).elim
    simpa using hcard
  rw [leader_eq_iterate, iterate_of_le hroot hle]
  exact hroot

theorem leader_eq (hroot : c.link (c.link^[n] v) = c.link^[n] v) : c.leader v = c.link^[n] v := by
  have hleader := h.link_leader v
  rw [leader_eq_iterate] at hleader ⊢
  rcases Nat.le_total n c.links.size with hle | hle
  · exact iterate_of_le hroot hle
  · exact (iterate_of_le hleader hle).symm

theorem leader_of_root (hroot : c.link v = v) : c.leader v = v :=
  h.leader_eq (n := 0) hroot

theorem leader_link (v : ValueId) : c.leader (c.link v) = c.leader v := by
  have hroot := h.link_leader v
  rw [leader_eq_iterate] at hroot
  rw [leader_eq_iterate, leader_eq_iterate, ← Function.iterate_succ_apply,
    Function.iterate_succ_apply', hroot]

theorem leader_within (hv : v.index < c.links.size) : (c.leader v).index < c.links.size := by
  rw [leader_eq_iterate]
  exact Function.Iterate.rec (fun w => w.index < c.links.size) hv (fun w => h.within w) _

end Sound

/-! ## Shorter ways -/

/-- Classes whose links lead as far up as those of others, or one further. -/
structure Shortens (c c' : AliasClasses) : Prop where
  root : ∀ w, c.link w = w → c'.link w = w
  step : ∀ w, c'.link w = c.link w ∨ c'.link w = c.link (c.link w)

namespace Shortens

variable (hs : Shortens c c') (h : c.Sound)
include hs h

/-- A leader that is reached in some number of steps still is. -/
theorem iterate_eq (hroot : c.link (c.link^[n] w) = c.link^[n] w) :
    c'.link^[n] w = c.leader w := by
  induction n generalizing w with
  | zero => exact (h.leader_of_root hroot).symm
  | succ n ih =>
    rw [Function.iterate_succ_apply] at hroot ⊢
    rcases hs.step w with hone | htwo
    · rw [hone, ih hroot, h.leader_link]
    · rw [htwo, ih, h.leader_link, h.leader_link]
      rw [← Function.iterate_succ_apply, Function.iterate_succ_apply', hroot]
      exact hroot

theorem link_leader (w : ValueId) : c'.link (c.leader w) = c.leader w :=
  hs.root _ (h.link_leader w)

theorem sound (hwithin : ∀ v, v.index < c'.links.size → (c'.link v).index < c'.links.size) :
    c'.Sound where
  ends v := by
    obtain ⟨n, hroot⟩ := h.ends v
    exact ⟨n, by rw [hs.iterate_eq h hroot, hs.link_leader h]⟩
  within := hwithin

theorem leader_eq (h' : c'.Sound) (w : ValueId) : c'.leader w = c.leader w := by
  obtain ⟨n, hroot⟩ := h.ends w
  have hreached := hs.iterate_eq h hroot
  rw [← hreached]
  exact h'.leader_eq (by rw [hreached, hs.link_leader h])

end Shortens

/-- Classes that are sound and in which every value has the leader that it has in others. -/
structure Agrees (c c' : AliasClasses) : Prop where
  sound : c'.Sound
  leader : ∀ w, c'.leader w = c.leader w

theorem Agrees.trans (h : Agrees c c') (h' : Agrees c' c'') :
    Agrees c c'' where
  sound := h'.sound
  leader w := (h'.leader w).trans (h.leader w)

theorem Shortens.agrees (hs : Shortens c c') (h : c.Sound)
    (hwithin : ∀ v, v.index < c'.links.size → (c'.link v).index < c'.links.size) :
    Agrees c c' where
  sound := hs.sound h hwithin
  leader := hs.leader_eq h (hs.sound h hwithin)

/-! ## Finding leaders -/

theorem size_register (c : AliasClasses) (v : ValueId) :
    (c.register v).links.size = max c.links.size (v.index + 1) := by
  simp only [register, Array.size_append, List.size_toArray, List.length_map, List.length_range]
  omega

theorem link_register (c : AliasClasses) (v w : ValueId) :
    (c.register v).link w = c.link w := by
  simp only [link, register, Array.getD_eq_getD_getElem?, Array.getElem?_append]
  split
  · rfl
  · rename_i hge
    rw [Array.getElem?_eq_none (Nat.not_lt.mp hge), List.getElem?_toArray, List.getElem?_map]
    cases hadded : (List.range (v.index + 1 - c.links.size))[w.index - c.links.size]? with
    | none => rfl
    | some k =>
      obtain ⟨-, rfl⟩ := List.getElem?_eq_some_iff.mp hadded
      rw [List.getElem_range, Option.map_some, Option.getD_some, Option.getD_none,
        Nat.add_sub_cancel' (Nat.not_lt.mp hge)]

theorem Sound.register (h : c.Sound) (v : ValueId) : Agrees c (c.register v) := by
  apply Shortens.agrees _ h
  · intro w hw
    rw [link_register]
    by_cases hroot : c.link w = w
    · rwa [hroot]
    · rw [size_register]
      exact Nat.lt_of_lt_of_le (h.within w (lt_of_link_ne hroot)) (Nat.le_max_left ..)
  · exact ⟨fun w hw => (link_register c v w).trans hw, fun w => .inl (link_register c v w)⟩

/-- A value is made to skip the one above it. -/
def skip (c : AliasClasses) (v : ValueId) : AliasClasses :=
  { c with links := c.links.setIfInBounds v.index (c.link (c.link v)) }

/-- Links of one value at most change when an entry is set. -/
theorem link_set (hv : v.index < c.links.size) (above w : ValueId) :
    (c.links.setIfInBounds v.index above).getD w.index w = if w = v then above else c.link w := by
  rw [Array.getD_eq_getD_getElem?, Array.getElem?_setIfInBounds]
  by_cases hw : w = v
  · simp [hw, hv]
  · have hne : v.index ≠ w.index := fun he => hw (congrArg ValueId.mk he.symm)
    rw [if_neg hne, if_neg hw, link, Array.getD_eq_getD_getElem?]

theorem Sound.skip (h : c.Sound) (hv : c.link v ≠ v) :
    Agrees c (c.skip v) ∧ Shortens c (c.skip v) := by
  have hlt := lt_of_link_ne hv
  have hlink : ∀ w, (c.skip v).link w = if w = v then c.link (c.link v) else c.link w :=
    fun w => link_set hlt _ w
  have hs : Shortens c (c.skip v) := by
    constructor
    · intro w hw
      rw [hlink, if_neg (fun he : w = v => hv (he ▸ hw)), hw]
    · intro w
      rw [hlink]
      split
      · rename_i he
        exact .inr (by rw [he])
      · exact .inl rfl
  refine ⟨hs.agrees h fun w hw => ?_, hs⟩
  have hsize : (c.skip v).links.size = c.links.size := Array.size_setIfInBounds ..
  rw [hsize] at hw ⊢
  rcases hs.step w with hone | htwo
  · exact hone ▸ h.within w hw
  · exact htwo ▸ h.within _ (h.within w hw)

/-- With enough fuel, going up two at a time ends in the leader, and no leader changes. -/
theorem Sound.shorten (h : c.Sound) (hroot : c.link (c.link^[n] v) = c.link^[n] v) :
    (shorten n c v).1 = c.leader v ∧ Agrees c (shorten n c v).2 ∧
      (shorten n c v).2.links.size = c.links.size := by
  induction n generalizing c v with
  | zero => exact ⟨(h.leader_of_root hroot).symm, ⟨h, fun _ => rfl⟩, rfl⟩
  | succ n ih =>
    rw [AliasClasses.shorten]
    split
    · rename_i hv
      exact ⟨(h.leader_of_root hv).symm, ⟨h, fun _ => rfl⟩, rfl⟩
    · rename_i hv
      obtain ⟨hagrees, hs⟩ := h.skip hv
      have hlink : (c.skip v).link v = c.link (c.link v) :=
        (link_set (lt_of_link_ne hv) _ v).trans (if_pos rfl)
      -- the way from above ends as soon as the way from here did, less one step
      have habove : (c.skip v).link^[n] (c.link (c.link v)) = c.leader v := by
        rw [← hlink, ← Function.iterate_succ_apply]
        exact hs.iterate_eq h hroot
      obtain ⟨hleader, hagrees', hsize⟩ := ih hagrees.sound (v := c.link (c.link v))
        (by rw [habove, hs.link_leader h])
      refine ⟨?_, hagrees.trans hagrees', hsize.trans (Array.size_setIfInBounds ..)⟩
      exact hleader.trans (by rw [hagrees.leader, h.leader_link, h.leader_link])

theorem Sound.find (h : c.Sound) (v : ValueId) :
    (c.find v).1 = c.leader v ∧ Agrees c (c.find v).2 ∧
      (c.find v).2.links.size = max c.links.size (v.index + 1) := by
  have hregister := h.register v
  have hroot := hregister.sound.link_leader v
  rw [leader_eq_iterate] at hroot
  obtain ⟨hleader, hagrees, hsize⟩ := hregister.sound.shorten hroot
  exact ⟨hleader.trans (hregister.leader v), hregister.trans hagrees,
    hsize.trans (size_register c v)⟩

/-! ## Joining -/

/-- Putting one leader under another moves its class there. -/
theorem Sound.redirect (h : c.Sound) (ha : c.link a = a) (hb : c.link b = b) (hne : a ≠ b)
    (hsize : c'.links.size = c.links.size) (hwithin : a.index < c.links.size)
    (hlink : ∀ w, c'.link w = if w = b then a else c.link w) :
    c'.Sound ∧ ∀ w, c'.leader w = if c.leader w = b then a else c.leader w := by
  have hroot : ∀ w, c'.link (if c.leader w = b then a else c.leader w) =
      if c.leader w = b then a else c.leader w := by
    intro w
    split
    · rw [hlink, if_neg hne, ha]
    · rename_i hw
      rw [hlink, if_neg hw, h.link_leader]
  -- one more step is enough
  have hreach : ∀ n w, c.link (c.link^[n] w) = c.link^[n] w →
      c'.link^[n + 1] w = if c.leader w = b then a else c.leader w := by
    intro n
    induction n with
    | zero =>
      intro w hw
      have hw : c.link w = w := hw
      show c'.link w = _
      rw [hlink, h.leader_of_root hw]
      split
      · rfl
      · exact hw
    | succ n ih =>
      intro w hw
      by_cases hstop : c.link w = w
      · rw [h.leader_of_root hstop, Function.iterate_succ_apply, hlink]
        split
        · rw [Function.iterate_fixed]
          rw [hlink, if_neg hne, ha]
        · rename_i hwb
          rw [hstop, Function.iterate_fixed]
          rw [hlink, if_neg hwb, hstop]
      · have hwb : w ≠ b := by
          rintro rfl
          exact hstop hb
        rw [Function.iterate_succ_apply, hlink, if_neg hwb, ih _ hw, h.leader_link]
  have hsound : c'.Sound := by
    constructor
    · intro w
      obtain ⟨n, hn⟩ := h.ends w
      exact ⟨n + 1, by rw [hreach n w hn, hroot]⟩
    · intro w hw
      rw [hsize] at hw ⊢
      rw [hlink]
      split
      · exact hwithin
      · exact h.within w hw
  refine ⟨hsound, fun w => ?_⟩
  obtain ⟨n, hn⟩ := h.ends w
  rw [← hreach n w hn]
  exact hsound.leader_eq (by rw [hreach n w hn, hroot])

theorem Sound.attach (h : c.Sound) (ha : c.link a = a) (hb : c.link b = b) (hne : a ≠ b)
    (hla : a.index < c.links.size) (hlb : b.index < c.links.size) :
    (c.attach a b).Sound ∧
      ((∀ w, (c.attach a b).leader w = if c.leader w = a then b else c.leader w) ∨
        ∀ w, (c.attach a b).leader w = if c.leader w = b then a else c.leader w) := by
  unfold AliasClasses.attach
  split
  · refine And.imp_right .inl (h.redirect hb ha (Ne.symm hne) ?_ hlb ?_)
    · exact Array.size_setIfInBounds ..
    · exact link_set hla b
  · refine And.imp_right .inr (h.redirect ha hb hne ?_ hla ?_)
    · exact Array.size_setIfInBounds ..
    · exact link_set hlb a

/-- What is together after a join was together before, or was with one of the two values each. -/
theorem Sound.union (h : c.Sound) (a b : ValueId) :
    (c.union a b).Sound ∧ ∀ x y, (c.union a b).same x y = true ↔
      c.same x y = true ∨ (c.same x a = true ∧ c.same y b = true) ∨
        (c.same x b = true ∧ c.same y a = true) := by
  obtain ⟨hleaderA, hagreesA, hsizeA⟩ := h.find a
  obtain ⟨hleaderB, hagreesB, hsizeB⟩ := hagreesA.sound.find b
  -- looking the two up shortens paths, and no leader changes by that
  have hagrees := hagreesA.trans hagreesB
  rw [hagreesA.leader] at hleaderB
  unfold AliasClasses.union
  simp only [hleaderA, hleaderB]
  generalize ((c.find a).2.find b).2 = c₂ at hagrees hsizeB
  have hsame : ∀ x y, c.same x y = true ↔ c.leader x = c.leader y := fun x y => by simp [same]
  simp only [hsame]
  split
  · rename_i heq
    refine ⟨hagrees.sound, fun x y => ?_⟩
    rw [same, decide_eq_true_eq, hagrees.leader, hagrees.leader]
    constructor
    · exact .inl
    · rintro (hxy | ⟨hx, hy⟩ | ⟨hx, hy⟩)
      · exact hxy
      · rw [hx, hy, heq]
      · rw [hx, hy, heq]
  · rename_i hne
    have hrootA := hagrees.sound.link_leader a
    have hrootB := hagrees.sound.link_leader b
    have hwithinA := hagrees.sound.leader_within (v := a) (by omega)
    have hwithinB := hagrees.sound.leader_within (v := b) (by omega)
    rw [hagrees.leader] at hrootA hrootB hwithinA hwithinB
    obtain ⟨hsound, hmoved⟩ := hagrees.sound.attach hrootA hrootB hne hwithinA hwithinB
    refine ⟨hsound, fun x y => ?_⟩
    rw [same, decide_eq_true_eq]
    rcases hmoved with hmoved | hmoved
    · rw [hmoved, hmoved, hagrees.leader, hagrees.leader]
      grind
    · rw [hmoved, hmoved, hagrees.leader, hagrees.leader]
      grind

theorem Sound.empty : empty.Sound where
  ends _ := ⟨0, link_of_size_le (Nat.zero_le _)⟩
  within _ hv := absurd hv (Nat.not_lt_zero _)

/-! ## Growth -/

@[simp] theorem same_self (c : AliasClasses) (v : ValueId) : c.same v v = true := by
  simp [same]

theorem same_symm (h : c.same a b = true) : c.same b a = true := by
  simpa [same, eq_comm] using h

theorem same_trans (h : c.same a b = true) (h' : c.same b v = true) : c.same a v = true := by
  simp only [same, decide_eq_true_eq] at h h' ⊢
  exact h.trans h'

theorem link_of_links (h : c'.links = c.links) : c'.link = c.link := by
  funext v
  rw [link, link, h]

/-- Without links every value is in a class of its own. -/
theorem same_empty_iff : empty.same a b = true ↔ a = b := by
  have hleader : ∀ v, empty.leader v = v := fun v => by
    rw [leader_eq_iterate]
    exact Function.iterate_fixed (link_of_size_le (Nat.zero_le _)) _
  rw [same, hleader, hleader, decide_eq_true_eq]

/-- Only links matter to the leaders. -/
theorem leader_of_links (h : c'.links = c.links) : c'.leader = c.leader := by
  funext v
  rw [leader_eq_iterate, leader_eq_iterate, link_of_links h, h]

/-- Only links matter to the classes. -/
theorem same_of_links (h : c'.links = c.links) : c'.same = c.same := by
  funext a b
  rw [same, same, leader_of_links h]

/-- Sound classes stay sound, and what is together stays together. -/
def Grows (c c' : AliasClasses) : Prop :=
  c.Sound → c'.Sound ∧ ∀ a b, c.same a b = true → c'.same a b = true

namespace Grows

theorem refl (c : AliasClasses) : Grows c c := fun h => ⟨h, fun _ _ => id⟩

theorem trans (h : Grows c c') (h' : Grows c' c'') : Grows c c'' :=
  fun hsound => by
    obtain ⟨hsound', hsame⟩ := h hsound
    obtain ⟨hsound'', hsame'⟩ := h' hsound'
    exact ⟨hsound'', fun a b hab => hsame' a b (hsame a b hab)⟩

theorem of_links (h : c'.links = c.links) : Grows c c' := by
  have hlink := link_of_links h
  intro hsound
  refine ⟨⟨fun v => hlink ▸ hsound.ends v, fun v hv => ?_⟩, fun a b hab => ?_⟩
  · rw [hlink, h] at *
    exact hsound.within v hv
  · rwa [same_of_links h]

theorem union (c : AliasClasses) (a b : ValueId) : Grows c (c.union a b) := fun hsound =>
  ⟨(hsound.union a b).1, fun x y hxy => ((hsound.union a b).2 x y).mpr (.inl hxy)⟩

theorem unionAll (c : AliasClasses) (pairs : List (ValueId × ValueId)) :
    Grows c (c.unionAll pairs) := by
  unfold AliasClasses.unionAll
  induction pairs generalizing c with
  | nil => exact refl c
  | cons pair pairs ih =>
    obtain ⟨a, b⟩ := pair
    rw [List.foldl_cons]
    exact (union c a b).trans (ih (c.union a b))

/-- What is recorded does not matter. -/
theorem record (c : AliasClasses) (indicators : List (ValueId × ValueId)) :
    Grows c { c with indicators } :=
  of_links rfl

theorem setIndicator (c : AliasClasses) (buffer indicator : ValueId) :
    Grows c (c.setIndicator buffer indicator) := by
  rw [AliasClasses.setIndicator]
  exact (record c _).trans (union _ buffer indicator)

end Grows

/-- A buffer and the indicator that is recorded for it are together. -/
theorem Sound.same_setIndicator (h : c.Sound) (buffer indicator : ValueId) :
    (c.setIndicator buffer indicator).same buffer indicator = true := by
  obtain ⟨hsound, -⟩ := Grows.record c
    ((buffer, indicator) :: c.indicators.filter fun entry => entry.1 ≠ buffer) h
  rw [setIndicator, (hsound.union buffer indicator).2]
  exact .inr (.inl ⟨same_self _ _, same_self _ _⟩)

/-! ## Joins -/

/-- Classes come from others by joining the values of some pairs, and by nothing else. -/
structure Joins (c : AliasClasses) (pairs : List (ValueId × ValueId)) (c' : AliasClasses) :
    Prop where
  grows : Grows c c'
  joined : c.Sound → ∀ pair ∈ pairs, c'.same pair.1 pair.2 = true
  least : c.Sound → ∀ R : ValueId → ValueId → Prop, Equivalence R →
    (∀ a b, c.same a b = true → R a b) → (∀ pair ∈ pairs, R pair.1 pair.2) →
    ∀ a b, c'.same a b = true → R a b

namespace Joins

variable {pairs pairs' : List (ValueId × ValueId)}

theorem of_links (h : c'.links = c.links) : Joins c [] c' where
  grows := .of_links h
  joined _ := by simp
  least _ R _ hold _ a b hab := hold a b (same_of_links h ▸ hab)

theorem union (c : AliasClasses) (a b : ValueId) : Joins c [(a, b)] (c.union a b) where
  grows := .union c a b
  joined hsound pair hpair := by
    rw [List.mem_singleton.mp hpair, (hsound.union a b).2]
    exact .inr (.inl ⟨same_self _ _, same_self _ _⟩)
  least hsound R hR hold hnew x y hxy := by
    have hab : R a b := hnew (a, b) (by simp)
    rcases ((hsound.union a b).2 x y).mp hxy with hxy | ⟨hxa, hyb⟩ | ⟨hxb, hya⟩
    · exact hold x y hxy
    · exact hR.trans (hR.trans (hold x a hxa) hab) (hR.symm (hold y b hyb))
    · exact hR.trans (hR.trans (hold x b hxb) (hR.symm hab)) (hR.symm (hold y a hya))

theorem trans (h : Joins c pairs c') (h' : Joins c' pairs' c'') :
    Joins c (pairs ++ pairs') c'' where
  grows := h.grows.trans h'.grows
  joined hsound pair hpair := by
    obtain ⟨hsound', -⟩ := h.grows hsound
    rcases List.mem_append.mp hpair with hpair | hpair
    · exact (h'.grows hsound').2 _ _ (h.joined hsound pair hpair)
    · exact h'.joined hsound' pair hpair
  least hsound R hR hold hnew := by
    apply h'.least (h.grows hsound).1 R hR
    · exact h.least hsound R hR hold fun pair hpair => hnew pair (by simp [hpair])
    · exact fun pair hpair => hnew pair (by simp [hpair])

theorem unionAll (c : AliasClasses) (pairs : List (ValueId × ValueId)) :
    Joins c pairs (c.unionAll pairs) := by
  unfold AliasClasses.unionAll
  induction pairs generalizing c with
  | nil => exact of_links rfl
  | cons pair pairs ih =>
    obtain ⟨a, b⟩ := pair
    rw [List.foldl_cons]
    exact (union c a b).trans (ih (c.union a b))

theorem setIndicator (c : AliasClasses) (v i : ValueId) :
    Joins c [(v, i)] (c.setIndicator v i) := by
  have hrecords : Joins c []
      { c with indicators := (v, i) :: c.indicators.filter fun entry => entry.1 ≠ v } :=
    of_links rfl
  exact hrecords.trans (union _ v i)

/-- It does not matter which value of a pair comes first. -/
theorem swap (h : Joins c pairs c') : Joins c (pairs.map Prod.swap) c' where
  grows := h.grows
  joined hsound := by
    simp only [List.mem_map, forall_exists_index, and_imp, forall_apply_eq_imp_iff₂]
    exact fun pair hpair => same_symm (h.joined hsound pair hpair)
  least hsound R hR hold hnew := by
    apply h.least hsound R hR hold
    exact fun pair hpair => hR.symm (hnew pair.swap (List.mem_map_of_mem hpair))

end Joins

/-! ## Recorded indicators -/

theorem mem_indicators {i : ValueId} (h : c.indicatorOf? v = some i) : (v, i) ∈ c.indicators := by
  obtain ⟨l₁, l₂, hsplit, -⟩ := List.lookup_eq_some_iff.mp h
  simp [hsplit]

theorem indicators_shorten (fuel : Nat) (c : AliasClasses) (v : ValueId) :
    (shorten fuel c v).2.indicators = c.indicators := by
  induction fuel generalizing c v with
  | zero => rfl
  | succ fuel ih =>
    rw [shorten]
    split
    · rfl
    · rw [ih]

theorem indicators_find (c : AliasClasses) (v : ValueId) :
    (c.find v).2.indicators = c.indicators :=
  indicators_shorten ..

theorem indicators_attach (c : AliasClasses) (a b : ValueId) :
    (c.attach a b).indicators = c.indicators := by
  unfold attach
  split <;> rfl

/-- Joining classes does not change what is recorded. -/
theorem indicators_union (c : AliasClasses) (a b : ValueId) :
    (c.union a b).indicators = c.indicators := by
  unfold union
  simp only
  split
  · rw [indicators_find, indicators_find]
  · rw [indicators_attach, indicators_find, indicators_find]

theorem indicators_unionAll (c : AliasClasses) (pairs : List (ValueId × ValueId)) :
    (c.unionAll pairs).indicators = c.indicators := by
  unfold unionAll
  induction pairs generalizing c with
  | nil => rfl
  | cons pair pairs ih => rw [List.foldl_cons, ih, indicators_union]

theorem indicators_setIndicator_subset (c : AliasClasses) (v i : ValueId) :
    (c.setIndicator v i).indicators ⊆ (v, i) :: c.indicators := by
  rw [setIndicator, indicators_union]
  exact List.cons_subset_cons _ (List.filter_sublist.subset)

end AliasClasses

end BufferOwnership
