import BufferOwnership.Proofs.AliasAnswers
import Mathlib.Algebra.GroupWithZero.Nat
import Mathlib.Data.Nat.Log

/-!
# Ranks of alias classes

A rank is raised only when two classes of equal rank are joined, so it costs as many values as there
are already, and links lead from lower ranks to higher ones (`Ranked`). With identifiers of 32 bits
there are not enough values for a rank above 32: the limit on ranks is never met, and no way up has
more than 32 links.
-/

namespace BufferOwnership

namespace AliasClasses

variable {c c' : AliasClasses} {a b v w : ValueId} {n fuel : Nat} {q : Call}

/-! ## Leaders and the values below them -/

theorem Sound.link_eq_self_iff (h : c.Sound) : c.link v = v ↔ c.leader v = v :=
  ⟨h.leader_of_root, fun hv => hv ▸ h.link_leader v⟩

/-- How many registered values have a value as their leader. -/
def weight (c : AliasClasses) (v : ValueId) : Nat :=
  ((Finset.range c.links.size).filter fun i => c.leader ⟨i⟩ = v).card

theorem weight_le_size (c : AliasClasses) (v : ValueId) : c.weight v ≤ c.links.size := by
  simpa [weight] using
    Finset.card_filter_le (Finset.range c.links.size) fun i => c.leader ⟨i⟩ = v

/-- Registering more values takes none away. -/
theorem weight_mono (hsize : c.links.size ≤ c'.links.size)
    (hleader : ∀ w, c'.leader w = c.leader w) (v : ValueId) : c.weight v ≤ c'.weight v := by
  simp only [weight, hleader]
  exact Finset.card_le_card (Finset.filter_subset_filter _ (Finset.range_mono hsize))

/-- A registered leader is below itself. -/
theorem Sound.weight_pos (h : c.Sound) (hv : v.index < c.links.size) (hroot : c.link v = v) :
    0 < c.weight v :=
  Finset.card_pos.mpr ⟨v.index,
    Finset.mem_filter.mpr ⟨Finset.mem_range.mpr hv, h.leader_of_root hroot⟩⟩

/-- When one leader goes under another, that one gets all its values. -/
theorem weight_redirect (hne : a ≠ b) (hsize : c'.links.size = c.links.size)
    (hleader : ∀ w, c'.leader w = if c.leader w = b then a else c.leader w) :
    c'.weight a = c.weight a + c.weight b := by
  have hdisjoint : Disjoint
      ((Finset.range c.links.size).filter fun i => c.leader ⟨i⟩ = a)
      ((Finset.range c.links.size).filter fun i => c.leader ⟨i⟩ = b) :=
    Finset.disjoint_filter.mpr fun i _ ha hb => hne (ha.symm.trans hb)
  rw [weight, weight, weight, ← Finset.card_union_of_disjoint hdisjoint, ← Finset.filter_or, hsize]
  congr 1
  refine Finset.filter_congr fun i _ => ?_
  rw [hleader]
  by_cases hb : c.leader ⟨i⟩ = b <;> simp [hb]

/-- What is below other leaders stays there. -/
theorem weight_redirect_of_ne (hva : v ≠ a) (hvb : v ≠ b) (hsize : c'.links.size = c.links.size)
    (hleader : ∀ w, c'.leader w = if c.leader w = b then a else c.leader w) :
    c'.weight v = c.weight v := by
  rw [weight, weight, hsize]
  congr 1
  refine Finset.filter_congr fun i _ => ?_
  rw [hleader]
  by_cases hb : c.leader ⟨i⟩ = b
  · simp [hb, Ne.symm hva, Ne.symm hvb]
  · simp [hb]

/-! ## Looking up leaves ranks alone -/

theorem rank_register (c : AliasClasses) (v w : ValueId) : (c.register v).rank w = c.rank w := by
  simp only [rank, register, Array.getD_eq_getD_getElem?, Array.getElem?_append]
  split
  · rfl
  · rename_i hge
    rw [Array.getElem?_eq_none (Nat.not_lt.mp hge), Array.getElem?_replicate]
    split <;> rfl

theorem size_ranks_register (h : c.ranks.size = c.links.size) (v : ValueId) :
    (c.register v).ranks.size = (c.register v).links.size := by
  simp [register, h]

theorem ranks_shorten (fuel : Nat) (c : AliasClasses) (v : ValueId) :
    (shorten fuel c v).2.ranks = c.ranks := by
  induction fuel generalizing c v with
  | zero => rfl
  | succ fuel ih =>
    rw [shorten]
    split
    · rfl
    · rw [ih]

theorem rank_find (c : AliasClasses) (v w : ValueId) : (c.find v).2.rank w = c.rank w := by
  rw [rank, find, ranks_shorten]
  exact rank_register c v w

/-- Every way up ends, and ranks are kept for the values that have links. -/
structure Paired (c : AliasClasses) : Prop where
  sound : c.Sound
  sizes : c.ranks.size = c.links.size

theorem Paired.empty : empty.Paired := ⟨.empty, rfl⟩

theorem Paired.find (h : c.Paired) (v : ValueId) : (c.find v).2.Paired where
  sound := (h.sound.find v).2.1.sound
  sizes := by
    rw [(h.sound.find v).2.2, ← size_register, ← size_ranks_register h.sizes, AliasClasses.find,
      ranks_shorten]

/-! ## Joining two leaders -/

/-- Two leaders that are registered, and not one. -/
structure Joinable (c : AliasClasses) (a b : ValueId) : Prop where
  left : c.link a = a ∧ a.index < c.links.size
  right : c.link b = b ∧ b.index < c.links.size
  ne : a ≠ b

/-- The one of two leaders that stays one. -/
def upper (c : AliasClasses) (a b : ValueId) : ValueId := if c.rank a < c.rank b then b else a

/-- The one of two leaders that comes under the other. -/
def lower (c : AliasClasses) (a b : ValueId) : ValueId := if c.rank a < c.rank b then a else b

/-- What holds of both leaders holds of the one that stays and of the one that does not. -/
theorem upper_lower {P : ValueId → Prop} (ha : P a) (hb : P b) (c : AliasClasses) :
    P (c.upper a b) ∧ P (c.lower a b) := by
  unfold upper lower
  split
  · exact ⟨hb, ha⟩
  · exact ⟨ha, hb⟩

theorem upper_ne_lower (hne : a ≠ b) : c.upper a b ≠ c.lower a b := by
  unfold upper lower
  split
  · exact hne.symm
  · exact hne

theorem rank_lower_le (c : AliasClasses) (a b : ValueId) :
    c.rank (c.lower a b) ≤ c.rank (c.upper a b) := by
  unfold upper lower
  split <;> omega

theorem rank_lower_eq_iff : c.rank (c.lower a b) = c.rank (c.upper a b) ↔ c.rank a = c.rank b := by
  unfold upper lower
  split <;> omega

theorem size_attach (c : AliasClasses) (a b : ValueId) :
    (c.attach a b).links.size = c.links.size := by
  unfold attach
  split <;> exact Array.size_setIfInBounds ..

theorem size_ranks_attach (c : AliasClasses) (a b : ValueId) :
    (c.attach a b).ranks.size = c.ranks.size := by
  unfold attach
  split
  · rfl
  · dsimp only
    split
    · exact Array.size_setIfInBounds ..
    · rfl

theorem link_attach (hj : c.Joinable a b) (w : ValueId) :
    (c.attach a b).link w = if w = c.lower a b then c.upper a b else c.link w := by
  unfold attach upper lower
  split
  · exact link_set hj.left.2 b w
  · exact link_set hj.right.2 a w

section

variable (ha : a.index < c.ranks.size)
include ha

/-- Only a leader that stays one against an equal rank gains, and no more than the limit allows. -/
theorem rank_attach (w : ValueId) :
    (c.attach a b).rank w =
      if w = c.upper a b ∧ c.rank a = c.rank b then min (c.rank (c.upper a b) + 1) rankLimit
      else c.rank w := by
  unfold attach upper
  by_cases hlt : c.rank a < c.rank b
  · rw [if_pos hlt, if_neg (by omega)]
    rfl
  · rw [if_neg hlt, if_neg hlt]
    by_cases heq : c.rank a = c.rank b
    · rw [if_pos heq, rank, Array.getD_eq_getD_getElem?, Array.getElem?_setIfInBounds]
      by_cases hw : w = a
      · simp [hw, ha, heq]
      · have hne : a.index ≠ w.index := fun he => hw (congrArg ValueId.mk he.symm)
        rw [if_neg hne, if_neg (by simp [hw]), rank, Array.getD_eq_getD_getElem?]
    · rw [if_neg heq, if_neg (by simp [heq])]
      rfl

theorem rank_attach_of_ne (hw : w ≠ c.upper a b) : (c.attach a b).rank w = c.rank w := by
  rw [rank_attach ha, if_neg fun hgain => hw hgain.1]

/-- The leader that stays outranks the one that comes under it, if it can still gain. -/
theorem rank_lower_lt_attach (hlimit : c.rank (c.upper a b) < rankLimit) :
    c.rank (c.lower a b) < (c.attach a b).rank (c.upper a b) := by
  have hle := c.rank_lower_le a b
  rw [rank_attach ha, Nat.min_eq_left hlimit]
  split
  · omega
  · rename_i hdiffer
    have hne : c.rank (c.lower a b) ≠ c.rank (c.upper a b) := fun he =>
      hdiffer ⟨rfl, rank_lower_eq_iff.mp he⟩
    omega

theorem rank_le_attach (hlimit : c.rank (c.upper a b) < rankLimit) (w : ValueId) :
    c.rank w ≤ (c.attach a b).rank w := by
  rw [rank_attach ha, Nat.min_eq_left hlimit]
  split
  · rename_i hgain
    rw [hgain.1]
    exact Nat.le_succ _
  · exact Nat.le_refl _

end

theorem Sound.leader_attach (h : c.Sound) (hj : c.Joinable a b) :
    (c.attach a b).Sound ∧ ∀ w, (c.attach a b).leader w =
      if c.leader w = c.lower a b then c.upper a b else c.leader w := by
  obtain ⟨hupper, hlower⟩ :=
    upper_lower (P := fun v => c.link v = v ∧ v.index < c.links.size) hj.left hj.right c
  exact h.redirect hupper.1 hlower.1 (upper_ne_lower hj.ne) (size_attach c a b) hupper.2
    (link_attach hj)

/-- Two values are looked up, and then their leaders are joined unless they are one. -/
theorem Sound.union_eq (h : c.Sound) (a b : ValueId) :
    c.union a b = if c.leader a = c.leader b then ((c.find a).2.find b).2
      else ((c.find a).2.find b).2.attach (c.leader a) (c.leader b) := by
  obtain ⟨hleaderA, hagrees, -⟩ := h.find a
  have hleaderB := (hagrees.sound.find b).1
  rw [hagrees.leader] at hleaderB
  unfold AliasClasses.union
  simp only [hleaderA, hleaderB]

theorem Sound.size_find_find (h : c.Sound) (a b : ValueId) :
    ((c.find a).2.find b).2.links.size = max (max c.links.size (a.index + 1)) (b.index + 1) := by
  rw [((h.find a).2.1.sound.find b).2.2, (h.find a).2.2]

/-- After both values have been looked up, their leaders can be joined unless they are one. -/
theorem Sound.joinable_found (h : c.Sound) (hne : c.leader a ≠ c.leader b) :
    ((c.find a).2.find b).2.Joinable (c.leader a) (c.leader b) := by
  have hagrees := h.find_find a b
  have hsize := h.size_find_find a b
  have hfound : ∀ x : ValueId, x.index < ((c.find a).2.find b).2.links.size →
      ((c.find a).2.find b).2.link (c.leader x) = c.leader x ∧
        (c.leader x).index < ((c.find a).2.find b).2.links.size := by
    intro x hx
    rw [← hagrees.leader]
    exact ⟨hagrees.sound.link_leader x, hagrees.sound.leader_within hx⟩
  exact ⟨hfound a (by omega), hfound b (by omega), hne⟩

theorem Sound.size_union (h : c.Sound) (a b : ValueId) :
    (c.union a b).links.size = max (max c.links.size (a.index + 1)) (b.index + 1) := by
  rw [h.union_eq]
  split
  · exact h.size_find_find a b
  · rw [size_attach, h.size_find_find]

theorem Paired.union (h : c.Paired) (a b : ValueId) : (c.union a b).Paired where
  sound := (h.sound.union a b).1
  sizes := by
    have hfound := (h.find a).find b
    rw [h.sound.union_eq]
    split
    · exact hfound.sizes
    · rw [size_ranks_attach, size_attach, hfound.sizes]

theorem Paired.record (h : c.Paired) (indicators : List (ValueId × ValueId)) :
    Paired { c with indicators } :=
  ⟨(Grows.record c indicators h.sound).1, h.sizes⟩

/-! ## Ranks rise along links -/

/-- Ranks rise along links, and a leader of rank `n` has at least `2 ^ n` values below it. -/
structure Ranked (c : AliasClasses) : Prop extends Paired c where
  rises : ∀ v, c.link v ≠ v → c.rank v < c.rank (c.link v)
  weighs : ∀ v, v.index < c.links.size → c.link v = v → 2 ^ c.rank v ≤ c.weight v

namespace Ranked

theorem empty : empty.Ranked where
  toPaired := .empty
  rises _ hv := absurd (link_of_size_le (Nat.zero_le _)) hv
  weighs _ hv := absurd hv (Nat.not_lt_zero _)

variable (h : c.Ranked)
include h

theorem rank_le_link (v : ValueId) : c.rank v ≤ c.rank (c.link v) := by
  by_cases hv : c.link v = v
  · rw [hv]
  · exact Nat.le_of_lt (h.rises v hv)

theorem rank_le_iterate (v : ValueId) (n : Nat) : c.rank v ≤ c.rank (c.link^[n] v) := by
  induction n with
  | zero => exact Nat.le_refl _
  | succ n ih =>
    rw [Function.iterate_succ_apply']
    exact Nat.le_trans ih (h.rank_le_link _)

/-- A rank costs values: there are at least as many as a class of this rank has. -/
theorem two_pow_rank_le (hv : v.index < c.links.size) : 2 ^ c.rank v ≤ c.links.size := by
  have hleader : c.rank v ≤ c.rank (c.leader v) := by
    rw [leader_eq_iterate]
    exact h.rank_le_iterate v _
  calc 2 ^ c.rank v
      ≤ 2 ^ c.rank (c.leader v) := Nat.pow_le_pow_right Nat.zero_lt_two hleader
    _ ≤ c.weight (c.leader v) :=
      h.weighs _ (h.sound.leader_within hv) (h.sound.link_leader v)
    _ ≤ c.links.size := c.weight_le_size _

theorem rank_le_log (v : ValueId) : c.rank v ≤ Nat.log 2 c.links.size := by
  by_cases hv : v.index < c.links.size
  · exact Nat.le_log_of_pow_le Nat.one_lt_two (h.two_pow_rank_le hv)
  · -- a value that is not registered has no rank yet
    rw [rank, Array.getD_eq_getD_getElem?,
      Array.getElem?_eq_none (h.sizes ▸ Nat.le_of_not_lt hv)]
    exact Nat.zero_le _

/-! ## What keeps the order -/

/-- Links may lead further up. -/
theorem of_shortens (hs : Shortens c c') (hagrees : Agrees c c')
    (hsize : c'.links.size = c.links.size) (hranks : c'.ranks = c.ranks) : c'.Ranked where
  sound := hagrees.sound
  sizes := by rw [hranks, hsize, h.sizes]
  rises v hv := by
    have hrank : c'.rank = c.rank := by
      funext w
      rw [rank, rank, hranks]
    rw [hrank]
    have hrises := h.rises v fun hroot => hv (hs.root v hroot)
    rcases hs.step v with hone | htwo
    · rwa [hone]
    · rw [htwo]
      exact Nat.lt_of_lt_of_le hrises (h.rank_le_link _)
  weighs v hv hroot := by
    have hroot' : c.link v = v := by
      rw [h.sound.link_eq_self_iff, ← hagrees.leader, ← hagrees.sound.link_eq_self_iff]
      exact hroot
    rw [hsize] at hv
    rw [rank, hranks]
    exact Nat.le_trans (h.weighs v hv hroot') (weight_mono hsize.ge hagrees.leader v)

theorem skip (hv : c.link v ≠ v) : (c.skip v).Ranked := by
  obtain ⟨hagrees, hs⟩ := h.sound.skip hv
  exact h.of_shortens hs hagrees (Array.size_setIfInBounds ..) rfl

omit h in
theorem shorten (fuel : Nat) (h : c.Ranked) (v : ValueId) : (shorten fuel c v).2.Ranked := by
  induction fuel generalizing c v with
  | zero => exact h
  | succ fuel ih =>
    rw [AliasClasses.shorten]
    split
    · exact h
    · rename_i hv
      exact ih (h.skip hv) _

/-- A new value stands alone, and its rank is that of a single value. -/
theorem register (v : ValueId) : (c.register v).Ranked where
  sound := (h.sound.register v).sound
  sizes := size_ranks_register h.sizes v
  rises w hw := by
    rw [link_register] at hw
    rw [rank_register, link_register, rank_register]
    exact h.rises w hw
  weighs w hw hroot := by
    have hagrees := h.sound.register v
    rw [rank_register]
    by_cases hold : w.index < c.links.size
    · rw [link_register] at hroot
      have hsize : c.links.size ≤ (c.register v).links.size := by
        rw [size_register]
        exact Nat.le_max_left ..
      exact Nat.le_trans (h.weighs w hold hroot) (weight_mono hsize hagrees.leader w)
    · rw [rank, Array.getD_eq_getD_getElem?,
        Array.getElem?_eq_none (h.sizes ▸ Nat.le_of_not_lt hold)]
      exact hagrees.sound.weight_pos hw hroot

theorem find (v : ValueId) : (c.find v).2.Ranked := shorten _ (h.register v) v

/-- Only the leader that comes under the other has a new link, and that one outranks it. -/
theorem rises_attach (hj : c.Joinable a b) (hlimit : c.rank (c.upper a b) < rankLimit)
    (hw : (c.attach a b).link w ≠ w) :
    (c.attach a b).rank w < (c.attach a b).rank ((c.attach a b).link w) := by
  have hranks : a.index < c.ranks.size := h.sizes ▸ hj.left.2
  obtain ⟨hroot, -⟩ := upper_lower (P := fun v => c.link v = v) hj.left.1 hj.right.1 c
  rw [link_attach hj] at hw ⊢
  by_cases hlow : w = c.lower a b
  · rw [if_pos hlow, hlow, rank_attach_of_ne hranks (upper_ne_lower hj.ne).symm]
    exact rank_lower_lt_attach hranks hlimit
  · rw [if_neg hlow] at hw ⊢
    have hup : w ≠ c.upper a b := fun he => hw (he ▸ hroot)
    rw [rank_attach_of_ne hranks hup]
    exact Nat.lt_of_lt_of_le (h.rises w hw) (rank_le_attach hranks hlimit _)

/-- A rank is gained against a class of the same rank, which has as many values again. -/
theorem weighs_attach (hj : c.Joinable a b) (hw : w.index < c.links.size)
    (hroot : (c.attach a b).link w = w) :
    2 ^ (c.attach a b).rank w ≤ (c.attach a b).weight w := by
  have hranks : a.index < c.ranks.size := h.sizes ▸ hj.left.2
  have hapart : c.upper a b ≠ c.lower a b := upper_ne_lower hj.ne
  obtain ⟨-, hleader⟩ := h.sound.leader_attach hj
  have hlow : w ≠ c.lower a b := by
    rintro rfl
    rw [link_attach hj, if_pos rfl] at hroot
    exact hapart hroot
  rw [link_attach hj, if_neg hlow] at hroot
  by_cases hup : w = c.upper a b
  · obtain ⟨hU, hL⟩ := upper_lower (P := fun v => 2 ^ c.rank v ≤ c.weight v)
      (h.weighs a hj.left.2 hj.left.1) (h.weighs b hj.right.2 hj.right.1) c
    rw [hup, weight_redirect hapart (size_attach c a b) hleader, rank_attach hranks]
    split
    · rename_i hgain
      -- both classes have the rank that is gained upon
      rw [rank_lower_eq_iff.mpr hgain.2] at hL
      calc 2 ^ min (c.rank (c.upper a b) + 1) rankLimit
          ≤ 2 ^ (c.rank (c.upper a b) + 1) :=
            Nat.pow_le_pow_right Nat.zero_lt_two (Nat.min_le_left ..)
        _ = 2 ^ c.rank (c.upper a b) + 2 ^ c.rank (c.upper a b) := by omega
        _ ≤ c.weight (c.upper a b) + c.weight (c.lower a b) := Nat.add_le_add hU hL
    · exact Nat.le_add_right_of_le hU
  · -- any other leader keeps both its rank and its class
    rw [rank_attach_of_ne hranks hup,
      weight_redirect_of_ne hup hlow (size_attach c a b) hleader]
    exact h.weighs w hw hroot

theorem attach (hj : c.Joinable a b) (hlimit : c.rank (c.upper a b) < rankLimit) :
    (c.attach a b).Ranked where
  sound := (h.sound.leader_attach hj).1
  sizes := by rw [size_ranks_attach, size_attach, h.sizes]
  rises _ hw := h.rises_attach hj hlimit hw
  weighs w hw hroot := h.weighs_attach hj (size_attach c a b ▸ hw) hroot

theorem union (hlimit : ∀ v, c.rank v < rankLimit) (a b : ValueId) : (c.union a b).Ranked := by
  have hfound := (h.find a).find b
  rw [h.sound.union_eq]
  split
  · exact hfound
  · rename_i hne
    refine hfound.attach (h.sound.joinable_found hne) ?_
    rw [rank_find, rank_find]
    exact hlimit _

/-- What is recorded does not matter. -/
theorem of_links (hlinks : c'.links = c.links) (hranks : c'.ranks = c.ranks) : c'.Ranked := by
  have hlink := link_of_links hlinks
  refine h.of_shortens ⟨fun w hw => ?_, fun w => .inl ?_⟩
    ⟨(Grows.of_links hlinks h.sound).1, fun w => ?_⟩ (by rw [hlinks]) hranks
  · rw [hlink, hw]
  · rw [hlink]
  · rw [leader_of_links hlinks]

end Ranked

/-! ## The way up -/

theorem shorten_of_root (hv : c.link v = v) (fuel : Nat) : shorten fuel c v = (v, c) := by
  cases fuel with
  | zero => rfl
  | succ fuel => rw [shorten, if_pos hv]

/-- Going up ends after no more steps than there are ranks above. More fuel changes nothing. -/
theorem Ranked.shorten_eq (h : c.Ranked) (hranks : ∀ w, c.rank w ≤ n) {fuel' : Nat}
    (hfuel : n ≤ c.rank v + fuel) (hfuel' : n ≤ c.rank v + fuel') :
    AliasClasses.shorten fuel c v = AliasClasses.shorten fuel' c v := by
  induction fuel generalizing c v fuel' with
  | zero =>
    have hroot : c.link v = v := by
      by_contra hv
      have hrises := h.rises v hv
      have hbound := hranks (c.link v)
      omega
    rw [shorten_of_root hroot, shorten_of_root hroot]
  | succ fuel ih =>
    by_cases hv : c.link v = v
    · rw [shorten_of_root hv, shorten_of_root hv]
    · have hrises := h.rises v hv
      have hbound := hranks (c.link v)
      obtain ⟨fuel', rfl⟩ : ∃ k, fuel' = k + 1 := ⟨fuel' - 1, by omega⟩
      rw [AliasClasses.shorten, AliasClasses.shorten, if_neg hv, if_neg hv]
      -- two links further up the rank is higher by one at least
      have habove : c.rank v + 1 ≤ (c.skip v).rank (c.link (c.link v)) :=
        Nat.le_trans hrises (h.rank_le_link _)
      exact ih (h.skip hv) hranks (by omega) (by omega)

/-- The table of links is fuel enough, and so is its logarithm. -/
theorem Ranked.shorten_of_log_le (h : c.Ranked) (hfuel : Nat.log 2 c.links.size ≤ fuel) :
    AliasClasses.shorten fuel c v = AliasClasses.shorten c.links.size c v :=
  h.shorten_eq h.rank_le_log (Nat.le_add_left_of_le hfuel)
    (Nat.le_add_left_of_le (Nat.log_le_self 2 _))

/-! ## Any calls on identifiers of 32 bits -/

/-- The values that a call names. -/
def Call.values : Call → List ValueId
  | .union a b | .equivalent a b | .setIndicator a b => [a, b]
  | .leader a | .indicatorOf a | .takeIndicator a => [a]

/-- What finding, joining and recording keep is kept by every call. -/
theorem call_keeps {P : AliasClasses → Prop} (h : P c)
    (hfind : ∀ c, P c → ∀ v ∈ q.values, P (c.find v).2)
    (hunion : ∀ c, P c → ∀ a ∈ q.values, ∀ b ∈ q.values, P (c.union a b))
    (hrecord : ∀ c, P c → ∀ indicators, P { c with indicators }) : P (c.call q).2 := by
  cases q with
  | union a b =>
    simp only [call]
    exact hunion c h a (by simp [Call.values]) b (by simp [Call.values])
  | equivalent a b =>
    by_cases hab : a = b
    · rwa [call, if_pos hab]
    · simp only [call_equivalent_of_ne c hab]
      exact hfind _ (hfind c h a (by simp [Call.values])) b (by simp [Call.values])
  | leader a =>
    simp only [call]
    exact hfind c h a (by simp [Call.values])
  | setIndicator buffer i =>
    simp only [call, setIndicator]
    exact hunion _ (hrecord c h _) buffer (by simp [Call.values]) i (by simp [Call.values])
  | indicatorOf buffer => exact h
  | takeIndicator buffer => exact hrecord c h _

/-- Ranks are in order, and there are no more values than 32 bits can number. -/
structure Numbered (c : AliasClasses) : Prop where
  ranked : c.Ranked
  size : c.links.size ≤ 2 ^ 32

namespace Numbered

variable (h : c.Numbered)
include h

theorem log_size_le : Nat.log 2 c.links.size ≤ 32 :=
  calc Nat.log 2 c.links.size
      ≤ Nat.log 2 (2 ^ 32) := Nat.log_mono_right h.size
    _ = 32 := Nat.log_pow Nat.one_lt_two 32

theorem rank_le (v : ValueId) : c.rank v ≤ 32 := Nat.le_trans (h.ranked.rank_le_log v) h.log_size_le

theorem rank_lt_limit (v : ValueId) : c.rank v < rankLimit :=
  Nat.lt_of_le_of_lt (h.rank_le v) (by decide)

theorem register (hv : v.index < 2 ^ 32) : (c.register v).Numbered where
  ranked := h.ranked.register v
  size := by
    rw [size_register]
    exact Nat.max_le.mpr ⟨h.size, hv⟩

theorem find (hv : v.index < 2 ^ 32) : (c.find v).2.Numbered where
  ranked := h.ranked.find v
  size := by
    rw [(h.ranked.sound.find v).2.2]
    exact Nat.max_le.mpr ⟨h.size, hv⟩

theorem union (ha : a.index < 2 ^ 32) (hb : b.index < 2 ^ 32) : (c.union a b).Numbered where
  ranked := h.ranked.union h.rank_lt_limit a b
  size := by
    rw [h.ranked.sound.size_union]
    exact Nat.max_le.mpr ⟨Nat.max_le.mpr ⟨h.size, ha⟩, hb⟩

theorem record (indicators : List (ValueId × ValueId)) : Numbered { c with indicators } where
  ranked := h.ranked.of_links rfl rfl
  size := h.size

/-- A call keeps ranks in order. -/
theorem call (hq : ∀ v ∈ q.values, v.index < 2 ^ 32) : (c.call q).2.Numbered :=
  call_keeps h (fun _ hc v hv => hc.find (hq v hv))
    (fun _ hc a ha b hb => hc.union (hq a ha) (hq b hb)) fun _ hc => hc.record

omit h in
/-- Any number of calls keeps ranks in order. -/
theorem run {calls : List Call} (h : c.Numbered)
    (hcalls : ∀ q ∈ calls, ∀ v ∈ q.values, v.index < 2 ^ 32) : (c.run calls).2.Numbered := by
  induction calls generalizing c with
  | nil => exact h
  | cons q calls ih =>
    exact ih (h.call (hcalls q (by simp))) fun q' hq' => hcalls q' (by simp [hq'])

omit h in
theorem empty : empty.Numbered := ⟨.empty, Nat.zero_le _⟩

end Numbered

/-- **Ranks bound the ways up, and values bound the ranks.** Whatever calls have been made on
identifiers of 32 bits, ranks and links are kept for the same values; links lead to registered
values, and from lower ranks to higher ones. So going up from any identifier stops at a leader after
32 steps at most. A leader of rank `n` has `2 ^ n` or more registered values below it, so no rank is
above 32, and none that is raised meets the limit. -/
theorem run_ranks_bounded {calls : List Call}
    (hcalls : ∀ q ∈ calls, ∀ v ∈ q.values, v.index < 2 ^ 32) {c : AliasClasses}
    (hc : (empty.run calls).2 = c) :
    c.ranks.size = c.links.size ∧ c.links.size ≤ 2 ^ 32 ∧
      (∀ above ∈ c.links, above.index < c.links.size) ∧
      (∀ v, c.link v ≠ v → c.rank v < c.rank (c.link v)) ∧
      (∀ v, v.index < 2 ^ 32 → (c.find v).2.link (c.find v).1 = (c.find v).1 ∧
        ∀ fuel, 32 ≤ fuel → shorten fuel (c.register v) v = c.find v) ∧
      (∀ v, v.index < c.links.size → c.link v = v → 2 ^ c.rank v ≤ c.weight v) ∧
      (∀ v, c.rank v ≤ 32 ∧ min (c.rank v + 1) rankLimit = c.rank v + 1) := by
  have h : c.Numbered := hc ▸ Numbered.empty.run hcalls
  refine ⟨h.ranked.sizes, h.size, fun above habove => ?_, h.ranked.rises, fun v hv => ⟨?_, ?_⟩,
    h.ranked.weighs, fun v => ⟨h.rank_le v, Nat.min_eq_left (h.rank_lt_limit v)⟩⟩
  · obtain ⟨i, hi, rfl⟩ := Array.getElem_of_mem habove
    have hlink : c.link ⟨i⟩ = c.links[i] := by simp [link, hi]
    exact hlink ▸ h.ranked.sound.within ⟨i⟩ hi
  · obtain ⟨hleader, hagrees, -⟩ := h.ranked.sound.find v
    rw [hleader, ← hagrees.leader]
    exact hagrees.sound.link_leader v
  · intro fuel hfuel
    have hregistered := h.register hv
    exact hregistered.ranked.shorten_of_log_le (Nat.le_trans hregistered.log_size_le hfuel)

/-- Classes of two are joined to one of four, and the last identifier is registered. -/
def fullCalls : List Call :=
  [.union ⟨0⟩ ⟨1⟩, .union ⟨2⟩ ⟨3⟩, .setIndicator ⟨3⟩ ⟨1⟩, .leader ⟨2 ^ 32 - 1⟩,
   .equivalent ⟨3⟩ ⟨2 ^ 32 - 1⟩, .takeIndicator ⟨3⟩]

theorem fullCalls_ranks_bounded :
    (∀ q ∈ fullCalls, ∀ v ∈ q.values, v.index < 2 ^ 32) ∧
      (empty.run fullCalls).2.links.size ≤ 2 ^ 32 ∧
      ((empty.run fullCalls).2.find ⟨2 ^ 32 - 1⟩).2.link
          ((empty.run fullCalls).2.find ⟨2 ^ 32 - 1⟩).1 =
        ((empty.run fullCalls).2.find ⟨2 ^ 32 - 1⟩).1 ∧
      ∀ v, (empty.run fullCalls).2.rank v ≤ 32 := by
  have hcalls : ∀ q ∈ fullCalls, ∀ v ∈ q.values, v.index < 2 ^ 32 := by decide
  obtain ⟨-, hsize, -, -, hends, -, hranks⟩ := run_ranks_bounded hcalls rfl
  exact ⟨hcalls, hsize, (hends ⟨2 ^ 32 - 1⟩ (by decide)).1, fun v => (hranks v).1⟩

end AliasClasses

end BufferOwnership
