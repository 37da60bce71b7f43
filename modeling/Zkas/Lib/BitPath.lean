import Mathlib.Data.BitVec
import Mathlib.Data.List.Sort
import Mathlib.Tactic.Ring

/-!
# Keys as paths of bits

A key of `w` bits is a path from the root of a binary tree: bit 0, the most significant one, decides
at the root. `Agree d k k'` says that two keys take the same path down to depth `d`, `withBit` turns
a key to one side at one depth, and `stem d k`, the key with the bits from `d` on cleared, names the
node at depth `d` on the path of `k`. -/

namespace BitPath

open List BitVec

variable {w : ℕ}

/-- Two keys with the same first `d` bits. -/
def Agree (d : ℕ) (k k' : BitVec w) : Prop := ∀ i < d, k.getMsbD i = k'.getMsbD i

instance (d : ℕ) (k k' : BitVec w) : Decidable (Agree d k k') := Nat.decidableBallLT d _

theorem Agree.refl (d : ℕ) (k : BitVec w) : Agree d k k := fun _ _ => rfl

variable {d i : ℕ} {k k' : BitVec w} {b : Bool}

theorem Agree.symm (h : Agree d k k') : Agree d k' k := fun i hi => (h i hi).symm

theorem Agree.trans {k'' : BitVec w} (h : Agree d k k') (h' : Agree d k' k'') : Agree d k k'' :=
  fun i hi => (h i hi).trans (h' i hi)

theorem Agree.mono {e : ℕ} (h : Agree e k k') (hle : d ≤ e) : Agree d k k' :=
  fun i hi => h i (hi.trans_le hle)

theorem agree_zero (k k' : BitVec w) : Agree 0 k k' := fun _ hi => absurd hi (Nat.not_lt_zero _)

theorem agree_succ : Agree (d + 1) k k' ↔ Agree d k k' ∧ k.getMsbD d = k'.getMsbD d := by
  constructor
  · intro h
    exact ⟨h.mono (Nat.le_succ d), h d (Nat.lt_succ_self d)⟩
  · rintro ⟨h, hd⟩ i hi
    rcases Nat.lt_succ_iff_lt_or_eq.mp hi with hi | rfl
    · exact h i hi
    · exact hd

theorem Agree.eq (h : Agree w k k') : k = k' := eq_of_getMsbD_eq fun i hi => h i hi

/-! ## Turning to one side -/

/-- The key with bit `d` set to `b`. -/
def withBit (k : BitVec w) (d : ℕ) (b : Bool) : BitVec w :=
  if b then k ||| twoPow w (w - 1 - d) else k &&& ~~~twoPow w (w - 1 - d)

section

variable (hd : d < w)
include hd

theorem getMsbD_twoPow (hi : i < w) : (twoPow w (w - 1 - d)).getMsbD i = decide (i = d) := by
  rw [getMsbD_eq_getLsbD, getLsbD_twoPow]
  have hlt : w - 1 - d < w := by omega
  have hsame : w - 1 - d = w - 1 - i ↔ i = d := by omega
  simp [hi, hlt, hsame]

theorem getMsbD_withBit (hi : i < w) :
    (withBit k d b).getMsbD i = if i = d then b else k.getMsbD i := by
  unfold withBit
  cases b with
  | true =>
    rw [if_pos rfl, getMsbD_or, getMsbD_twoPow hd hi]
    by_cases h : i = d
    · simp [h]
    · simp [h]
  | false =>
    rw [if_neg Bool.false_ne_true, getMsbD_and, getMsbD_not, getMsbD_twoPow hd hi]
    by_cases h : i = d
    · simp [h]
    · simp [h, hi]

theorem agree_withBit : Agree d (withBit k d b) k := by
  intro i hi
  rw [getMsbD_withBit hd (hi.trans hd), if_neg (Nat.ne_of_lt hi)]

theorem getMsbD_withBit_self : (withBit k d b).getMsbD d = b := by
  rw [getMsbD_withBit hd hd, if_pos rfl]

theorem agree_withBit_iff :
    Agree (d + 1) (withBit k d b) k' ↔ Agree d k k' ∧ k'.getMsbD d = b := by
  rw [agree_succ, getMsbD_withBit_self hd]
  constructor
  · rintro ⟨h, hb⟩
    exact ⟨(agree_withBit hd).symm.trans h, hb.symm⟩
  · rintro ⟨h, hb⟩
    exact ⟨(agree_withBit hd).trans h, hb.symm⟩

theorem agree_withBit_self : Agree (d + 1) (withBit k d (k.getMsbD d)) k :=
  (agree_withBit_iff hd).mpr ⟨.refl d k, rfl⟩

theorem withBit_not :
    withBit k d (!k.getMsbD d) = k ^^^ twoPow w (w - 1 - d) := by
  apply eq_of_getMsbD_eq
  intro i hi
  rw [getMsbD_withBit hd hi, getMsbD_xor, getMsbD_twoPow hd hi]
  by_cases h : i = d
  · simp [h]
  · simp [h]

/-! ## Names of nodes -/

end

/-- The key with the bits from `d` on cleared. -/
def stem (d : ℕ) (k : BitVec w) : BitVec w := (k >>> (w - d)) <<< (w - d)

theorem getMsbD_stem (hi : i < w) : (stem d k).getMsbD i = (decide (i < d) && k.getMsbD i) := by
  unfold stem
  rw [getMsbD_eq_getLsbD, getMsbD_eq_getLsbD, getLsbD_shiftLeft, getLsbD_ushiftRight]
  by_cases hid : i < d
  · have hlt : w - 1 - i < w := by omega
    have hsub : w - d + (w - 1 - i - (w - d)) = w - 1 - i := by omega
    have hnot : ¬w - 1 - i < w - d := by omega
    simp [hi, hid, hlt, hnot, hsub]
  · have hlow : w - 1 - i < w - d := by omega
    simp [hi, hid, hlow]

theorem stem_eq_iff (hd : d ≤ w) : stem d k = stem d k' ↔ Agree d k k' := by
  constructor
  · intro h i hi
    have hbit := congrArg (getMsbD · i) h
    simpa only [getMsbD_stem (hi.trans_le hd), hi, decide_true, Bool.true_and] using hbit
  · intro h
    apply eq_of_getMsbD_eq
    intro i hi
    rw [getMsbD_stem hi, getMsbD_stem hi]
    by_cases hid : i < d
    · rw [h i hid]
    · rw [decide_eq_false hid, Bool.false_and, Bool.false_and]

theorem stem_succ (hd : d < w) (b : Bool) :
    stem (d + 1) (withBit k d b) = withBit (stem d k) d b := by
  apply eq_of_getMsbD_eq
  intro i hi
  rw [getMsbD_stem hi, getMsbD_withBit hd hi, getMsbD_withBit hd hi, getMsbD_stem hi]
  by_cases h : i = d
  · simp [h]
  · have hiff : i < d + 1 ↔ i < d := by omega
    simp [h, hiff]

/-! ## The order of keys -/

/-- Where the paths of two keys part, the smaller key goes left. -/
theorem lt_of_agree (hd : d < w) (hagree : Agree d k k')
    (hk : k.getMsbD d = false) (hk' : k'.getMsbD d = true) : k < k' := by
  -- Both keys are their common top bits, one bit, and what is below it.
  have htop : k.toNat / 2 ^ (w - d) = k'.toNat / 2 ^ (w - d) := by
    have hstem : k >>> (w - d) = k' >>> (w - d) := by
      apply eq_of_getLsbD_eq
      intro i hi
      rw [getLsbD_ushiftRight, getLsbD_ushiftRight]
      by_cases hlt : w - d + i < w
      · have hbit := hagree (w - 1 - (w - d + i)) (by omega)
        rw [getMsbD_eq_getLsbD, getMsbD_eq_getLsbD] at hbit
        have hidx : w - 1 - (w - 1 - (w - d + i)) = w - d + i := by omega
        have hpos : w - 1 - (w - d + i) < w := by omega
        simpa [hidx, hpos] using hbit
      · rw [getLsbD_of_ge _ _ (by omega), getLsbD_of_ge _ _ (by omega)]
    have := congrArg BitVec.toNat hstem
    rwa [toNat_ushiftRight, toNat_ushiftRight, Nat.shiftRight_eq_div_pow,
      Nat.shiftRight_eq_div_pow] at this
  have hbit (x : BitVec w) : x.getMsbD d = decide (x.toNat / 2 ^ (w - 1 - d) % 2 = 1) := by
    rw [getMsbD_eq_getLsbD, getLsbD, Nat.testBit_eq_decide_div_mod_eq]
    simp [hd]
  rw [hbit] at hk hk'
  have hpow : 2 ^ (w - d) = 2 * 2 ^ (w - 1 - d) := by
    rw [show w - d = (w - 1 - d) + 1 by omega]
    ring
  rw [hpow, Nat.mul_comm 2, ← Nat.div_div_eq_div_mul, ← Nat.div_div_eq_div_mul] at htop
  have hq : k.toNat / 2 ^ (w - 1 - d) < k'.toNat / 2 ^ (w - 1 - d) := by
    have h0 := of_decide_eq_false hk
    have h1 := of_decide_eq_true hk'
    omega
  exact Nat.lt_of_div_lt_div hq

/-- The sorted list of items below a node at depth `d`: those that go left come first. -/
theorem takeWhile_eq_filter {α : Type*} (key : α → BitVec w) (hd : d < w)
    {l : List α} (hsorted : l.Pairwise fun a b => key a < key b)
    (hbelow : ∀ a ∈ l, Agree d k (key a)) :
    l.takeWhile (fun a => !(key a).getMsbD d) = l.filter (fun a => !(key a).getMsbD d) ∧
      l.dropWhile (fun a => !(key a).getMsbD d) = l.filter (fun a => (key a).getMsbD d) := by
  induction l with
  | nil => exact ⟨rfl, rfl⟩
  | cons a l ih =>
    obtain ⟨hfirst, hrest⟩ := pairwise_cons.mp hsorted
    have hbelow' : ∀ b ∈ l, Agree d k (key b) := fun b hb => hbelow b (mem_cons_of_mem _ hb)
    obtain ⟨htake, hdrop⟩ := ih hrest hbelow'
    cases hbit : (key a).getMsbD d with
    | false => simp [hbit, htake, hdrop]
    | true =>
      -- After an item that goes right, all go right.
      have hright : ∀ b ∈ l, (key b).getMsbD d = true := by
        intro b hb
        by_contra hb'
        have hlt := lt_of_agree hd (((hbelow' b hb).symm).trans (hbelow a mem_cons_self))
          (Bool.eq_false_iff.mpr hb') hbit
        exact absurd (hfirst b hb) (BitVec.lt_asymm hlt)
      have hnone : l.filter (fun b => !(key b).getMsbD d) = [] := by
        rw [filter_eq_nil_iff]
        intro b hb
        simp [hright b hb]
      have hall : l.filter (fun b => (key b).getMsbD d) = l := filter_eq_self.mpr hright
      simp [hbit, hnone, hall]

theorem pairwise_insert {α : Type*} (key : α → BitVec w) {l : List α} {e : α}
    (hsorted : l.Pairwise fun a b => key a < key b) (hne : ∀ a ∈ l, key a ≠ key e) :
    (l.takeWhile (fun a => key a < key e) ++ e :: l.dropWhile fun a => key a < key e).Pairwise
      fun a b => key a < key b := by
  induction l with
  | nil => exact pairwise_singleton _ e
  | cons a l ih =>
    obtain ⟨ha, hl⟩ := pairwise_cons.mp hsorted
    by_cases hlt : key a < key e
    · rw [takeWhile_cons_of_pos (by simpa using hlt),
        List.dropWhile_cons_of_pos (by simpa using hlt), List.cons_append]
      refine pairwise_cons.mpr ⟨fun b hb => ?_, ih hl fun b hb => hne b (.tail a hb)⟩
      rcases mem_append.mp hb with hb | hb
      · exact ha b (takeWhile_subset _ hb)
      · rcases mem_cons.mp hb with rfl | hb
        · exact hlt
        · exact ha b (dropWhile_subset _ hb)
    · rw [takeWhile_cons_of_neg (by simpa using hlt),
        dropWhile_cons_of_neg (by simpa using hlt), nil_append]
      have hea : key e < key a := by
        have := hne a mem_cons_self
        bv_omega
      refine pairwise_cons.mpr ⟨fun b hb => ?_, hsorted⟩
      rcases mem_cons.mp hb with rfl | hb
      · exact hea
      · have := ha b hb
        bv_omega

end BitPath
