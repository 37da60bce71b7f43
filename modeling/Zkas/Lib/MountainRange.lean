import Mathlib

/-!
# Mountain ranges and Merkle frontiers

A mountain range keeps the roots of the complete binary subtrees of its leaves, one per set bit of
the leaf count, lowest first, so that adding a leaf is a binary increment: `carry` merges the new
node with the peak of every trailing one of the count. A Merkle frontier of a tree of fixed height
is the last leaf together with the mountain range of the leaves before it (its ommers). `rootFrom`
folds it to the root of the tree whose remaining leaves are empty. The hash of two nodes may depend
on their level. -/

namespace MountainRange

open List

variable {α : Type*}

/-- The number of set bits of `n`. -/
def popcount (n : ℕ) : ℕ := (Nat.digits 2 n).sum

@[simp] theorem popcount_zero : popcount 0 = 0 := rfl

theorem popcount_eq (n : ℕ) : popcount n = n % 2 + popcount (n / 2) := by
  unfold popcount
  rcases eq_zero_or_pos n with rfl | h
  · rfl
  · rw [Nat.digits_def' (by norm_num) h, sum_cons]

variable {lvl n h p : ℕ} {d : α} {ps oms : List α}

theorem popcount_of_even (h : n % 2 ≠ 1) : popcount n = popcount (n / 2) := by
  rw [popcount_eq, show n % 2 = 0 by omega, zero_add]

theorem popcount_of_odd (h : n % 2 = 1) : popcount n = popcount (n / 2) + 1 := by
  rw [popcount_eq, h, add_comm]

theorem popcount_le {k : ℕ} (h : n < 2 ^ k) : popcount n ≤ k := by
  induction k generalizing n with
  | zero => rw [show n = 0 by omega, popcount_zero]
  | succ k ih =>
    have hhalf : popcount (n / 2) ≤ k := ih (by rw [pow_succ] at h; omega)
    rw [popcount_eq]
    omega

/-! ## Adding a leaf -/

/-- Add `node` at level `lvl` to the range `peaks` of `n` subtrees of that level: each trailing one
of `n` merges the node with a peak. There is no result when a set bit has no peak. -/
def carry (combine : ℕ → α → α → α) (lvl n : ℕ) (node : α) : List α → Option (List α)
  | [] => if n % 2 = 1 then none else some [node]
  | p :: ps =>
    if n % 2 = 1 then carry combine (lvl + 1) (n / 2) (combine lvl p node) ps
    else some (node :: p :: ps)

variable {combine : ℕ → α → α → α}

theorem carry_of_even {node : α} (h : n % 2 ≠ 1) :
    carry combine lvl n node ps = some (node :: ps) := by
  cases ps <;> rw [carry, if_neg h]

theorem carry_cons_of_odd {node p : α} (h : n % 2 = 1) : carry combine lvl n node (p :: ps) =
      carry combine (lvl + 1) (n / 2) (combine lvl p node) ps := by
  rw [carry, if_pos h]

/-- A range with a peak per set bit takes another leaf, and the result again has a peak per set
bit of its count. -/
theorem carry_spec (lvl n : ℕ) (node : α) (h : ps.length = popcount n) :
    ∃ qs, carry combine lvl n node ps = some qs ∧ qs.length = popcount (n + 1) := by
  -- The induction follows the peaks consumed, one per trailing one of the count.
  induction ps generalizing lvl n node with
  | nil =>
    have heven : n % 2 ≠ 1 := fun hodd => by
      rw [popcount_of_odd hodd] at h; exact absurd h (by simp)
    refine ⟨[node], carry_of_even heven, ?_⟩
    have hsucc : popcount (n + 1) = popcount ((n + 1) / 2) + 1 := popcount_of_odd (by omega)
    rw [hsucc, show (n + 1) / 2 = n / 2 by omega, ← popcount_of_even heven, ← h]
    rfl
  | cons p ps ih =>
    by_cases hodd : n % 2 = 1
    · rw [popcount_of_odd hodd, length_cons] at h
      obtain ⟨qs, hqs, hlen⟩ := ih (lvl + 1) (n / 2) (combine lvl p node) (Nat.succ.inj h)
      refine ⟨qs, by rw [carry_cons_of_odd hodd, hqs], ?_⟩
      rw [hlen, popcount_of_even (n := n + 1) (by omega), show (n + 1) / 2 = n / 2 + 1 by omega]
    · refine ⟨node :: p :: ps, carry_of_even hodd, ?_⟩
      have hsucc : popcount (n + 1) = popcount ((n + 1) / 2) + 1 := popcount_of_odd (by omega)
      rw [hsucc, show (n + 1) / 2 = n / 2 by omega, ← popcount_of_even hodd, ← h]
      rfl

/-- Under an injective node hash, the range after a leaf determines the range before it and the
leaf. -/
theorem carry_inj (hinj : ∀ lvl, Function.Injective2 (combine lvl)) {x y : α}
    {qs rs : List α} (hx : carry combine lvl n x ps = some rs)
    (hy : carry combine lvl n y qs = some rs) : x = y ∧ ps = qs := by
  induction ps generalizing lvl n x y qs with
  | nil =>
    by_cases hodd : n % 2 = 1
    · rw [carry, if_pos hodd] at hx; cases hx
    · rw [carry_of_even hodd] at hx hy
      cases hx; cases hy; exact ⟨rfl, rfl⟩
  | cons p ps ih =>
    by_cases hodd : n % 2 = 1
    · cases qs with
      | nil => rw [carry, if_pos hodd] at hy; cases hy
      | cons q qs =>
        rw [carry_cons_of_odd hodd] at hx hy
        obtain ⟨hnode, rfl⟩ := ih hx hy
        obtain ⟨rfl, rfl⟩ := hinj lvl hnode
        exact ⟨rfl, rfl⟩
    · rw [carry_of_even hodd] at hx hy
      cases hx; cases hy; exact ⟨rfl, rfl⟩

/-! ## Frontiers -/

/-- The root of the empty subtree of level `lvl`. -/
def emptyRoot (combine : ℕ → α → α → α) (emptyLeaf : α) : ℕ → α
  | 0 => emptyLeaf
  | lvl + 1 => combine lvl (emptyRoot combine emptyLeaf lvl) (emptyRoot combine emptyLeaf lvl)

/-- Fold a frontier over `h` levels from level `lvl`: `p` is the position of the node `d` at that
level and `oms` are the roots to its left. There is no result when a set bit of the position has
no ommer. -/
def rootFrom (combine : ℕ → α → α → α) (emptyLeaf : α) : ℕ → ℕ → ℕ → α → List α → Option α
  | 0, _, _, d, _ => some d
  | h + 1, lvl, p, d, oms =>
    if p % 2 = 1 then
      match oms with
      | [] => none
      | o :: os => rootFrom combine emptyLeaf h (lvl + 1) (p / 2) (combine lvl o d) os
    else
      rootFrom combine emptyLeaf h (lvl + 1) (p / 2)
        (combine lvl d (emptyRoot combine emptyLeaf lvl)) oms

variable {e : α}

theorem rootFrom_of_odd {o : α} {os : List α} (hp : p % 2 = 1) :
    rootFrom combine e (h + 1) lvl p d (o :: os) =
      rootFrom combine e h (lvl + 1) (p / 2) (combine lvl o d) os := by
  rw [rootFrom, if_pos hp]

theorem rootFrom_of_even {os : List α} (hp : p % 2 ≠ 1) : rootFrom combine e (h + 1) lvl p d os =
      rootFrom combine e h (lvl + 1) (p / 2) (combine lvl d (emptyRoot combine e lvl)) os := by
  cases os <;> rw [rootFrom, if_neg hp]

theorem rootFrom_isSome (hlen : oms.length = popcount p) :
    (rootFrom combine e h lvl p d oms).isSome := by
  induction h generalizing lvl p d oms with
  | zero => rfl
  | succ h ih =>
    by_cases hp : p % 2 = 1
    · rw [popcount_of_odd hp] at hlen
      obtain ⟨o, os, rfl⟩ := exists_cons_of_length_eq_add_one hlen
      rw [rootFrom_of_odd hp]
      exact ih (Nat.succ.inj hlen)
    · rw [popcount_of_even hp] at hlen
      rw [rootFrom_of_even hp]
      exact ih hlen

/-- Only a frontier whose last node is empty folds to the root of the empty tree. -/
theorem rootFrom_eq_emptyRoot (hinj : ∀ lvl, Function.Injective2 (combine lvl))
    (hroot : rootFrom combine e h lvl p d oms =
      some (emptyRoot combine e (lvl + h))) : d = emptyRoot combine e lvl := by
  induction h generalizing lvl p d oms with
  | zero => exact Option.some.inj hroot
  | succ h ih =>
    rw [show lvl + (h + 1) = lvl + 1 + h by omega] at hroot
    by_cases hp : p % 2 = 1
    · cases oms with
      | nil => rw [rootFrom, if_pos hp] at hroot; cases hroot
      | cons o os =>
        rw [rootFrom_of_odd hp] at hroot
        exact (hinj lvl (ih hroot)).2
    · rw [rootFrom_of_even hp] at hroot
      exact (hinj lvl (ih hroot)).1

/-- Two frontiers with one root agree, unless the last node of one of them is empty. -/
theorem rootFrom_inj (hinj : ∀ lvl, Function.Injective2 (combine lvl)) {q : ℕ} {c : α}
    {cms : List α} {r : α} (hp : p < 2 ^ h) (hq : q < 2 ^ h)
    (holen : oms.length = popcount p) (hclen : cms.length = popcount q)
    (hd : rootFrom combine e h lvl p d oms = some r)
    (hc : rootFrom combine e h lvl q c cms = some r)
    (hde : d ≠ emptyRoot combine e lvl) (hce : c ≠ emptyRoot combine e lvl) :
    p = q ∧ d = c ∧ oms = cms := by
  induction h generalizing lvl p q d c oms cms with
  | zero =>
    obtain rfl : p = 0 := by omega
    obtain rfl : q = 0 := by omega
    rw [popcount_zero, length_eq_zero_iff] at holen hclen
    subst holen hclen
    exact ⟨rfl, Option.some.inj (hd.trans hc.symm), rfl⟩
  | succ h ih =>
    have hp2 : p / 2 < 2 ^ h := by rw [pow_succ] at hp; omega
    have hq2 : q / 2 < 2 ^ h := by rw [pow_succ] at hq; omega
    -- A merged node is empty only if the node merged from below is.
    have hright : ∀ {o x : α}, x ≠ emptyRoot combine e lvl →
        combine lvl o x ≠ emptyRoot combine e (lvl + 1) := fun hx heq => hx (hinj lvl heq).2
    have hleft : ∀ {x o : α}, x ≠ emptyRoot combine e lvl →
        combine lvl x o ≠ emptyRoot combine e (lvl + 1) := fun hx heq => hx (hinj lvl heq).1
    by_cases hpo : p % 2 = 1 <;> by_cases hqo : q % 2 = 1
    · rw [popcount_of_odd hpo] at holen
      rw [popcount_of_odd hqo] at hclen
      obtain ⟨o, os, rfl⟩ := exists_cons_of_length_eq_add_one holen
      obtain ⟨c', cs, rfl⟩ := exists_cons_of_length_eq_add_one hclen
      rw [rootFrom_of_odd hpo] at hd
      rw [rootFrom_of_odd hqo] at hc
      obtain ⟨hpq, hnode, rfl⟩ := ih hp2 hq2 (Nat.succ.inj holen) (Nat.succ.inj hclen) hd hc
        (hright hde) (hright hce)
      obtain ⟨rfl, rfl⟩ := hinj lvl hnode
      exact ⟨by omega, rfl, rfl⟩
    · -- One path turns right where the other turns left: its node is empty.
      rw [popcount_of_odd hpo] at holen
      obtain ⟨o, os, rfl⟩ := exists_cons_of_length_eq_add_one holen
      rw [popcount_of_even hqo] at hclen
      rw [rootFrom_of_odd hpo] at hd
      rw [rootFrom_of_even hqo] at hc
      obtain ⟨-, hnode, -⟩ := ih hp2 hq2 (Nat.succ.inj holen) hclen hd hc (hright hde) (hleft hce)
      exact absurd (hinj lvl hnode).2 hde
    · rw [popcount_of_odd hqo] at hclen
      obtain ⟨o, os, rfl⟩ := exists_cons_of_length_eq_add_one hclen
      rw [popcount_of_even hpo] at holen
      rw [rootFrom_of_even hpo] at hd
      rw [rootFrom_of_odd hqo] at hc
      obtain ⟨-, hnode, -⟩ := ih hp2 hq2 holen (Nat.succ.inj hclen) hd hc (hleft hde) (hright hce)
      exact absurd (hinj lvl hnode).2.symm hce
    · rw [popcount_of_even hpo] at holen
      rw [popcount_of_even hqo] at hclen
      rw [rootFrom_of_even hpo] at hd
      rw [rootFrom_of_even hqo] at hc
      obtain ⟨hpq, hnode, rfl⟩ := ih hp2 hq2 holen hclen hd hc (hleft hde) (hleft hce)
      obtain ⟨rfl, -⟩ := hinj lvl hnode
      exact ⟨by omega, rfl, rfl⟩

end MountainRange
