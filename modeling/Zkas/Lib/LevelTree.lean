import Mathlib

/-!
# Hash trees over lists of any length

A list is reduced level by level: neighbours are joined, and a last node without a neighbour is
joined with a filler of its level. The path of an index folds from its leaf to the root, and where
joining is injective and leaves are not joins nothing else does (`eq_path_of_fold`). -/

namespace LevelTree

open List

variable {α : Type*} (H : α → α → α)

/-- One level up. -/
def levelUp (z : α) : List α → List α
  | a :: b :: rest => H a b :: levelUp z rest
  | [a] => [H a z]
  | [] => []

/-- The levels above a list. -/
def level (z : ℕ → α) (L : List α) : ℕ → List α
  | 0 => L
  | l + 1 => levelUp H (z l) (level z L l)

/-- A node of a level, or the filler of the level. -/
def node (z : ℕ → α) (L : List α) (l i : ℕ) : α := (level H z L l).getD i (z l)

/-- The node that a node is joined with. -/
def partner (i : ℕ) : ℕ := if i % 2 = 0 then i + 1 else i - 1

/-- The partners along the path of an index, from the bottom up. -/
def path (z : ℕ → α) (L : List α) (i n : ℕ) : List α :=
  (range n).map fun l => node H z L l (partner (i / 2 ^ l))

/-- The levels of a list that is not empty end with a single node. -/
def root (z : ℕ → α) (L : List α) : α := node H z L (Nat.clog 2 L.length) 0

/-- From a leaf up, on the side that the index says. -/
def fold : α → ℕ → List α → α
  | x, _, [] => x
  | x, i, s :: b => fold (if i % 2 = 0 then H x s else H s x) (i / 2) b

variable {H} {z : ℕ → α} {L : List α}

/-! ## Levels -/

theorem length_levelUp (c : α) (L : List α) : (levelUp H c L).length = (L.length + 1) / 2 := by
  induction L using levelUp.induct with
  | case1 a b rest ih =>
    rw [levelUp, length_cons, ih, length_cons, length_cons]
    omega
  | case2 a => simp [levelUp]
  | case3 => simp [levelUp]

theorem getElem?_levelUp (c : α) (L : List α) (i : ℕ) :
    (levelUp H c L)[i]? = L[2 * i]?.map fun a => H a (L.getD (2 * i + 1) c) := by
  induction L using levelUp.induct generalizing i with
  | case1 a b rest ih =>
    cases i with
    | zero => rfl
    | succ i =>
      rw [levelUp, getElem?_cons_succ, ih, show 2 * (i + 1) = 2 * i + 1 + 1 by omega]
      rfl
  | case2 a =>
    cases i with
    | zero => rfl
    | succ i => rfl
  | case3 => rfl

theorem lt_length_level {l i : ℕ} : i < (level H z L l).length ↔ i * 2 ^ l < L.length := by
  induction l generalizing i with
  | zero => rw [level, pow_zero, mul_one]
  | succ l ih =>
    have hpow : i * 2 ^ (l + 1) = 2 * i * 2 ^ l := by
      rw [pow_succ, mul_comm (2 ^ l), ← mul_assoc, mul_comm i 2]
    rw [level, length_levelUp, hpow, ← ih]
    omega

theorem node_succ {l i : ℕ} (hi : i * 2 ^ (l + 1) < L.length) :
    node H z L (l + 1) i = H (node H z L l (2 * i)) (node H z L l (2 * i + 1)) := by
  have hlt : 2 * i < (level H z L l).length := by
    rw [lt_length_level]
    calc 2 * i * 2 ^ l = i * 2 ^ (l + 1) := by
          rw [pow_succ, mul_comm (2 ^ l), ← mul_assoc, mul_comm i 2]
      _ < L.length := hi
  unfold node
  rw [level, getD_eq_getElem?_getD, getElem?_levelUp, getElem?_eq_getElem hlt,
    getD_eq_getElem _ _ hlt]
  rfl

theorem node_of_le {l i : ℕ} (hi : L.length ≤ i * 2 ^ l) : node H z L l i = z l := by
  refine getD_eq_default _ _ (Nat.le_of_not_lt fun hlt => ?_)
  exact absurd (lt_length_level.mp hlt) (Nat.not_lt_of_le hi)

theorem node_zero {i : ℕ} (hi : i < L.length) : node H z L 0 i = L[i] := getD_eq_getElem _ _ hi

theorem level_levelUp (l : ℕ) :
    level H (fun l => z (l + 1)) (levelUp H (z 0) L) l = level H z L (l + 1) := by
  induction l with
  | zero => rfl
  | succ l ih => rw [level, ih]; rfl

theorem clog_levelUp {c : α} (hL : 1 < L.length) :
    Nat.clog 2 L.length = Nat.clog 2 (levelUp H c L).length + 1 := by
  rw [length_levelUp, Nat.clog_of_two_le one_lt_two hL]
  rfl

theorem eq_clog {n l : ℕ} (hn : n ≤ 2 ^ l) (hl : 2 ^ l < 2 * n) : Nat.clog 2 n = l := by
  refine le_antisymm (Nat.clog_le_of_le_pow hn) ?_
  cases l with
  | zero => exact Nat.zero_le _
  | succ l =>
    rw [pow_succ] at hl
    exact (Nat.lt_clog_iff_pow_lt one_lt_two).mpr (by omega)

/-! ## Paths -/

theorem path_succ (i n : ℕ) :
    path H z L i (n + 1) = path H z L i n ++ [node H z L n (partner (i / 2 ^ n))] := by
  unfold path
  rw [range_succ, map_append, map_singleton]

theorem path_cons (i n : ℕ) : path H z L i (n + 1) = L.getD (partner i) (z 0) ::
      path H (fun l => z (l + 1)) (levelUp H (z 0) L) (i / 2) n := by
  unfold path node
  rw [range_succ_eq_map, map_cons, map_map, Nat.pow_zero, Nat.div_one]
  congr 1
  refine map_congr_left fun l _ => ?_
  rw [level_levelUp, Nat.div_div_eq_div_mul, mul_comm 2, ← pow_succ]
  rfl

@[simp] theorem length_path (i n : ℕ) : (path H z L i n).length = n := by
  unfold path
  rw [length_map, length_range]

theorem fold_concat (x : α) (i : ℕ) (b : List α) (s : α) : fold H x i (b ++ [s]) =
      if i / 2 ^ b.length % 2 = 0 then H (fold H x i b) s else H s (fold H x i b) := by
  induction b generalizing x i with
  | nil => rw [nil_append, fold, fold, length_nil, Nat.pow_zero, Nat.div_one, fold]
  | cons t b ih =>
    rw [cons_append, fold, ih, fold, length_cons, Nat.div_div_eq_div_mul, pow_succ, mul_comm 2]

theorem fold_congr {x : α} {i j : ℕ} {b : List α} (h : ∀ k < b.length, i.testBit k = j.testBit k) :
    fold H x i b = fold H x j b := by
  induction b generalizing x i j with
  | nil => rfl
  | cons s b ih =>
    have hzero := h 0 (Nat.succ_pos _)
    rw [Nat.testBit_zero, Nat.testBit_zero, decide_eq_decide] at hzero
    have hside : i % 2 = 0 ↔ j % 2 = 0 := by omega
    rw [fold, fold, if_congr hside rfl rfl]
    refine ih fun k hk => ?_
    rw [← Nat.testBit_succ, ← Nat.testBit_succ]
    exact h (k + 1) (Nat.succ_lt_succ hk)

/-- The path of an index folds from its leaf to the nodes above it. -/
theorem fold_path {i : ℕ} (hi : i < L.length) (n : ℕ) :
    fold H (L[i]) i (path H z L i n) = node H z L n (i / 2 ^ n) := by
  induction n with
  | zero => rw [Nat.pow_zero, Nat.div_one, node_zero hi]; rfl
  | succ n ih =>
    have hdiv : i / 2 ^ (n + 1) = i / 2 ^ n / 2 := by rw [Nat.div_div_eq_div_mul, pow_succ]
    have hlt : i / 2 ^ (n + 1) * 2 ^ (n + 1) < L.length := (Nat.div_mul_le_self _ _).trans_lt hi
    rw [path_succ, fold_concat, ih, length_path, node_succ hlt, hdiv]
    generalize i / 2 ^ n = q
    unfold partner
    split_ifs with heven
    · rw [show 2 * (q / 2) = q by omega]
    · rw [show 2 * (q / 2) = q - 1 by omega, show q - 1 + 1 = q by omega]

theorem fold_path_root {i : ℕ} (hi : i < L.length) :
    fold H (L[i]) i (path H z L i (Nat.clog 2 L.length)) = root H z L := by
  have hdiv : i / 2 ^ Nat.clog 2 L.length = 0 :=
    Nat.div_eq_of_lt (hi.trans_le (Nat.le_pow_clog one_lt_two _))
  rw [fold_path hi, hdiv]
  rfl

/-! ## Nothing else folds to a node -/

section

variable (hH : Function.Injective2 H) (hL : ∀ y ∈ L, ∀ a b, H a b ≠ y) {x : α}
  (hx : ∀ a b, H a b ≠ x) {i : ℕ} (hz : ∀ b l, fold H x i b ≠ z l)

include hH hL hx hz

/-- What folds to a node is the path of a leaf below it. -/
theorem eq_path_of_fold {l p : ℕ} (hp : p * 2 ^ l < L.length) {b : List α}
    (h : fold H x i b = node H z L l p) :
    b.length = l ∧ p * 2 ^ l + i % 2 ^ l < L.length ∧ L[p * 2 ^ l + i % 2 ^ l]? = some x ∧
      b = path H z L (p * 2 ^ l + i % 2 ^ l) l := by
  -- From the top down: there is a join on both sides, until there is a leaf on one of them.
  induction l generalizing p b with
  | zero =>
    rw [pow_zero, mul_one] at hp
    rw [pow_zero, mul_one, Nat.mod_one, add_zero]
    rw [node_zero hp] at h
    rcases eq_nil_or_concat b with rfl | ⟨b, s, rfl⟩
    · refine ⟨rfl, hp, ?_, rfl⟩
      rw [getElem?_eq_getElem hp, ← h, fold]
    · rw [concat_eq_append, fold_concat] at h
      split_ifs at h
      all_goals exact absurd h (hL _ (getElem_mem hp) _ _)
  | succ l ih =>
    rw [node_succ hp] at h
    have hpow : p * 2 ^ (l + 1) = 2 * p * 2 ^ l := by
      rw [pow_succ, mul_comm (2 ^ l), ← mul_assoc, mul_comm p 2]
    rcases eq_nil_or_concat b with rfl | ⟨b, s, rfl⟩
    · exact absurd h.symm (hx _ _)
    rw [concat_eq_append] at h ⊢
    -- The bit of the index says which of the two nodes below is the fold of the rest.
    obtain ⟨ε, hbit, hlt, hfold, hs⟩ : ∃ ε,
        i / 2 ^ b.length % 2 = ε ∧ (2 * p + ε) * 2 ^ l < L.length ∧
        fold H x i b = node H z L l (2 * p + ε) ∧ s = node H z L l (partner (2 * p + ε)) := by
      rw [fold_concat] at h
      unfold partner
      split_ifs at h with heven
      · refine ⟨0, heven, hpow ▸ hp, (hH h).1, ?_⟩
        rw [if_pos (by omega)]
        exact (hH h).2
      · refine ⟨1, by omega, Nat.lt_of_not_le fun hle => hz b l ?_, (hH h).2, ?_⟩
        · rw [(hH h).2, node_of_le hle]
        · rw [if_neg (by omega), Nat.add_sub_cancel]
          exact (hH h).1
    obtain ⟨rfl, hj, hget, hb⟩ := ih hlt hfold
    have hindex : p * 2 ^ (b.length + 1) + i % 2 ^ (b.length + 1) =
        (2 * p + ε) * 2 ^ b.length + i % 2 ^ b.length := by
      rw [hpow, Nat.mod_pow_succ, hbit, add_mul, mul_comm _ ε, add_comm (i % _), add_assoc]
    have hdiv : ((2 * p + ε) * 2 ^ b.length + i % 2 ^ b.length) / 2 ^ b.length = 2 * p + ε := by
      rw [mul_comm, Nat.mul_add_div (Nat.two_pow_pos _),
        Nat.div_eq_of_lt (Nat.mod_lt _ (Nat.two_pow_pos _)), add_zero]
    rw [hindex]
    refine ⟨length_append, hj, hget, ?_⟩
    rw [path_succ, ← hb, hdiv, ← hs]

theorem eq_path_of_fold_root (hne : L ≠ []) {b : List α} (h : fold H x i b = root H z L) :
    L[i % 2 ^ b.length]? = some x ∧
      b = path H z L (i % 2 ^ b.length) (Nat.clog 2 L.length) := by
  obtain ⟨hlen, -, hget, hb⟩ :=
    eq_path_of_fold hH hL hx hz ((Nat.zero_mul _).trans_lt (length_pos_iff.mpr hne)) h
  rw [Nat.zero_mul, zero_add, ← hlen] at hget hb
  rw [← hlen]
  exact ⟨hget, hb⟩

end

/-- The root determines the leaves. -/
theorem root_inj (hH : Function.Injective2 H) {L L' : List α}
    (hleaf : ∀ y ∈ L ++ L', (∀ a b, H a b ≠ y) ∧ ∀ i b l, fold H y i b ≠ z l)
    (hne : L ≠ []) (hne' : L' ≠ []) (h : root H z L = root H z L') : L = L' := by
  -- The path of a leaf of one list folds to the root of the other.
  have hget {L L' : List α}
      (hleaf : ∀ y ∈ L ++ L', (∀ a b, H a b ≠ y) ∧ ∀ i b l, fold H y i b ≠ z l) (hne : L' ≠ [])
      (h : root H z L = root H z L') (i : ℕ) (hi : i < L.length) :
      L'[i]? = some L[i] := by
    have hmem := mem_append_left L' (getElem_mem hi)
    have hlt : i < 2 ^ Nat.clog 2 L.length := hi.trans_le (Nat.le_pow_clog one_lt_two _)
    have hpath := (eq_path_of_fold_root hH
      (fun y hy => (hleaf y (mem_append_right L hy)).1) (hleaf _ hmem).1 ((hleaf _ hmem).2 i)
      hne ((fold_path_root hi).trans h)).1
    rwa [length_path, Nat.mod_eq_of_lt hlt] at hpath
  have hleaf' : ∀ y ∈ L' ++ L, (∀ a b, H a b ≠ y) ∧ ∀ i b l, fold H y i b ≠ z l := fun y hy =>
    hleaf y (mem_append.mpr (mem_append.mp hy).symm)
  have hlen : L.length = L'.length := by
    refine le_antisymm (Nat.le_of_not_lt fun hlt => ?_) (Nat.le_of_not_lt fun hlt => ?_)
    · have := hget hleaf hne' h _ hlt
      rw [getElem?_eq_none (le_refl _)] at this
      cases this
    · have := hget hleaf' hne h.symm _ hlt
      rw [getElem?_eq_none (le_refl _)] at this
      cases this
  refine ext_getElem hlen fun i hi hi' => ?_
  have := hget hleaf hne' h i hi
  rw [getElem?_eq_getElem hi'] at this
  exact (Option.some.inj this).symm

end LevelTree
