import Mathlib

/-!
# Two-way position indexes and their renumbering

A position index stores which value stands at a position and, apart from that, which position a
value has. It is `Consistent` when the two directions say the same. Renumbering a whole range moves
entry after entry: `raise` goes from the top down and `lower` from the bottom up, so that no move
lands on an entry that is still to be moved. -/

/-- Values by position and positions by value. -/
structure PositionIndex (α : Type*) where
  /-- The value at a position. -/
  get : ℕ → Option α
  /-- The position of a value. -/
  find : α → Option ℕ

namespace PositionIndex

open Function

variable {α : Type*} (t : PositionIndex α)

/-- Both directions say the same. -/
def Consistent : Prop := ∀ i a, t.get i = some a ↔ t.find a = some i

variable {t} {a : α}

theorem Consistent.get_inj (ht : t.Consistent) {i j : ℕ} (hi : t.get i = some a)
    (hj : t.get j = some a) : i = j := by
  have hfind : some i = some j := ((ht i a).mp hi).symm.trans ((ht j a).mp hj)
  exact Option.some.inj hfind

theorem Consistent.find_eq_none (ht : t.Consistent) : t.find a = none ↔ ∀ i, t.get i ≠ some a := by
  constructor
  · intro hnone i hi
    rw [(ht i a).mp hi] at hnone
    exact Option.some_ne_none i hnone
  · intro hnone
    rw [Option.eq_none_iff_forall_ne_some]
    intro i hi
    exact hnone i ((ht i a).mpr hi)

theorem Consistent.eq_of_get {t' : PositionIndex α} (ht : t.Consistent) (ht' : t'.Consistent)
    (h : t.get = t'.get) : t = t' := by
  have hfind : t.find = t'.find := by
    funext a
    apply Option.ext
    intro i
    rw [← ht i a, ← ht' i a, h]
  cases t
  simp only at h hfind
  rw [h, hfind]

variable [DecidableEq α]

/-! ## Single updates -/

/-- Put a value at a position. -/
def write (t : PositionIndex α) (i : ℕ) (a : α) : PositionIndex α :=
  { get := update t.get i (some a), find := update t.find a (some i) }

/-- Move a value from its position to another one. -/
def move (t : PositionIndex α) (old : ℕ) (a : α) (new : ℕ) : PositionIndex α :=
  write { t with get := update t.get old none } new a

/-- Remove a value from its position. -/
def delete (t : PositionIndex α) (i : ℕ) (a : α) : PositionIndex α :=
  { get := update t.get i none, find := update t.find a none }

theorem get_write (i j : ℕ) (a : α) :
    (t.write i a).get j = if j = i then some a else t.get j := update_apply ..

theorem get_move (old new j : ℕ) (a : α) : (t.move old a new).get j =
      if j = new then some a else if j = old then none else t.get j := by
  simp only [move, get_write, update_apply]

theorem get_delete (i j : ℕ) (a : α) :
    (t.delete i a).get j = if j = i then none else t.get j := update_apply ..

theorem Consistent.write (ht : t.Consistent) {i : ℕ} (hi : t.get i = none)
    (ha : t.find a = none) : (t.write i a).Consistent := by
  intro j b
  have hold : t.get j = some b ↔ t.find b = some j := ht j b
  have hnew : t.find b ≠ some i := fun hb => by
    rw [(ht i b).mpr hb] at hi
    exact Option.some_ne_none b hi
  simp only [PositionIndex.write, update_apply]
  by_cases hj : j = i
  · subst hj
    by_cases hb : b = a
    · simp [hb]
    · simp [hb, hnew, Ne.symm hb]
  · by_cases hb : b = a
    · subst hb
      have hnone : t.get j ≠ some b := (ht.find_eq_none.mp ha) j
      simp [hj, hnone, Ne.symm hj]
    · simp [hj, hb, hold]

theorem Consistent.delete (ht : t.Consistent) {i : ℕ} (hi : t.get i = some a) :
    (t.delete i a).Consistent := by
  intro j b
  have hold : t.get j = some b ↔ t.find b = some j := ht j b
  simp only [PositionIndex.delete, update_apply]
  by_cases hj : j = i
  · subst hj
    by_cases hb : b = a
    · simp [hb]
    · have hnew : t.find b ≠ some j := fun h => by
        rw [(ht j b).mpr h] at hi
        exact hb (Option.some.inj hi)
      simp [hb, hnew]
  · by_cases hb : b = a
    · subst hb
      have hother : t.get j ≠ some b := fun h => hj (ht.get_inj h hi)
      simp [hj, hother]
    · simp [hj, hb, hold]

theorem move_eq (old new : ℕ) (a : α) : t.move old a new = (t.delete old a).write new a := by
  simp only [move, write, delete, update_idem]

theorem Consistent.move (ht : t.Consistent) {old new : ℕ} (hold : t.get old = some a)
    (hnew : new = old ∨ t.get new = none) : (t.move old a new).Consistent := by
  rw [move_eq]
  apply (ht.delete hold).write
  · rw [get_delete]
    split
    · rfl
    · exact hnew.resolve_left ‹_›
  · exact update_self ..

/-- Put several values at positions. -/
def writeAll (t : PositionIndex α) (es : List (ℕ × α)) : PositionIndex α :=
  es.foldl (fun t e => t.write e.1 e.2) t

/-- Writing distinct new values to distinct free positions keeps consistency and adds these
entries. -/
theorem Consistent.writeAll (ht : t.Consistent) {es : List (ℕ × α)}
    (hfresh : ∀ e ∈ es, t.get e.1 = none ∧ t.find e.2 = none)
    (hdistinct : es.Pairwise fun e e' => e.1 ≠ e'.1 ∧ e.2 ≠ e'.2) :
    (t.writeAll es).Consistent ∧
      ∀ i a, (t.writeAll es).get i = some a ↔ t.get i = some a ∨ (i, a) ∈ es := by
  induction es generalizing t with
  | nil => exact ⟨ht, fun i a => by simp [writeAll]⟩
  | cons e es ih =>
    obtain ⟨hi, ha⟩ := hfresh e List.mem_cons_self
    obtain ⟨hhead, htail⟩ := List.pairwise_cons.mp hdistinct
    have hfresh' : ∀ e' ∈ es, (t.write e.1 e.2).get e'.1 = none ∧
        (t.write e.1 e.2).find e'.2 = none := by
      intro e' he'
      obtain ⟨hne, hne'⟩ := hhead e' he'
      obtain ⟨hi', ha'⟩ := hfresh e' (List.mem_cons_of_mem _ he')
      constructor
      · rw [get_write, if_neg (Ne.symm hne)]
        exact hi'
      · show update t.find e.2 (some e.1) e'.2 = none
        rw [update_of_ne (Ne.symm hne')]
        exact ha'
    obtain ⟨hcons, hget⟩ := ih (ht.write hi ha) hfresh' htail
    refine ⟨hcons, fun i a => ?_⟩
    show ((t.write e.1 e.2).writeAll es).get i = some a ↔ _
    rw [hget, get_write, List.mem_cons, ← or_assoc]
    split_ifs with heq
    · subst heq
      simp [hi, Prod.ext_iff, eq_comm]
    · simp [Prod.ext_iff, heq]

/-! ## Renumbering a range -/

/-- Move every value below position `n` up by `k`, the highest first. -/
def raise (k : ℕ) : ℕ → PositionIndex α → PositionIndex α
  | 0, t => t
  | n + 1, t =>
    match t.get n with
    | some a => raise k n (t.move n a (n + k))
    | none => raise k n t

/-- Move the values at the `m` positions from `i` on down by `k`, the lowest first. -/
def lower (k : ℕ) : ℕ → ℕ → PositionIndex α → PositionIndex α
  | 0, _, t => t
  | m + 1, i, t =>
    match t.get i with
    | some a => lower k m (i + 1) (t.move i a (i - k))
    | none => lower k m (i + 1) t

/-- Raising into free positions: what stood at a position below `n` stands `k` higher. -/
theorem Consistent.raise (k : ℕ) {n : ℕ} (ht : t.Consistent)
    (hfree : ∀ i, n ≤ i → i < n + k → t.get i = none) :
    (raise k n t).Consistent ∧ ∀ i, (raise k n t).get i =
        if n + k ≤ i then t.get i else if k ≤ i then t.get (i - k) else none := by
  induction n generalizing t with
  | zero =>
    refine ⟨ht, fun i => ?_⟩
    split
    · rfl
    · rw [if_neg (by omega)]
      exact hfree i (by omega) (by omega)
  | succ n ih =>
    cases hget : t.get n with
    | none =>
      have hstep : raise k (n + 1) t = raise k n t := by simp only [raise, hget]
      obtain ⟨hcons, hraise⟩ := ih ht fun i hi hik => by
        by_cases hin : i = n
        · rw [hin, hget]
        · exact hfree i (by omega) (by omega)
      rw [hstep]
      refine ⟨hcons, fun i => ?_⟩
      rw [hraise]
      -- position `n + k` is the only one on which the two bounds differ
      by_cases hi : i = n + k
      · subst hi
        have hnone : t.get (n + k) = none := by
          cases k with
          | zero => exact hget
          | succ k => exact hfree _ (by omega) (by omega)
        simp [hnone, hget]
      · split_ifs <;> first | rfl | omega
    | some a =>
      have hstep : raise k (n + 1) t =
          raise k n (t.move n a (n + k)) := by
        simp only [raise, hget]
      have hfree' : n + k = n ∨ t.get (n + k) = none := by
        cases k with
        | zero => exact .inl rfl
        | succ k => exact .inr (hfree _ (by omega) (by omega))
      obtain ⟨hcons, hraise⟩ := ih (ht.move hget hfree') fun i hi hik => by
        rw [get_move, if_neg (by omega)]
        split
        · rfl
        · exact hfree i (by omega) (by omega)
      rw [hstep]
      refine ⟨hcons, fun i => ?_⟩
      rw [hraise, get_move, get_move]
      by_cases hi : i = n + k
      · subst hi
        simp [hget]
      · split_ifs <;> first | rfl | omega

/-- Lowering into free positions: what stood at one of the `m` positions from `i` on stands `k`
lower. -/
theorem Consistent.lower (k : ℕ) {m i : ℕ} (hk : k ≤ i) (ht : t.Consistent)
    (hfree : ∀ j, i - k ≤ j → j < i → t.get j = none) :
    (lower k m i t).Consistent ∧ ∀ j, (lower k m i t).get j = if j < i - k ∨ i + m ≤ j then t.get j
        else if j + k < i + m then t.get (j + k) else none := by
  induction m generalizing t i with
  | zero =>
    refine ⟨ht, fun j => ?_⟩
    split
    · rfl
    · rw [if_neg (by omega)]
      exact hfree j (by omega) (by omega)
  | succ m ih =>
    cases hget : t.get i with
    | none =>
      have hstep : lower k (m + 1) i t = lower k m (i + 1) t := by simp only [lower, hget]
      obtain ⟨hcons, hlower⟩ := ih (i := i + 1) (by omega) ht fun j hj hji => by
        by_cases hjeq : j = i
        · rw [hjeq, hget]
        · exact hfree j (by omega) (by omega)
      rw [hstep]
      refine ⟨hcons, fun j => ?_⟩
      rw [hlower]
      -- position `i - k` is the only one that leaves the untouched part
      by_cases hj : j = i - k
      · have hnone : t.get j = none := by
          by_cases hzero : k = 0
          · rw [hj, hzero, Nat.sub_zero, hget]
          · exact hfree j (by omega) (by omega)
        have hsum : j + k = i := by omega
        rw [hsum, hget, hnone]
        simp
      · split_ifs <;> first | rfl | omega
    | some a =>
      have hstep : lower k (m + 1) i t =
          lower k m (i + 1) (t.move i a (i - k)) := by
        simp only [lower, hget]
      have hfree' : i - k = i ∨ t.get (i - k) = none := by
        by_cases hzero : k = 0
        · exact .inl (by omega)
        · exact .inr (hfree _ (by omega) (by omega))
      obtain ⟨hcons, hlower⟩ := ih (i := i + 1) (by omega) (ht.move hget hfree') fun j hj hji => by
        rw [get_move, if_neg (by omega)]
        split
        · rfl
        · exact hfree j (by omega) (by omega)
      rw [hstep]
      refine ⟨hcons, fun j => ?_⟩
      rw [hlower, get_move, get_move]
      by_cases hj : j = i - k
      · have hsum : j + k = i := by omega
        rw [hsum, hget]
        split_ifs <;> first | rfl | omega
      · split_ifs <;> first | rfl | omega

end PositionIndex
