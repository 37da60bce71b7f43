import Zkas.Lib.LevelTree

/-!
# Merkle roots and witnesses

The functions of `crypto/merkle/src/lib.rs`, for a pair hash `H` and the value `zero` that stands
for a missing right node. The root is computed in one array that holds all levels
(`calcMerkleRootWithHasher`); the witnesses reduce a list level by level. All of them are about one
tree, that of `LevelTree`. -/

namespace Zkas.Merkle

open List LevelTree

open LevelTree (levelUp level node partner path fold)

variable {α : Type*} (H : α → α → α) (zero : α)

/-! ## The root -/

/-- `n.next_power_of_two()`, for a positive `n`. -/
def nextPowerOfTwo (n : ℕ) : ℕ := 2 ^ Nat.clog 2 n

/-- An assignment to an element of a vector. `none` is a panic. -/
def put (merkles : List (Option α)) (i : ℕ) (value : Option α) : Option (List (Option α)) :=
  if i < merkles.length then some (merkles.set i value) else none

/-- One round of the loop of `calc_merkle_root_with_hasher`. `none` is a panic. -/
def reduceStep (merkles : List (Option α)) (offset i : ℕ) : Option (List (Option α)) := do
  match ← merkles[i]? with
  | none => put merkles offset none
  | some left =>
    let right ← merkles[i + 1]?
    put merkles offset (some (H left (right.getD zero)))

/-- `calc_merkle_root_with_hasher`. `none` is a panic. -/
def calcMerkleRootWithHasher (hashes : List α) : Option α :=
  match hashes with
  | [] => some zero
  | [hash] => some hash
  | _ => do
    let next_pot := nextPowerOfTwo hashes.length
    let vec_len := 2 * next_pot - 1
    let merkles := hashes.map some ++ replicate (vec_len - hashes.length) none
    -- The offsets count up from `next_pot`, the indices by two from zero to the last but one.
    let merkles ← (range (vec_len / 2)).foldlM
      (fun merkles k => reduceStep H zero merkles (next_pot + k) (2 * k)) merkles
    (← merkles.getLast?)

/-! ## Witnesses -/

/-- The loop of `create_first_leaf_merkle_witness`. -/
def firstLeafLoop (level : List α) : List α :=
  match level with
  | left :: right :: rest => right :: firstLeafLoop (levelUp H zero (left :: right :: rest))
  | _ => []
termination_by level.length
decreasing_by
  rw [length_levelUp, length_cons, length_cons]
  omega

/-- `create_first_leaf_merkle_witness`. -/
def createFirstLeafMerkleWitness (leaf_hashes : List α) : List α :=
  if leaf_hashes.length ≤ 1 then [] else firstLeafLoop H zero leaf_hashes

/-- The loop of `create_merkle_witness`. -/
def witnessLoop (level : List α) (idx : ℕ) : List α :=
  if 1 < level.length then
    let sib := if idx % 2 = 0 then (if h : idx + 1 < level.length then level[idx + 1] else zero)
      else level.getD (idx - 1) zero
    sib :: witnessLoop (levelUp H zero level) (idx / 2)
  else []
termination_by level.length
decreasing_by
  rw [length_levelUp]
  omega

/-- `create_merkle_witness`. -/
def createMerkleWitness (leaf_hashes : List α) (index : ℕ) : List α :=
  if leaf_hashes.length ≤ 1 ∨ leaf_hashes.length ≤ index then [] else
    witnessLoop H zero leaf_hashes index

/-- `verify_merkle_witness`. -/
def verifyMerkleWitness [DecidableEq α] (leaf : α) (index : ℕ) (branch : List α) (root : α) :
    Bool :=
  let (acc, _) := branch.foldl (fun (acc, idx) sibling =>
    (if idx % 2 = 0 then H acc sibling else H sibling acc, idx / 2)) (leaf, index)
  acc = root

/-! ## The root is that of the levels -/

variable {H zero} {L : List α}

/-- The tree over a list, with the same filler on all levels. -/
abbrev root (H : α → α → α) (zero : α) (L : List α) : α := LevelTree.root H (fun _ => zero) L

variable {merkles : List (Option α)}

theorem reduceStep_eq {offset i : ℕ} (hi : i + 1 < merkles.length)
    (hoffset : offset < merkles.length) :
    reduceStep H zero merkles offset i =
      some (merkles.set offset (merkles[i].map fun left => H left (merkles[i + 1].getD zero))) := by
  unfold reduceStep put
  rw [getElem?_eq_getElem (by omega), getElem?_eq_getElem hi]
  cases merkles[i] with
  | none => simp [hoffset]
  | some left => simp [hoffset]

/-- Where a level begins in the array. -/
def levelStart (d l : ℕ) : ℕ := 2 ^ (d + 1) - 2 ^ (d + 1 - l)

/-- The array after `k` rounds: the levels, as far as they are written. -/
structure Reduced (H : α → α → α) (zero : α) (L : List α) (d k : ℕ) (merkles : List (Option α)) :
    Prop where
  length_eq : merkles.length = 2 ^ (d + 1) - 1
  written (l i : ℕ) (hl : l ≤ d) (hi : i < 2 ^ (d - l)) (hlt : levelStart d l + i < 2 ^ d + k) :
    merkles[levelStart d l + i]? = some (level H (fun _ => zero) L l)[i]?

theorem Reduced.start {d : ℕ} (hL : L.length ≤ 2 ^ d) :
    Reduced H zero L d 0 (L.map some ++ replicate (2 * 2 ^ d - 1 - L.length) none) := by
  refine ⟨?_, fun l i hl hi hlt => ?_⟩
  · rw [length_append, length_map, length_replicate, pow_succ]
    omega
  -- Only the lowest level begins before `2 ^ d`.
  obtain rfl : l = 0 := by
    refine Nat.eq_zero_of_not_pos fun hpos => ?_
    have hle : 2 ^ (d + 1 - l) ≤ 2 ^ d := Nat.pow_le_pow_right two_pos (by omega)
    unfold levelStart at hlt
    omega
  rw [levelStart, Nat.sub_zero, Nat.sub_self, Nat.zero_add, level]
  by_cases hiL : i < L.length
  · rw [getElem?_append_left (by rwa [length_map]), getElem?_map, getElem?_eq_getElem hiL]
    rfl
  · rw [getElem?_append_right (by rw [length_map]; omega), getElem?_replicate,
      length_map, if_pos (by omega), getElem?_eq_none (by omega)]

theorem two_mul_round {d l i k : ℕ} (hl : l < d) (h : levelStart d (l + 1) + i = 2 ^ d + k) :
    2 * k = levelStart d l + 2 * i := by
  have hle : 2 ^ (d - l) ≤ 2 ^ d := Nat.pow_le_pow_right two_pos (Nat.sub_le _ _)
  unfold levelStart at h ⊢
  rw [Nat.add_sub_add_right, pow_succ] at h
  rw [Nat.succ_sub hl.le, pow_succ, pow_succ]
  omega

theorem Reduced.step {d k : ℕ} (h : Reduced H zero L d k merkles) (hk : k < 2 ^ d - 1) :
    ∃ merkles', reduceStep H zero merkles (2 ^ d + k) (2 * k) = some merkles' ∧
      Reduced H zero L d (k + 1) merkles' := by
  have hlen := h.length_eq
  refine ⟨_, reduceStep_eq (by omega) (by omega), ?_, fun l i hl hi hlt => ?_⟩
  · rw [length_set, h.length_eq]
  by_cases hlast : levelStart d l + i = 2 ^ d + k
  · obtain ⟨l, rfl⟩ : ∃ m, l = m + 1 := by
      refine Nat.exists_eq_succ_of_ne_zero fun hzero => ?_
      subst hzero
      rw [levelStart, Nat.sub_zero, Nat.sub_self, Nat.zero_add] at hlast
      rw [Nat.sub_zero] at hi
      omega
    have hround := two_mul_round hl hlast
    have hi' : 2 * i + 1 < 2 ^ (d - l) := by
      rw [show d - l = d - (l + 1) + 1 by omega, pow_succ]
      omega
    have hleft := h.written l (2 * i) (by omega) (by omega) (by omega)
    have hright := h.written l (2 * i + 1) (by omega) hi' (by omega)
    rw [← hround, getElem?_eq_getElem (by omega)] at hleft
    rw [← add_assoc, ← hround, getElem?_eq_getElem (by omega)] at hright
    rw [hlast, getElem?_set_self (by omega), Option.some.inj hleft, Option.some.inj hright,
      level, getElem?_levelUp]
    rfl
  · rw [getElem?_set_ne (Ne.symm hlast)]
    exact h.written l i hl hi (by omega)

theorem Reduced.run {d : ℕ} (h : Reduced H zero L d 0 merkles) (k : ℕ) (hk : k ≤ 2 ^ d - 1) :
    ∃ merkles', (range k).foldlM
        (fun merkles k => reduceStep H zero merkles (2 ^ d + k) (2 * k)) merkles = some merkles' ∧
      Reduced H zero L d k merkles' := by
  induction k with
  | zero => exact ⟨merkles, rfl, h⟩
  | succ k ih =>
    obtain ⟨mid, hmid, hreduced⟩ := ih (by omega)
    obtain ⟨merkles', hstep, hreduced'⟩ := hreduced.step (by omega)
    refine ⟨merkles', ?_, hreduced'⟩
    rw [range_succ, foldlM_append, hmid]
    simpa using hstep

/-- The root of the levels is what the array ends with. -/
theorem calcMerkleRootWithHasher_eq (L : List α) :
    calcMerkleRootWithHasher H zero L = some (root H zero L) := by
  unfold calcMerkleRootWithHasher
  split
  · rfl
  · rfl
  next hnil hone =>
    have hlen : 0 < L.length := length_pos_iff.mpr hnil
    unfold nextPowerOfTwo
    generalize hd : Nat.clog 2 L.length = d
    have hpos := Nat.two_pow_pos d
    have hstart : Reduced H zero L d 0 _ := .start (hd ▸ Nat.le_pow_clog one_lt_two L.length)
    obtain ⟨merkles, hrun, hreduced⟩ := hstart.run (2 ^ d - 1) (le_refl _)
    have hlast := hreduced.written d 0 (le_refl _) (Nat.two_pow_pos _) (by
      unfold levelStart
      rw [Nat.add_sub_cancel_left, Nat.pow_succ]
      omega)
    have hindex : merkles.length - 1 = levelStart d d + 0 := by
      unfold levelStart
      rw [hreduced.length_eq, Nat.add_sub_cancel_left]
      omega
    have htop : 0 < (level H (fun _ => zero) L d).length :=
      lt_length_level.mpr ((Nat.zero_mul _).trans_lt hlen)
    have hroot : root H zero L = (level H (fun _ => zero) L d)[0] := by
      unfold root LevelTree.root node
      rw [hd, getD_eq_getElem _ _ htop]
    dsimp only
    rw [show (2 * 2 ^ d - 1) / 2 = 2 ^ d - 1 by omega, hrun, Option.bind_eq_bind, Option.bind_some,
      List.getLast?_eq_getElem?, hindex, hlast, hroot, List.getElem?_eq_getElem htop]
    rfl

/-! ## The witnesses are paths -/

theorem witnessLoop_eq (L : List α) (idx : ℕ) :
    witnessLoop H zero L idx = path H (fun _ => zero) L idx (Nat.clog 2 L.length) := by
  induction L, idx using witnessLoop.induct H zero with
  | case1 L idx hlen ih =>
    rw [witnessLoop, if_pos hlen, ih, clog_levelUp (H := H) (c := zero) hlen, path_cons]
    unfold partner
    split_ifs with heven hright
    · rw [getD_eq_getElem _ _ hright]
    · rw [getD_eq_default _ _ (by omega)]
    · rfl
  | case2 L idx hlen =>
    rw [witnessLoop, if_neg hlen, Nat.clog_of_right_le_one (by omega)]
    rfl

theorem createMerkleWitness_eq {index : ℕ} (hindex : index < L.length) :
    createMerkleWitness H zero L index = path H (fun _ => zero) L index (Nat.clog 2 L.length) := by
  unfold createMerkleWitness
  split_ifs with hlen
  · rw [Nat.clog_of_right_le_one (by omega)]
    rfl
  · exact witnessLoop_eq L index

theorem firstLeafLoop_eq (L : List α) : firstLeafLoop H zero L = witnessLoop H zero L 0 := by
  induction L using firstLeafLoop.induct H zero with
  | case1 left right rest ih =>
    rw [firstLeafLoop, ih]
    conv_rhs => rw [witnessLoop]
    simp
  | case2 L hL =>
    match L with
    | [] => simp [firstLeafLoop, witnessLoop]
    | [leaf] => simp [firstLeafLoop, witnessLoop]
    | left :: right :: rest => exact absurd rfl (hL left right rest)

theorem createFirstLeafMerkleWitness_eq (L : List α) :
    createFirstLeafMerkleWitness H zero L = createMerkleWitness H zero L 0 := by
  unfold createFirstLeafMerkleWitness createMerkleWitness
  split_ifs with hlen hor hor
  · rfl
  · omega
  · omega
  · exact firstLeafLoop_eq L

theorem verifyMerkleWitness_eq [DecidableEq α] (leaf : α) (index : ℕ) (branch : List α) (root : α) :
    verifyMerkleWitness H leaf index branch root = decide (fold H leaf index branch = root) := by
  have hfold : (branch.foldl (fun (acc, idx) sibling =>
      (if idx % 2 = 0 then H acc sibling else H sibling acc, idx / 2)) (leaf, index)).1 =
      fold H leaf index branch := by
    induction branch generalizing leaf index with
    | nil => rfl
    | cons sibling branch ih => exact ih _ _
  rw [← hfold]
  rfl

end Zkas.Merkle
