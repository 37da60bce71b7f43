import Mathlib

/-!
# Authentication paths of the first leaf

The first leaf of a binary hash tree is the left child at every level, so its path to the root is
the fold of the right siblings. Whatever the lengths of two paths, if they end in one root and no
two of the hashed inputs collide, leaves included, then they are one path from one leaf. -/

namespace MerkleBranch

open List

variable {H L : Type*}

/-- What is hashed on the way: a leaf, or a pair of children. -/
abbrev Input (L H : Type*) := L ⊕ H × H

variable (leaf : L → H)

/-- The hash of an input. -/
def inputHash (node : H → H → H) : Input L H → H
  | .inl x => leaf x
  | .inr (l, r) => node l r

/-- The root that a path from `acc` reaches. -/
def root (node : H → H → H) (acc : H) (branch : List H) : H := branch.foldl node acc

/-- The pairs that are hashed along a path from `acc`. -/
def pairs (node : H → H → H) : H → List H → List (H × H)
  | _, [] => []
  | acc, sibling :: branch => (acc, sibling) :: pairs node (node acc sibling) branch

/-- The inputs hashed along a path from a leaf. -/
def inputs (node : H → H → H) (x : L) (branch : List H) : List (Input L H) :=
  .inl x :: (pairs node (leaf x) branch).map .inr

theorem root_concat (node : H → H → H) (acc sibling : H) (branch : List H) :
    root node acc (branch ++ [sibling]) = node (root node acc branch) sibling := by
  rw [root, foldl_append]
  rfl

theorem pairs_concat (node : H → H → H) (acc sibling : H) (branch : List H) :
    pairs node acc (branch ++ [sibling]) =
      pairs node acc branch ++ [(root node acc branch, sibling)] := by
  induction branch generalizing acc with
  | nil => rfl
  | cons s branch ih => rw [cons_append, pairs, pairs, ih, cons_append]; rfl

theorem inputs_subset_concat (node : H → H → H) (x : L) (branch : List H) (sibling : H) :
    ∀ q ∈ inputs leaf node x branch, q ∈ inputs leaf node x (branch ++ [sibling]) := by
  intro q hq
  unfold inputs at hq ⊢
  rw [pairs_concat, map_append, ← cons_append]
  exact mem_append_left _ hq

theorem top_mem_inputs (node : H → H → H) (x : L) (branch : List H) (sibling : H) :
    .inr (root node (leaf x) branch, sibling) ∈ inputs leaf node x (branch ++ [sibling]) := by
  unfold inputs
  rw [pairs_concat, map_append, ← cons_append]
  exact mem_append_right _ mem_cons_self

theorem leaf_mem_inputs (node : H → H → H) (x : L) (branch : List H) :
    .inl x ∈ inputs leaf node x branch :=
  mem_cons_self

/-- Without collisions among the hashed inputs a root has one path and one leaf. -/
theorem root_inj {leaf : L → H} {node : H → H → H} {S : Set (Input L H)}
    (hinj : Set.InjOn (inputHash leaf node) S) {x y : L} {branch branch' : List H}
    (hx : ∀ q ∈ inputs leaf node x branch, q ∈ S) (hy : ∀ q ∈ inputs leaf node y branch', q ∈ S)
    (h : root node (leaf x) branch = root node (leaf y) branch') : x = y ∧ branch = branch' := by
  -- Induction from the root down: the top pair is determined by the root.
  induction branch using reverseRecOn generalizing branch' with
  | nil =>
    cases branch' using reverseRecOn with
    | nil =>
      have hinput := hinj (hx _ (leaf_mem_inputs ..)) (hy _ (leaf_mem_inputs ..)) h
      exact ⟨Sum.inl.inj hinput, rfl⟩
    | append_singleton branch' sibling' =>
      -- A leaf against a pair of children.
      rw [root_concat] at h
      exact absurd (hinj (hx _ (leaf_mem_inputs ..)) (hy _ (top_mem_inputs ..)) h) Sum.inl_ne_inr
  | append_singleton branch sibling ih =>
    cases branch' using reverseRecOn with
    | nil =>
      rw [root_concat] at h
      exact absurd (hinj (hx _ (top_mem_inputs ..)) (hy _ (leaf_mem_inputs ..)) h) Sum.inr_ne_inl
    | append_singleton branch' sibling' =>
      rw [root_concat, root_concat] at h
      have hinput := hinj (hx _ (top_mem_inputs ..)) (hy _ (top_mem_inputs ..)) h
      obtain ⟨hacc, hsibling⟩ := Prod.mk.inj (Sum.inr.inj hinput)
      have hbelow := ih (fun q hq => hx q (inputs_subset_concat _ _ _ _ _ q hq))
        (fun q hq => hy q (inputs_subset_concat _ _ _ _ _ q hq)) hacc
      exact ⟨hbelow.1, by rw [hbelow.2, hsibling]⟩

end MerkleBranch
