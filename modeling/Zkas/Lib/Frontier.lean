import Zkas.Lib.MountainRange

/-!
# Frontiers of a tree of fixed depth

A non-empty frontier carries the proofs that its position fits the tree and that it has an ommer per
set bit of the position, so that its root always exists. Appending a leaf carries the old leaf into
the ommers.

`pairNat` is an injective node hash on the natural numbers under which every empty subtree has the
root zero, so that frontiers over it can be evaluated. -/

namespace MountainRange

variable {α : Type*}

/-- A non-empty frontier of a tree of the given depth. -/
structure Frontier (α : Type*) (depth : ℕ) where
  position : ℕ
  leaf : α
  ommers : List α
  position_lt : position < 2 ^ depth
  length_ommers : ommers.length = popcount position

namespace Frontier

variable {depth : ℕ} (combine : ℕ → α → α → α) (emptyLeaf : α)

/-- The frontier with the given parts, if they fit. -/
def fromParts (depth position : ℕ) (leaf : α) (ommers : List α) : Option (Frontier α depth) :=
  if h : position < 2 ^ depth ∧ ommers.length = popcount position then
    some ⟨position, leaf, ommers, h.1, h.2⟩
  else none

variable (f : Frontier α depth)

/-- The position, the last leaf and the ommers. -/
def parts : ℕ × α × List α := (f.position, f.leaf, f.ommers)

/-- A frontier, or none for the empty tree, after one more leaf; nothing when the tree is full. -/
def append (f : Option (Frontier α depth)) (leaf : α) : Option (Frontier α depth) :=
  match f with
  | none => fromParts depth 0 leaf []
  | some f =>
    (carry combine 0 f.position f.leaf f.ommers).bind (fromParts depth (f.position + 1) leaf)

/-- The root of the tree whose remaining leaves are empty. -/
def root : α := (rootFrom combine emptyLeaf depth 0 f.position f.leaf f.ommers).getD emptyLeaf

theorem parts_injective : Function.Injective (parts : Frontier α depth → ℕ × α × List α) := by
  rintro ⟨p, l, oms, _, _⟩ ⟨p', l', oms', _, _⟩ h
  obtain ⟨rfl, rfl, rfl⟩ := h
  rfl

theorem fromParts_of_fits {p : ℕ} {oms : List α} (l : α) (hp : p < 2 ^ depth)
    (hlen : oms.length = popcount p) : fromParts depth p l oms = some ⟨p, l, oms, hp, hlen⟩ :=
  dif_pos ⟨hp, hlen⟩

theorem parts_of_fromParts {p : ℕ} {l : α} {oms : List α} {f : Frontier α depth}
    (h : fromParts depth p l oms = some f) : f.parts = (p, l, oms) := by
  unfold fromParts at h
  split_ifs at h
  obtain rfl := Option.some.inj h
  rfl

variable {combine emptyLeaf}

/-- A leaf appended to a frontier that is not full is the last leaf at the next position. -/
theorem append_some (leaf : α) (hfit : f.position + 1 < 2 ^ depth) :
    ∃ f' oms, append combine (some f) leaf = some f' ∧
      carry combine 0 f.position f.leaf f.ommers = some oms ∧
      f'.parts = (f.position + 1, leaf, oms) := by
  have hcarry : ∃ oms, carry combine 0 f.position f.leaf f.ommers = some oms ∧
      oms.length = popcount (f.position + 1) := carry_spec 0 f.position f.leaf f.length_ommers
  obtain ⟨oms, homs, hlen⟩ := hcarry
  refine ⟨⟨f.position + 1, leaf, oms, hfit, hlen⟩, oms, ?_, homs, rfl⟩
  rw [append, homs, Option.bind_some, fromParts_of_fits leaf hfit hlen]

theorem append_full (leaf : α) (hfull : 2 ^ depth ≤ f.position + 1) :
    append combine (some f) leaf = none := by
  have hnone : ∀ oms, fromParts depth (f.position + 1) leaf oms = none := fun oms =>
    dif_neg fun h => by omega
  rw [append]
  cases carry combine 0 f.position f.leaf f.ommers with
  | none => rfl
  | some oms => exact hnone oms

theorem rootFrom_eq_root :
    rootFrom combine emptyLeaf depth 0 f.position f.leaf f.ommers =
      some (f.root combine emptyLeaf) := by
  have hsome : (rootFrom combine emptyLeaf depth 0 f.position f.leaf f.ommers).isSome :=
    rootFrom_isSome f.length_ommers
  obtain ⟨r, hr⟩ := Option.isSome_iff_exists.mp hsome
  rw [root, hr, Option.getD_some]

end Frontier

/-! ## An injective node hash on the natural numbers -/

/-- The pair of two numbers: the left one in the odd part, the right one in the power of two. -/
def pairNat (l r : ℕ) : ℕ := 2 ^ r * (2 * l + 1) - 1

theorem pow_mul_odd_le {l l' r r' : ℕ} (h : 2 ^ r * (2 * l + 1) = 2 ^ r' * (2 * l' + 1)) :
    r' ≤ r := by
  by_contra hlt
  obtain ⟨k, rfl⟩ := Nat.exists_eq_add_of_lt (Nat.lt_of_not_le hlt)
  rw [show r + k + 1 = r + (k + 1) by omega, pow_add, mul_assoc] at h
  -- What is left after cancelling is odd on one side and even on the other.
  have hodd := Nat.eq_of_mul_eq_mul_left (by positivity) h
  rw [pow_succ, mul_assoc, mul_left_comm] at hodd
  omega

theorem pairNat_injective2 : Function.Injective2 pairNat := by
  intro l l' r r' h
  have hpos : ∀ a b : ℕ, 0 < 2 ^ b * (2 * a + 1) := fun a b => by positivity
  have hprod : 2 ^ r * (2 * l + 1) = 2 ^ r' * (2 * l' + 1) := by
    have h₁ := hpos l r
    have h₂ := hpos l' r'
    simp only [pairNat] at h
    omega
  obtain rfl : r = r' := Nat.le_antisymm (pow_mul_odd_le hprod.symm) (pow_mul_odd_le hprod)
  have hodd := Nat.eq_of_mul_eq_mul_left (by positivity) hprod
  exact ⟨by omega, rfl⟩

theorem emptyRoot_pairNat (lvl : ℕ) : emptyRoot (fun _ => pairNat) 0 lvl = 0 := by
  induction lvl with
  | zero => rfl
  | succ lvl ih => rw [emptyRoot, ih]; rfl

end MountainRange
