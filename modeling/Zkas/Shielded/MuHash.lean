import Zkas.Shielded.Burn

/-!
# The nullifier accumulator

Model of the use the shielded state makes of `crypto/muhash`: a multiplicative hash kept as a
fraction. The fraction lives in a commutative group with zero `G`, the residues modulo the MuHash
prime; the hash of the data to a residue and the hash of the final residue are the functions of a
`MuHashFns` record. Adding the elements of a list multiplies the numerator by their product, so the
accumulator depends on the multiset of the elements only. -/

namespace Zkas

variable {H G : Type}

/-- The two hashes of the accumulator: from data to a residue, and of the final residue. -/
structure MuHashFns (H G : Type) where
  data_to_element : H → G
  finalize_hash : G → H

/-- The accumulator's hashes have no collisions: neither on final residues nor on multisets of
data. -/
structure MuHashFns.Injective [CommGroupWithZero G] (mf : MuHashFns H G) : Prop where
  finalize : Function.Injective mf.finalize_hash
  product : ∀ {xs ys : List H},
    (xs.map mf.data_to_element).prod = (ys.map mf.data_to_element).prod → xs.Perm ys

/-- Only the residue one has the hash of the empty accumulator. -/
def MuHashFns.EmptyDistinct [CommGroupWithZero G] (mf : MuHashFns H G) : Prop :=
  ∀ g, mf.finalize_hash g = mf.finalize_hash 1 → g = 1

theorem MuHashFns.Injective.emptyDistinct [CommGroupWithZero G] {mf : MuHashFns H G}
    (h : mf.Injective) : mf.EmptyDistinct := fun _ hg => h.finalize hg

/-- The accumulator: a numerator and a denominator. -/
structure MuHash (G : Type) where
  numerator : G
  denominator : G
  deriving DecidableEq

namespace MuHash

variable [CommGroupWithZero G] (mf : MuHashFns H G)

/-- The empty accumulator. -/
def new : MuHash G := { numerator := 1, denominator := 1 }

variable (m : MuHash G)

/-- Hash the data and add it. -/
def addElement (data : H) : MuHash G :=
  { m with numerator := m.numerator * mf.data_to_element data }

/-- Divide the numerator by the denominator. -/
def normalize : MuHash G := { numerator := m.numerator / m.denominator, denominator := 1 }

/-- The hash of the normalized accumulator. -/
def finalize : H := mf.finalize_hash m.normalize.numerator

/-- Add a list of elements. -/
def addAll (data : List H) : MuHash G := data.foldl (addElement mf) m

/-- The hash of the empty accumulator. -/
def EMPTY_MUHASH : H := (new : MuHash G).finalize mf

theorem addAll_eq (data : List H) : m.addAll mf data =
      { m with numerator := m.numerator * (data.map mf.data_to_element).prod } := by
  unfold addAll
  induction data generalizing m with
  | nil => simp
  | cons d data ih => rw [List.foldl_cons, ih]; simp [addElement, mul_assoc]

theorem addAll_append (xs ys : List H) :
    m.addAll mf (xs ++ ys) = (m.addAll mf xs).addAll mf ys := List.foldl_append

theorem addAll_perm {xs ys : List H} (h : xs.Perm ys) : m.addAll mf xs = m.addAll mf ys := by
  rw [addAll_eq, addAll_eq, (h.map _).prod_eq]

@[simp] theorem addAll_denominator (data : List H) :
    (m.addAll mf data).denominator = m.denominator := by rw [addAll_eq]

theorem finalize_of_normalized {m : MuHash G} (h : m.denominator = 1) :
    m.finalize mf = mf.finalize_hash m.numerator := by
  rw [finalize, normalize, h, div_one]

variable {mf}

theorem eq_new_of_finalize (hempty : mf.EmptyDistinct) {m : MuHash G} (hden : m.denominator = 1)
    (h : m.finalize mf = EMPTY_MUHASH mf) : m = new := by
  rw [EMPTY_MUHASH, finalize_of_normalized mf hden, finalize_of_normalized mf rfl] at h
  have hnum : m.numerator = 1 := hempty _ h
  cases m
  simp_all [new]

theorem eq_of_finalize (hinj : mf.Injective) {m m' : MuHash G}
    (hm : m.denominator = 1) (hm' : m'.denominator = 1) (h : m.finalize mf = m'.finalize mf) :
    m = m' := by
  rw [finalize_of_normalized mf hm, finalize_of_normalized mf hm'] at h
  have hnum := hinj.finalize h
  cases m
  cases m'
  simp only at hm hm' hnum
  rw [hm, hm', hnum]

theorem perm_of_addAll (hinj : mf.Injective) {xs ys : List H}
    (h : (new : MuHash G).addAll mf xs = (new : MuHash G).addAll mf ys) : xs.Perm ys := by
  rw [addAll_eq, addAll_eq] at h
  have hnum := congrArg numerator h
  simp only [new, one_mul] at hnum
  exact hinj.product hnum

/-- The accumulator of a set. -/
def ofFinset (mf : MuHashFns H G) (set : Finset H) : MuHash G :=
  { numerator := ∏ x ∈ set, mf.data_to_element x, denominator := 1 }

theorem addAll_new_eq_ofFinset [DecidableEq H] {data : List H} (hnodup : data.Nodup) :
    (new : MuHash G).addAll mf data = ofFinset mf data.toFinset := by
  rw [addAll_eq, ofFinset, List.prod_toFinset _ hnodup]
  simp [new]

end MuHash

end Zkas
