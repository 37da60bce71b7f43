import Mathlib

/-!
# Hash preimages and fixed-width framing

A hash function is fed a sequence of raw bytes and of digests it or another hash produced earlier.
`Preimage H` keeps a digest as one symbol of the digest type `H`: a digest has a fixed width, so the
symbols can be read back wherever the layout fixes the offsets, and an injective hash on preimages
exists for every infinite `H`. Integers enter as their little-endian bytes. -/

namespace Framing

open List

/-- The `k` little-endian bytes of `n`. -/
def leBytes : ℕ → ℕ → List UInt8
  | 0, _ => []
  | k + 1, n => UInt8.ofNat n :: leBytes k (n / 256)

@[simp] theorem length_leBytes (k n : ℕ) : (leBytes k n).length = k := by
  induction k generalizing n with
  | zero => rfl
  | succ k ih => rw [leBytes, length_cons, ih]

theorem leBytes_inj {k n m : ℕ} (hn : n < 256 ^ k) (hm : m < 256 ^ k)
    (h : leBytes k n = leBytes k m) : n = m := by
  induction k generalizing n m with
  | zero => rw [Nat.pow_zero] at hn hm; omega
  | succ k ih =>
    rw [leBytes, leBytes, cons.injEq] at h
    obtain ⟨hlow, hrest⟩ := h
    have hdiv : n / 256 = m / 256 := by
      refine ih ?_ ?_ hrest
      · rw [pow_succ] at hn; omega
      · rw [pow_succ] at hm; omega
    have hmod : n % 256 = m % 256 := by
      have := congrArg UInt8.toNat hlow
      rwa [UInt8.toNat_ofNat', UInt8.toNat_ofNat'] at this
    omega

/-- The little-endian bytes of a word whose width is a whole number of bytes. -/
def wordBytes {w : ℕ} (x : BitVec w) : List UInt8 := leBytes (w / 8) x.toNat

@[simp] theorem length_wordBytes {w : ℕ} (x : BitVec w) : (wordBytes x).length = w / 8 :=
  length_leBytes _ _

theorem wordBytes_inj {w : ℕ} (hw : 8 ∣ w) {x y : BitVec w} (h : wordBytes x = wordBytes y) :
    x = y := by
  have hpow : 256 ^ (w / 8) = 2 ^ w := by
    rw [show 256 = 2 ^ 8 from rfl, ← pow_mul, Nat.mul_div_cancel' hw]
  refine BitVec.eq_of_toNat_eq (leBytes_inj ?_ ?_ h)
  · rw [hpow]; exact x.isLt
  · rw [hpow]; exact y.isLt

/-- What a hash function absorbs: bytes and digests, in order. -/
abbrev Preimage (H : Type*) := List (UInt8 ⊕ H)

namespace Preimage

variable {H : Type*}

/-- Raw bytes. -/
def bytes (bs : List UInt8) : Preimage H := bs.map Sum.inl

/-- The little-endian bytes of a word. -/
def word {w : ℕ} (x : BitVec w) : Preimage H := bytes (wordBytes x)

/-- One digest. -/
def digest (h : H) : Preimage H := [Sum.inr h]

/-- A list of digests. -/
def digests (hs : List H) : Preimage H := hs.map Sum.inr

@[simp] theorem length_bytes (bs : List UInt8) : (bytes bs : Preimage H).length = bs.length :=
  length_map _

@[simp] theorem bytes_inj {bs cs : List UInt8} : (bytes bs : Preimage H) = bytes cs ↔ bs = cs :=
  (map_injective_iff.mpr Sum.inl_injective).eq_iff

@[simp] theorem digests_inj {hs ks : List H} : digests hs = digests ks ↔ hs = ks :=
  (map_injective_iff.mpr Sum.inr_injective).eq_iff

variable {p q : Preimage H}

@[simp] theorem digest_append_inj {h k : H} :
    digest h ++ p = digest k ++ q ↔ h = k ∧ p = q := by
  simp [digest]

theorem bytes_append_inj {bs cs : List UInt8} (hlen : bs.length = cs.length) :
    bytes bs ++ p = bytes cs ++ q ↔ bs = cs ∧ p = q := by
  constructor
  · intro h
    obtain ⟨hb, hp⟩ := append_inj h (by rw [length_bytes, length_bytes, hlen])
    exact ⟨bytes_inj.mp hb, hp⟩
  · rintro ⟨rfl, rfl⟩; rfl

theorem word_append_inj {w : ℕ} (hw : 8 ∣ w) {x y : BitVec w} :
    word x ++ p = word y ++ q ↔ x = y ∧ p = q := by
  rw [word, word, bytes_append_inj (by rw [length_wordBytes, length_wordBytes])]
  constructor
  · rintro ⟨hx, hp⟩; exact ⟨wordBytes_inj hw hx, hp⟩
  · rintro ⟨rfl, rfl⟩; exact ⟨rfl, rfl⟩

theorem word_inj {w : ℕ} (hw : 8 ∣ w) {x y : BitVec w} :
    (word x : Preimage H) = word y ↔ x = y := by
  have h := word_append_inj (H := H) hw (x := x) (y := y) (p := []) (q := [])
  rwa [append_nil, append_nil, and_iff_left rfl] at h

end Preimage

end Framing
