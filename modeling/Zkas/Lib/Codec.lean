import Zkas.Lib.Framing

/-!
# Self-delimiting encodings

A hash preimage is a concatenation of encoded fields. An encoding is self-delimiting when, whatever
follows it, the encoding and what follows can be told apart. Encodings of a fixed width are, so are
sequences that start with their length, and so are concatenations. A length is eight little-endian
bytes, so it is recovered below `2^64`; `Vec` is the type of lists with such a length. -/

namespace Framing

open List

variable {α β : Type*} {σ : Type*}

/-- An encoding that says where it ends. -/
def SelfDelimiting (enc : α → List σ) : Prop :=
  ∀ ⦃x y : α⦄ ⦃r r' : List σ⦄, enc x ++ r = enc y ++ r' → enc x = enc y ∧ r = r'

namespace SelfDelimiting

theorem of_length {enc : α → List σ} {n : ℕ} (h : ∀ x, (enc x).length = n) : SelfDelimiting enc :=
  fun x y _ _ heq => append_inj heq ((h x).trans (h y).symm)

theorem comp {enc : β → List σ} (h : SelfDelimiting enc) (f : α → β) :
    SelfDelimiting fun x => enc (f x) :=
  fun _ _ _ _ heq => h heq

theorem append {enc enc' : α → List σ} (h : SelfDelimiting enc) (h' : SelfDelimiting enc') :
    SelfDelimiting fun x => enc x ++ enc' x := by
  intro x y r r' heq
  rw [append_assoc, append_assoc] at heq
  obtain ⟨hfst, htail⟩ := h heq
  obtain ⟨hsnd, hrest⟩ := h' htail
  exact ⟨congrArg₂ _ hfst hsnd, hrest⟩

theorem ite {enc enc' : α → List σ} {c : Prop} [Decidable c] (h : SelfDelimiting enc)
    (h' : SelfDelimiting enc') : SelfDelimiting fun x => if c then enc x else enc' x := by
  by_cases hc : c
  · simpa only [if_pos hc] using h
  · simpa only [if_neg hc] using h'

theorem option {enc : α → List UInt8} (h : SelfDelimiting enc) :
    SelfDelimiting fun x : Option α => x.elim [0] fun a => 1 :: enc a := by
  rintro (_ | a) (_ | b) r r' heq
  · exact ⟨rfl, (cons.inj heq).2⟩
  · exact absurd (cons.inj heq).1 (by decide)
  · exact absurd (cons.inj heq).1 (by decide)
  · obtain ⟨hfield, hrest⟩ := h (cons.inj heq).2
    exact ⟨congrArg (cons 1) hfield, hrest⟩

theorem flatMap {enc : α → List σ} (h : SelfDelimiting enc) {xs ys : List α} {r r' : List σ}
    (hlen : xs.length = ys.length) (heq : xs.flatMap enc ++ r = ys.flatMap enc ++ r') :
    xs.map enc = ys.map enc ∧ r = r' := by
  induction xs generalizing ys with
  | nil =>
    obtain rfl := eq_nil_of_length_eq_zero hlen.symm
    exact ⟨rfl, heq⟩
  | cons x xs ih =>
    obtain ⟨y, ys, rfl⟩ := exists_cons_of_length_eq_add_one hlen.symm
    rw [flatMap_cons, flatMap_cons, append_assoc, append_assoc] at heq
    obtain ⟨hhead, htail⟩ := h heq
    obtain ⟨hmap, hrest⟩ := ih (Nat.succ.inj hlen) htail
    exact ⟨by rw [map_cons, map_cons, hhead, hmap], hrest⟩

theorem word {w : ℕ} : SelfDelimiting (wordBytes : BitVec w → List UInt8) :=
  of_length length_wordBytes

theorem vector {n : ℕ} : SelfDelimiting (List.Vector.toList : List.Vector UInt8 n → List UInt8) :=
  of_length List.Vector.toList_length

end SelfDelimiting

/-! ## Lengths and sequences -/

/-- A list whose length fits 64 bits. -/
abbrev Vec (α : Type*) := { xs : List α // xs.length < 2 ^ 64 }

/-- The empty sequence. -/
def Vec.empty : Vec α := ⟨[], by norm_num⟩

/-- A length, as eight bytes. -/
def lenBytes (n : ℕ) : List UInt8 := leBytes 8 n

variable {r r' : List UInt8}

theorem lenBytes_append_inj {n m : ℕ} (hn : n < 2 ^ 64) (hm : m < 2 ^ 64)
    (heq : lenBytes n ++ r = lenBytes m ++ r') : n = m ∧ r = r' := by
  have hlen : (lenBytes n).length = (lenBytes m).length := by
    rw [lenBytes, lenBytes, length_leBytes, length_leBytes]
  obtain ⟨hbytes, hrest⟩ := append_inj heq hlen
  have hpow : 256 ^ 8 = 2 ^ 64 := by norm_num
  exact ⟨leBytes_inj (hpow ▸ hn) (hpow ▸ hm) hbytes, hrest⟩

/-- A sequence: its length and its elements. -/
def vecBytes (enc : α → List UInt8) (xs : List α) : List UInt8 :=
  lenBytes xs.length ++ xs.flatMap enc

variable {enc : α → List UInt8}

theorem vecBytes_append_inj (h : SelfDelimiting enc) {xs ys : List α}
    (hxs : xs.length < 2 ^ 64) (hys : ys.length < 2 ^ 64)
    (heq : vecBytes enc xs ++ r = vecBytes enc ys ++ r') : xs.map enc = ys.map enc ∧ r = r' := by
  unfold vecBytes at heq
  obtain ⟨hlen, htail⟩ := lenBytes_append_inj hxs hys heq
  exact h.flatMap hlen htail

theorem vecBytes_append_inj_of_injective (h : SelfDelimiting enc)
    (hinj : Function.Injective enc) {xs ys : List α} (hxs : xs.length < 2 ^ 64)
    (hys : ys.length < 2 ^ 64)
    (heq : vecBytes enc xs ++ r = vecBytes enc ys ++ r') : xs = ys ∧ r = r' := by
  obtain ⟨hmap, hrest⟩ := vecBytes_append_inj h hxs hys heq
  exact ⟨map_injective_iff.mpr hinj hmap, hrest⟩

theorem SelfDelimiting.vec (h : SelfDelimiting enc) :
    SelfDelimiting fun xs : Vec α => vecBytes enc xs.val := by
  intro xs ys r r' heq
  obtain ⟨hmap, hrest⟩ := vecBytes_append_inj h xs.property ys.property heq
  have hlen : xs.val.length = ys.val.length := by simpa only [length_map] using congrArg length hmap
  have hflat : xs.val.flatMap enc = ys.val.flatMap enc := by rw [flatMap_def, flatMap_def, hmap]
  have hbytes : vecBytes enc xs.val = vecBytes enc ys.val := by rw [vecBytes, vecBytes, hlen, hflat]
  exact ⟨hbytes, hrest⟩

/-- A byte string: its length and its bytes. -/
def varBytes (bs : List UInt8) : List UInt8 := lenBytes bs.length ++ bs

theorem varBytes_append_inj {bs cs : List UInt8} (hbs : bs.length < 2 ^ 64)
    (hcs : cs.length < 2 ^ 64)
    (heq : varBytes bs ++ r = varBytes cs ++ r') : bs = cs ∧ r = r' := by
  unfold varBytes at heq
  obtain ⟨hlen, htail⟩ := lenBytes_append_inj hbs hcs heq
  exact append_inj htail hlen

theorem SelfDelimiting.var : SelfDelimiting fun bs : Vec UInt8 => varBytes bs.val := by
  intro bs cs r r' heq
  obtain ⟨hbytes, hrest⟩ := varBytes_append_inj bs.property cs.property heq
  exact ⟨congrArg varBytes hbytes, hrest⟩

/-! ## Numbers without leading zeros -/

/-- The big-endian bytes of a word without the leading zeros. -/
def trimmedBytes {w : ℕ} (x : BitVec w) : List UInt8 := (wordBytes x).reverse.dropWhile (· == 0)

theorem replicate_append_dropWhile [DecidableEq σ] (z : σ) (xs : List σ) :
    replicate (xs.length - (xs.dropWhile (· == z)).length) z ++ xs.dropWhile (· == z) = xs := by
  induction xs with
  | nil => rfl
  | cons x xs ih =>
    by_cases hx : x = z
    · subst hx
      have hle : (xs.dropWhile (· == x)).length ≤ xs.length := (dropWhile_suffix _).length_le
      rw [dropWhile_cons_of_pos (by simp), length_cons, Nat.succ_sub hle,
        replicate_succ, cons_append, ih]
    · rw [dropWhile_cons_of_neg (by simpa using hx), Nat.sub_self]
      rfl

theorem trimmedBytes_inj {w : ℕ} (hw : 8 ∣ w) {x y : BitVec w}
    (h : trimmedBytes x = trimmedBytes y) : x = y := by
  unfold trimmedBytes at h
  have hx := replicate_append_dropWhile (0 : UInt8) (wordBytes x).reverse
  have hy := replicate_append_dropWhile (0 : UInt8) (wordBytes y).reverse
  rw [length_reverse, length_wordBytes] at hx hy
  rw [h, hy] at hx
  exact wordBytes_inj hw (reverse_injective hx).symm

theorem length_trimmedBytes_le {w : ℕ} (x : BitVec w) : (trimmedBytes x).length ≤ w / 8 := by
  have hle := (dropWhile_suffix (l := (wordBytes x).reverse) (· == 0)).length_le
  rwa [length_reverse, length_wordBytes] at hle

end Framing
