import Zkas.Lib.Framing

/-!
# Symbolic hashes

The free model of hashing: a digest is the term that records the hash function's tag and everything
it absorbed. Such a hash is injective on preimages by construction, and distinct tags have disjoint
ranges, so it instantiates assumptions of that kind. Terms compare by evaluation. -/

namespace Symbolic

open Framing

/-- A digest, or a sequence of absorbed symbols. -/
inductive Term where
  /-- A value that is not the result of a hash. -/
  | atom (n : ℕ)
  /-- The empty sequence. -/
  | nil
  /-- A byte and the symbols after it. -/
  | byte (b : UInt8) (rest : Term)
  /-- A digest and the symbols after it. -/
  | digest (d rest : Term)
  /-- The digest of a sequence under a tag. -/
  | hash (tag : String) (absorbed : Term)
  deriving DecidableEq

/-- The sequence of a preimage's symbols. -/
def Term.ofPreimage : Preimage Term → Term
  | [] => nil
  | .inl b :: p => byte b (ofPreimage p)
  | .inr d :: p => digest d (ofPreimage p)

theorem Term.ofPreimage_injective : Function.Injective Term.ofPreimage := by
  intro p q h
  induction p generalizing q with
  | nil =>
    rcases q with _ | ⟨_ | _, _⟩
    · rfl
    · cases h
    · cases h
  | cons s p ih =>
    rcases s with b | d
    · rcases q with _ | ⟨c | _, q⟩
      · cases h
      · obtain ⟨rfl, hrest⟩ := Term.byte.inj h
        rw [ih hrest]
      · cases h
    · rcases q with _ | ⟨_ | c, q⟩
      · cases h
      · cases h
      · obtain ⟨rfl, hrest⟩ := Term.digest.inj h
        rw [ih hrest]

/-- The symbolic hash with a tag. -/
def hash (tag : String) (p : Preimage Term) : Term := .hash tag (.ofPreimage p)

theorem hash_injective (tag : String) : Function.Injective (hash tag) := by
  intro p q h
  exact Term.ofPreimage_injective (Term.hash.inj h).2

end Symbolic
