import Zkas.Lib.Symbolic

/-!
# Symbolic multiplicative hashes

The free model of a multiplicative hash of multisets: each term has a prime of its own, so the
product of the primes of a list determines the list up to order. Quotients of such products are
rationals, with a symbolic digest. -/

namespace Symbolic

instance instCountableChar : Countable Char :=
  Function.Injective.countable (f := Char.toNat) fun _ _ h => Char.toNat_inj.mp h

instance instCountableString : Countable String :=
  Function.Injective.countable (f := String.toList) fun _ _ h => String.toList_inj.mp h

instance instCountableUInt8 : Countable UInt8 :=
  Function.Injective.countable (f := UInt8.toNat) fun _ _ h => UInt8.toNat_inj.mp h

deriving instance Countable for Term

/-- The prime of a term. -/
noncomputable def prime (t : Term) : ℕ := Nat.nth Nat.Prime ((Encodable.ofCountable Term).encode t)

theorem prime_prime (t : Term) : (prime t).Prime :=
    Nat.nth_mem_of_infinite Nat.infinite_setOfPred_prime _

theorem prime_injective : Function.Injective prime := by
  intro s t h
  have hcode := Nat.nth_injective Nat.infinite_setOfPred_prime h
  exact (Encodable.ofCountable Term).encode_injective hcode

theorem perm_of_prod_prime {xs ys : List Term}
    (h : (xs.map fun t => (prime t : ℚ)).prod = (ys.map fun t => (prime t : ℚ)).prod) :
    xs.Perm ys := by
  have hcast : ∀ zs : List Term,
      (zs.map fun t => (prime t : ℚ)).prod = ((zs.map prime).prod : ℕ) := fun zs => by
    have hmap := map_list_prod (Nat.castRingHom ℚ) (zs.map prime)
    rw [List.map_map] at hmap
    exact hmap.symm
  have hprod : (xs.map prime).prod = (ys.map prime).prod := by
    rw [hcast, hcast] at h
    exact_mod_cast h
  have hall : ∀ zs : List Term, ∀ p ∈ zs.map prime, p.Prime := fun zs p hp => by
    obtain ⟨t, -, rfl⟩ := List.mem_map.mp hp
    exact prime_prime t
  -- Both lists of primes are the factorization of the one product.
  have hxs := Nat.primeFactorsList_unique hprod (hall xs)
  have hys := Nat.primeFactorsList_unique rfl (hall ys)
  exact (List.map_perm_map_iff prime_injective).mp (hxs.trans hys.symm)

/-- The digest of a rational under a tag. -/
def hashRat (tag : String) (q : ℚ) : Term :=
  .hash tag (.digest (.atom q.num.toNat) (.digest (.atom (-q.num).toNat) (.atom q.den)))

theorem hashRat_injective (tag : String) : Function.Injective (hashRat tag) := by
  intro p q h
  simp only [hashRat, Term.hash.injEq, Term.digest.injEq, Term.atom.injEq, true_and] at h
  obtain ⟨hpos, hneg, hden⟩ := h
  exact Rat.ext (by omega) hden

end Symbolic
