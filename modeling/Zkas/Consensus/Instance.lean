import Zkas.Consensus.Manager
import Zkas.Lib.PrimeHash
import Zkas.Shielded.TreeInstance

/-!
# An instance of the external functions

The results assume documented behaviour of the functions other crates supply: a note tree that meets
`NoteTree.Spec` with an injective node hash, injective BLAKE2b hashes and a collision-free
accumulator. `Crypto.sample` meets all of this, with symbolic hashes, a note tree over the natural
numbers and an accumulator over the rationals. Runs over it can be evaluated. -/

namespace Zkas

open MountainRange Symbolic

/-- The note tree over natural numbers, with zero as the empty leaf. -/
def NoteTree.natural : NoteTree Term ℕ where
  Frontier := Option (MountainRange.Frontier ℕ TREE_DEPTH)
  toBytes := .atom
  fromBytes
    | .atom n => some n
    | _ => none
  combine _ := pairNat
  emptyLeaf := 0
  emptyTree := 0
  empty := none
  append f leaf := (MountainRange.Frontier.append (fun _ => pairNat) f leaf).map some
  value f := f.map MountainRange.Frontier.parts
  fromParts p l oms := (MountainRange.Frontier.fromParts TREE_DEPTH p l oms).map some
  root f := f.elim 0 (MountainRange.Frontier.root (fun _ => pairNat) 0)

theorem NoteTree.natural_spec : NoteTree.natural.Spec :=
  NoteTree.ofHash_spec (emptyRoot_pairNat TREE_DEPTH).symm (fun _ => rfl) fun {b n} h => by
    cases b <;> cases h
    rfl

theorem NoteTree.natural_combine_injective2 (lvl : ℕ) :
    Function.Injective2 (NoteTree.natural.combine lvl) := pairNat_injective2

/-- The accumulator of symbolic terms over the rationals. -/
noncomputable def MuHashFns.rational : MuHashFns Term ℚ where
  data_to_element t := prime t
  finalize_hash := hashRat "MuHashFinalize"

theorem MuHashFns.rational_injective : MuHashFns.rational.Injective where
  finalize := hashRat_injective _
  product := perm_of_prod_prime

/-- External functions that meet every assumption. -/
noncomputable def Crypto.sample : Crypto Term ℕ ℚ where
  hf := .symbolic
  T := .natural
  mf := .rational

end Zkas
