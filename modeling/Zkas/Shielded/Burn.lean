import Zkas.Lib.Symbolic
import Zkas.Shielded.Turnstile

/-!
# Exit receipts and the burn accumulator

Model of `shielded-core/src/burn.rs`. SHA-256 and BLAKE2b come from other crates, so they are the
functions of a `HashFns` record; the 32-byte values they return are the type `H`. The accumulator
keeps the receipts and their leaf hashes, and its root pads the tree to the next power of two with
empty subtrees. -/

namespace Zkas

open Framing Preimage

/-- The hash functions the crates `blake2b_simd` and `sha2` supply, with 32-byte values `H`. -/
structure HashFns (H : Type) where
  /-- BLAKE2b with 32-byte output under a personalization string. -/
  blake2b : String → Preimage H → H
  /-- SHA-256. -/
  sha256 : Preimage H → H
  /-- The value whose 32 bytes are all zero. -/
  zero : H

/-- Symbolic hash functions, for concrete instances of results that assume injective hashes. -/
def HashFns.symbolic : HashFns Symbolic.Term where
  blake2b personal p := Symbolic.hash personal p
  sha256 p := Symbolic.hash "sha256" p
  zero := .atom 0

/-- The master switch of the bridge. -/
def BRIDGE_ENABLED : Bool := false

/-- Domain byte for exit-receipt leaves. -/
def LEAF_DOMAIN : UInt8 := 0x00

/-- Domain byte for interior nodes. -/
def NODE_DOMAIN : UInt8 := 0x01

/-- A peg-out authorised by a burn: `v` sompi left the pool, claimable by `recipient`. -/
structure ExitReceipt (H : Type) where
  /-- Amount burned, in sompi. -/
  v : U64
  /-- The public key the mirrored value pays out to. -/
  recipient : H
  /-- Exit nullifier of the burned note. -/
  n : H
  deriving DecidableEq

variable {H : Type} (hf : HashFns H)

/-- Leaf hash of a receipt. -/
def ExitReceipt.leafHash (r : ExitReceipt H) : H :=
  hf.sha256 (bytes [LEAF_DOMAIN] ++ Preimage.word r.v ++ digest r.recipient ++
    digest r.n)

/-- Interior node hash. -/
def nodeHash (left right : H) : H := hf.sha256 (bytes [NODE_DOMAIN] ++ digest left ++ digest right)

/-- Append-only Merkle accumulator over exit receipts. -/
structure BurnAccumulator (H : Type) where
  /-- The leaf hashes, in order. -/
  leaves : List H
  /-- The receipts, in order. -/
  receipts : List (ExitReceipt H)
  deriving DecidableEq

namespace BurnAccumulator

/-- An empty accumulator. -/
def new : BurnAccumulator H := { leaves := [], receipts := [] }

variable (acc : BurnAccumulator H)

/-- Append a receipt. -/
def push (receipt : ExitReceipt H) : BurnAccumulator H :=
  { leaves := acc.leaves ++ [receipt.leafHash hf], receipts := acc.receipts ++ [receipt] }

/-- Append a list of receipts in order. -/
def pushAll (receipts : List (ExitReceipt H)) : BurnAccumulator H := receipts.foldl (push hf) acc

/-- Rebuild from a persisted receipt sequence. -/
def fromReceipts (receipts : List (ExitReceipt H)) : BurnAccumulator H := pushAll hf new receipts

/-- Hash adjacent nodes pairwise, as `chunks_exact(2)` does. -/
def pairUp : List H → List H
  | a :: b :: rest => nodeHash hf a b :: pairUp rest
  | _ => []

/-- The loop of `root`: `fuel` levels from `level`, padding an odd level with `empty`. -/
def fold : ℕ → List H → H → List H
  | 0, level, _ => level
  | fuel + 1, level, empty =>
    let padded := if level.length % 2 = 1 then level ++ [empty] else level
    fold fuel (pairUp hf padded) (nodeHash hf empty empty)

/-- Tree depth: `ceil(log2(len))`, and 0 for an empty or single-leaf tree. -/
def depth : ℕ := if acc.leaves.length ≤ 1 then 0 else Nat.log2 (acc.leaves.length - 1) + 1

/-- The accumulator root; an empty accumulator has the all-zero root. -/
def root : H :=
  if acc.leaves.isEmpty then hf.zero
  else (fold hf acc.depth acc.leaves hf.zero).headD hf.zero

variable (rs : List (ExitReceipt H))

theorem pushAll_eq : acc.pushAll hf rs =
      { leaves := acc.leaves ++ rs.map (ExitReceipt.leafHash hf),
        receipts := acc.receipts ++ rs } := by
  unfold pushAll
  induction rs generalizing acc with
  | nil => simp
  | cons r rs ih => rw [List.foldl_cons, ih]; simp [push]

@[simp] theorem receipts_pushAll :
    (acc.pushAll hf rs).receipts = acc.receipts ++ rs := by rw [pushAll_eq]

@[simp] theorem receipts_fromReceipts :
    (fromReceipts hf rs).receipts = rs := receipts_pushAll hf new rs

end BurnAccumulator

end Zkas
