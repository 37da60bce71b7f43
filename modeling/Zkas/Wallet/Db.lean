import Zkas.Shielded.Wire
import Zkas.Shielded.Witness

/-!
# The wallet database

Model of `shielded-core/src/walletdb.rs`: a wallet's view of the commitment stream, its notes and
the membership witnesses it keeps. A database holds the leaves from `base_size` on; what lies before
them is summarised by `base_frontier`. The mirror `tree` follows the tip, `lag_tree` and the
witnesses follow `witnessed_upto`. Notes and viewing keys come from the crate `orchard`; they are
the operations of a `NoteOps` record.

The fields that scan receipts do not read are left out. Positions and leaf counts are natural
numbers, since a tree has at most `2^32` leaves. -/

namespace Zkas

open Word
open Wire (Bytes)

variable {N : Type}

/-- The note and key operations of the crate `orchard`, over commitments that are tree nodes `N`. -/
structure NoteOps (N : Type) where
  Address : Type
  Rho : Type
  RandomSeed : Type
  Note : Type
  FullViewingKey : Type
  /-- `Address::from_raw_address_bytes`. -/
  addressFromBytes : Bytes 43 → Option Address
  /-- `Rho::from_bytes`. -/
  rhoFromBytes : Bytes 32 → Option Rho
  /-- `RandomSeed::from_bytes`, which depends on the rho. -/
  rseedFromBytes : Bytes 32 → Rho → Option RandomSeed
  /-- `Note::from_parts`, for notes of version 2. -/
  noteFromParts : Address → U64 → Rho → RandomSeed → Option Note
  /-- The raw bytes of a note's recipient. -/
  recipient : Note → Bytes 43
  value : Note → U64
  rho : Note → Bytes 32
  rseed : Note → Bytes 32
  /-- The extracted commitment of a note, as a leaf of the tree. -/
  commitment : Note → N
  /-- `FullViewingKey::from_bytes`. -/
  fvkFromBytes : Bytes 96 → Option FullViewingKey
  /-- `Note::nullifier`. -/
  nullifier : FullViewingKey → Note → Bytes 32

/-- A note from the bytes of its parts. -/
def NoteOps.noteFromBytes (O : NoteOps N) (recipient : Bytes 43) (value : U64)
    (rho rseed : Bytes 32) : Option O.Note := do
  let rho ← O.rhoFromBytes rho
  let rseed ← O.rseedFromBytes rseed rho
  let addr ← O.addressFromBytes recipient
  O.noteFromParts addr value rho rseed

/-- A note the wallet owns. -/
structure OwnedNote (O : NoteOps N) where
  note : O.Note
  /-- The leaf position of the note. -/
  position : ℕ
  nullifier : Bytes 32

/-- The value of an owned note. -/
def OwnedNote.value {O : NoteOps N} (n : OwnedNote O) : U64 := O.value n.note

/-- A wallet's view of the note-commitment tree. -/
structure WalletDb {T : NoteTree (Bytes 32) N} (W : WitnessOps T) (O : NoteOps N) where
  fvk : O.FullViewingKey
  /-- The tree at the tip. -/
  tree : W.CommitmentTree
  /-- The frontier that the stored leaves start from. -/
  base_frontier : T.Frontier
  /-- The position of the first stored leaf. -/
  base_size : ℕ
  /-- The leaves from `base_size` on. -/
  leaves : List (Bytes 32)
  /-- Owned, unspent notes. -/
  notes : List (OwnedNote O)
  /-- The number of leaves ingested, which is the next leaf's position. -/
  size : ℕ
  /-- Live witnesses, at `witnessed_upto` leaves. -/
  witnesses : List (ℕ × W.IncrementalWitness)
  /-- The tree at `witnessed_upto` leaves. -/
  lag_tree : W.CommitmentTree
  witnessed_upto : ℕ
  /-- The score of the newest dated block. -/
  last_daa : U64

namespace WalletDb

variable {T : NoteTree (Bytes 32) N} (W : WitnessOps T) (O : NoteOps N)

/-- The view of a viewing key that has seen nothing. -/
def fresh (fvk : O.FullViewingKey) : WalletDb W O where
  fvk
  tree := W.empty
  base_frontier := T.empty
  base_size := 0
  leaves := []
  notes := []
  size := 0
  witnesses := []
  lag_tree := W.empty
  witnessed_upto := 0
  last_daa := 0

/-- A watch-only wallet view from a serialized viewing key. -/
def fromFvk (fvk_bytes : Bytes 96) : Option (WalletDb W O) :=
  (O.fvkFromBytes fvk_bytes).map (fresh W O)

variable {W O}

/-- Rebase a view without leaves onto a checkpoint. -/
def applyFrontier (db : WalletDb W O) (checkpoint : FrontierState (Bytes 32)) :
    Option (WalletDb W O) :=
  if db.leaves ≠ [] ∨ db.base_size ≠ 0 then none
  else
    match GlobalTree.fromState T checkpoint with
    | .error _ => none
    | .ok gt => some { db with
        base_frontier := gt.frontier
        base_size := gt.size
        tree := W.fromFrontier gt.frontier
        lag_tree := W.fromFrontier gt.frontier
        witnessed_upto := gt.size
        witnesses := []
        size := gt.size }

/-- Total spendable value. -/
def balance (db : WalletDb W O) : ℕ := (db.notes.map (·.value.toNat)).sum

end WalletDb

end Zkas
