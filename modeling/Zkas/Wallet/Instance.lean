import Zkas.Shielded.TreeInstance
import Zkas.Wallet.Receipt

/-!
# Instances of the wallet's operations

The results about wallets assume documented behaviour of the crates `orchard` and
`incrementalmerkletree`, and injective hashes. Over any note tree, `WitnessOps.plain` has witnesses
that are their parts; it meets `WitnessOps.Spec`. The tree `NoteTree.numbers` over the natural
numbers has an injective node hash, which no tree with 32-byte nodes can have, and `NoteOps.numbers`
has notes that are their parts. Runs over them can be evaluated. -/

namespace Zkas

open Word Framing Reader MountainRange MerkleTree
open Wire (Bytes)

/-- A note that is its parts. -/
structure PlainNote where
  recipient : Bytes 43
  value : U64
  rho : Bytes 32
  rseed : Bytes 32
  deriving DecidableEq

/-- The parts of a note in a row. -/
def PlainNote.bytes (n : PlainNote) : List UInt8 :=
  wordBytes n.value ++ (n.rho.toList ++ (n.rseed.toList ++ n.recipient.toList))

theorem PlainNote.bytes_injective : Function.Injective PlainNote.bytes := by
  intro a b h
  obtain ⟨hvalue, h⟩ := List.append_inj h (by rw [length_wordBytes, length_wordBytes])
  obtain ⟨hrho, h⟩ := List.append_inj h (by rw [a.rho.toList_length, b.rho.toList_length])
  obtain ⟨hrseed, hrecipient⟩ :=
    List.append_inj h (by rw [a.rseed.toList_length, b.rseed.toList_length])
  obtain ⟨ra, va, oa, sa⟩ := a
  obtain ⟨rb, vb, ob, sb⟩ := b
  obtain rfl := wordBytes_inj (by decide) hvalue
  obtain rfl : oa = ob := Subtype.ext hrho
  obtain rfl : sa = sb := Subtype.ext hrseed
  obtain rfl : ra = rb := Subtype.ext hrecipient
  rfl

/-- Bytes with zeros behind them, up to a length. -/
def zeroPadded (n : ℕ) (bs : List UInt8) : Bytes n := ⟨(bs ++ List.replicate n 0).take n, by simp⟩

section

variable {H N : Type} (T : NoteTree H N)

/-- Witnesses that are their parts. One with a cursor has no path. -/
def WitnessOps.plain : WitnessOps T where
  CommitmentTree := T.Frontier
  IncrementalWitness := T.Frontier × List N × Option T.Frontier
  MerklePath := ℕ × List N
  empty := T.empty
  fromFrontier := id
  toFrontier := id
  treeRoot f := (T.value f).elim (emptyRoot T.combine T.emptyLeaf TREE_DEPTH) fun _ => T.root f
  fromParts tree filled cursor := .ok (tree, filled, cursor)
  tree w := w.1
  filled w := w.2.1
  cursor w := w.2.2
  path w := .ok <|
    match T.value w.1, w.2.2 with
    | some (p, _, oms), none =>
      (authPath T.combine T.emptyLeaf TREE_DEPTH 0 p oms w.2.1).map fun elems => (p, elems)
    | _, _ => none
  position := Prod.fst
  path_elems := Prod.snd
  root path leaf := foldPath T.combine 0 path.1 leaf path.2

variable {T}

theorem WitnessOps.path_plain {w : (plain T).IncrementalWitness} {path : (plain T).MerklePath}
    (h : (plain T).path w = .ok (some path)) : ∃ leaf oms, T.value w.1 = some (path.1, leaf, oms) ∧
      authPath T.combine T.emptyLeaf TREE_DEPTH 0 path.1 oms w.2.1 = some path.2 := by
  have hpath := Except.ok.inj h
  split at hpath
  · obtain ⟨elems, helems, rfl⟩ := Option.map_eq_some_iff.mp hpath
    exact ⟨_, _, by assumption, helems⟩
  · cases hpath

theorem WitnessOps.plain_spec (hT : T.FrontierSpec) : (plain T).Spec where
  treeRoot_empty {f} h := congrArg (Option.elim · _ _) h
  treeRoot_some {f v} h := congrArg (Option.elim · _ _) h
  length_path_elems {w path} h := by
    obtain ⟨_, _, -, helems⟩ := path_plain h
    exact length_of_authPath helems
  position_lt {w path} h := by
    obtain ⟨_, _, hvalue, -⟩ := path_plain h
    exact (hT.value_wf hvalue).1
  root_eq _ _ := rfl

end

/-! ## A tree with an injective node hash -/

/-- The note tree over natural numbers. Only small numbers have their own encoding. -/
def NoteTree.numbers : NoteTree (Bytes 32) ℕ :=
  .ofHash (fun n => ⟨leBytes 32 n, length_leBytes 32 n⟩) (fun b => some (natOfBytes b.toList))
    (fun _ => pairNat) 0 0

theorem NoteTree.numbers_frontierSpec : NoteTree.numbers.FrontierSpec :=
  NoteTree.ofHash_frontierSpec (emptyRoot_pairNat TREE_DEPTH).symm

theorem NoteTree.numbers_injective2 (l : ℕ) : Function.Injective2 (NoteTree.numbers.combine l) :=
  pairNat_injective2

/-- Plain notes, committed to by numbers other than zero. -/
def NoteOps.numbers : NoteOps ℕ where
  Address := Bytes 43
  Rho := Bytes 32
  RandomSeed := Bytes 32
  Note := PlainNote
  FullViewingKey := Bytes 96
  addressFromBytes := some
  rhoFromBytes := some
  rseedFromBytes rseed _ := some rseed
  noteFromParts recipient value rho rseed := some { recipient, value, rho, rseed }
  recipient := PlainNote.recipient
  value := PlainNote.value
  rho := PlainNote.rho
  rseed := PlainNote.rseed
  commitment note := 1 + natOfBytes note.bytes
  fvkFromBytes := some
  nullifier _ note := note.rho

theorem NoteOps.numbers_commitment_injective : Function.Injective NoteOps.numbers.commitment := by
  intro a b h
  have hnat : natOfBytes (PlainNote.bytes a) = natOfBytes (PlainNote.bytes b) :=
    Nat.add_left_cancel h
  have hlen : (PlainNote.bytes a).length = (PlainNote.bytes b).length := by simp [PlainNote.bytes]
  apply PlainNote.bytes_injective
  rw [← leBytes_natOfBytes (PlainNote.bytes a), ← leBytes_natOfBytes (PlainNote.bytes b),
    hnat, hlen]

theorem NoteOps.numbers_commitment_ne (note : PlainNote) :
    NoteOps.numbers.commitment note ≠ NoteTree.numbers.emptyLeaf := by
  change 1 + natOfBytes note.bytes ≠ 0
  omega

end Zkas
