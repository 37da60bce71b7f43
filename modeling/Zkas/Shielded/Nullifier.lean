import Zkas.Lib.Checked

/-!
# Nullifier conflict resolution

Model of `shielded-core/src/nullifier.rs`. Transactions are offered in accepted order;
`NullifierConflictResolver.tryAccept` takes a transaction whole or not at all (`tryAccept_spec`).
Nullifiers are the 32-byte values of the type `H`, and the finalized set is read through its
`contains` only, as through the trait `NullifierSet`. -/

namespace Zkas

open List

variable {H : Type} [DecidableEq H]

/-- Why a transaction was rejected during conflict resolution. -/
inductive NullifierConflict (H : Type) where
  /-- The nullifier is finalized, or was accepted earlier in this batch. -/
  | AlreadySpent (nf : H)
  /-- The nullifier appears twice within the transaction. -/
  | DuplicateWithinTx (nf : H)
  deriving DecidableEq, Repr

/-- The resolver over a finalized set: what was accepted in this batch, as a set and in order. -/
structure NullifierConflictResolver (H : Type) where
  /-- Membership in the finalized set. -/
  finalized : H → Bool
  /-- The nullifiers accepted in this batch. -/
  seen : Finset H
  /-- The same nullifiers, in acceptance order. -/
  accepted : List H

namespace NullifierConflictResolver

/-- Begin resolution against the given finalized set. -/
def new (finalized : H → Bool) : NullifierConflictResolver H :=
  { finalized, seen := ∅, accepted := [] }

/-- Whether `nf` would conflict if a transaction tried to spend it now. -/
def conflicts (r : NullifierConflictResolver H) (nf : H) : Bool := r.finalized nf || nf ∈ r.seen

/-- The first loop of `try_accept`: `within_tx` holds the nullifiers of the transaction met so far.
-/
def scan (r : NullifierConflictResolver H) (within_tx : Finset H) :
    List H → Except (NullifierConflict H) Unit
  | [] => .ok ()
  | nf :: nfs =>
    if nf ∈ within_tx then .error (.DuplicateWithinTx nf)
    else if r.conflicts nf then .error (.AlreadySpent nf)
    else r.scan (insert nf within_tx) nfs

/-- The second loop of `try_accept`: record every nullifier. -/
def record (r : NullifierConflictResolver H) (nfs : List H) : NullifierConflictResolver H :=
  nfs.foldl (fun r nf => { r with seen := insert nf r.seen, accepted := r.accepted ++ [nf] }) r

/-- Accept a transaction by its nullifiers, or reject it and record nothing. -/
def tryAccept (r : NullifierConflictResolver H) (nfs : List H) :
    Except (NullifierConflict H) (NullifierConflictResolver H) := do
  r.scan ∅ nfs
  return r.record nfs

theorem scan_eq_ok (r : NullifierConflictResolver H) (within_tx : Finset H) (nfs : List H) :
    r.scan within_tx nfs = .ok () ↔
      nfs.Nodup ∧ ∀ nf ∈ nfs, nf ∉ within_tx ∧ r.conflicts nf = false := by
  induction nfs generalizing within_tx with
  | nil => simp [scan]
  | cons nf nfs ih =>
    unfold scan
    split_ifs with hdup hspent
    · simp [hdup]
    · simp [hspent]
    · rw [ih, nodup_cons, forall_mem_cons]
      constructor
      · rintro ⟨hnd, hall⟩
        refine ⟨⟨fun hmem => ?_, hnd⟩, ⟨hdup, by simpa using hspent⟩, fun x hx => ?_⟩
        · exact (hall nf hmem).1 (Finset.mem_insert_self _ _)
        · exact ⟨fun h => (hall x hx).1 (Finset.mem_insert_of_mem h), (hall x hx).2⟩
      · rintro ⟨⟨hnmem, hnd⟩, -, hall⟩
        refine ⟨hnd, fun x hx => ⟨fun h => ?_, (hall x hx).2⟩⟩
        rcases Finset.mem_insert.mp h with rfl | h
        · exact hnmem hx
        · exact (hall x hx).1 h

theorem record_eq (r : NullifierConflictResolver H) (nfs : List H) :
    r.record nfs = { r with seen := r.seen ∪ nfs.toFinset, accepted := r.accepted ++ nfs } := by
  unfold record
  induction nfs generalizing r with
  | nil => simp
  | cons nf nfs ih =>
    rw [foldl_cons, ih]
    congr 1
    · rw [toFinset_cons, Finset.insert_union, Finset.union_insert]
    · rw [append_assoc, singleton_append]

variable {r r' : NullifierConflictResolver H}

/-- `try_accept` accepts exactly a transaction whose nullifiers are distinct and unspent, and then
records exactly them. -/
theorem tryAccept_spec {nfs : List H} :
    r.tryAccept nfs = .ok r' ↔ (nfs.Nodup ∧ ∀ nf ∈ nfs, r.conflicts nf = false) ∧
        r' = { r with seen := r.seen ∪ nfs.toFinset, accepted := r.accepted ++ nfs } := by
  unfold tryAccept
  rw [Except.bind_eq_ok_iff]
  constructor
  · rintro ⟨⟨⟩, hscan, hret⟩
    obtain ⟨hnd, hall⟩ := (scan_eq_ok r ∅ nfs).mp hscan
    refine ⟨⟨hnd, fun nf hnf => (hall nf hnf).2⟩, ?_⟩
    rw [← record_eq]
    exact (Except.ok.inj hret).symm
  · rintro ⟨⟨hnd, hall⟩, rfl⟩
    refine ⟨(), (scan_eq_ok r ∅ nfs).mpr ⟨hnd, fun nf hnf => ⟨by simp, hall nf hnf⟩⟩, ?_⟩
    rw [record_eq]
    rfl

/-- The resolver's two records agree, its nullifiers are distinct, and none was finalized. -/
structure Consistent (r : NullifierConflictResolver H) : Prop where
  /-- The set holds exactly the listed nullifiers. -/
  seen_eq : r.seen = r.accepted.toFinset
  /-- No nullifier was accepted twice. -/
  nodup : r.accepted.Nodup
  /-- No accepted nullifier was finalized. -/
  fresh : ∀ nf ∈ r.accepted, r.finalized nf = false

theorem new_consistent (finalized : H → Bool) : (new finalized).Consistent :=
  ⟨rfl, nodup_nil, fun _ h => absurd h not_mem_nil⟩

/-- Accepting a transaction keeps the resolver consistent. -/
theorem Consistent.tryAccept {nfs : List H}
    (hr : r.Consistent) (h : r.tryAccept nfs = .ok r') : r'.Consistent := by
  obtain ⟨⟨hnd, hall⟩, rfl⟩ := tryAccept_spec.mp h
  have hfree : ∀ nf ∈ nfs, r.finalized nf = false ∧ nf ∉ r.seen := fun nf hnf => by
    simpa [conflicts] using hall nf hnf
  refine ⟨?_, ?_, ?_⟩
  · rw [hr.seen_eq, toFinset_append]
  · refine List.Nodup.append hr.nodup hnd fun x hx hx' => ?_
    exact (hfree x hx').2 (by rw [hr.seen_eq]; exact mem_toFinset.mpr hx)
  · intro nf hnf
    rcases mem_append.mp hnf with h | h
    · exact hr.fresh nf h
    · exact (hfree nf h).1

end NullifierConflictResolver

end Zkas
