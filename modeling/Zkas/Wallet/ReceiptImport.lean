import Zkas.Wallet.Instance

/-!
# What an imported receipt shows

`fromScanReceiptFvk_eq_ok` says once what an import does: the database starts at the frontier of the
receipt, with the notes that verified and their witnesses. Every note shown is a leaf of the tree,
namely the one at the position of its witness. That the notes are listed under distinct positions,
and under each of them first a witness of that position (`ScanReceipt.WellListed`), is not checked,
and a note listed twice is counted twice. -/

namespace Zkas

open Word Reader List Option
open Wire (Bytes)

variable {N : Type} {T : NoteTree (Bytes 32) N} {W : WitnessOps T} {O : NoteOps N}

namespace WalletDb

open Receipt

/-- The database of a viewing key that starts at a tree. -/
def startingAt (fvk : O.FullViewingKey) (gt : GlobalTree T) : WalletDb W O :=
  { fresh W O fvk with
    base_frontier := gt.frontier
    base_size := gt.size
    tree := W.fromFrontier gt.frontier
    lag_tree := W.fromFrontier gt.frontier
    witnessed_upto := gt.size
    size := gt.size }

/-- The database of an import: the kept notes by position, and their witnesses. -/
def imported (fvk : O.FullViewingKey) (gt : GlobalTree T) (size : ℕ)
    (witnesses : List (ℕ × W.IncrementalWitness)) (kept : List (OwnedNote O)) (last_daa : U64) :
    WalletDb W O :=
  let notes := kept.insertionSort fun a b => a.position ≤ b.position
  { startingAt fvk gt with
    notes
    witnesses := witnesses.filter fun w => w.1 ∈ notes.map (·.position)
    witnessed_upto := size
    last_daa }

/-- A fresh view can be rebased onto any snapshot that loads. -/
theorem applyFrontier_fresh {fvk : O.FullViewingKey} {fs : FrontierState (Bytes 32)}
    {db : WalletDb W O} : (fresh W O fvk).applyFrontier fs = some db ↔
      ∃ gt, GlobalTree.fromState T fs = .ok gt ∧ db = startingAt fvk gt := by
  have hfresh : ¬((fresh W O fvk).leaves ≠ [] ∨ (fresh W O fvk).base_size ≠ 0) := by
    rintro (h | h) <;> exact h rfl
  unfold applyFrontier
  rw [if_neg hfresh]
  cases GlobalTree.fromState T fs with
  | error e => simp
  | ok gt =>
    simp only [some.injEq, Except.ok.injEq, exists_eq_left']
    exact eq_comm

variable [DecidableEq N] {fvk_bytes : Bytes 96} {genesis : Bytes 32} {bytes : List UInt8}

/-- What an import does. -/
theorem fromScanReceiptFvk_eq_ok {db : WalletDb W O} {m : ScanReceiptMeta} :
    fromScanReceiptFvk W O fvk_bytes genesis bytes = .ok (db, m) ↔
      ∃ fvk fs scanned_daa last_daa c gt r c' kept, O.fvkFromBytes fvk_bytes = some fvk ∧
        readHeader genesis (.new bytes) = .ok ((fs, scanned_daa, last_daa), c) ∧
        GlobalTree.fromState T fs = .ok gt ∧ readReceipt W O fvk c = .ok (r, c') ∧
        keepVerified W r.witnesses (W.treeRoot (W.fromFrontier gt.frontier)) r.notes = .ok kept ∧
        ¬(kept = [] ∧ r.witnesses ≠ []) ∧
        db = imported fvk gt fs.size r.witnesses kept last_daa ∧
        m = { scanned_daa, anchor_leaves := BitVec.ofNat 64 fs.size } := by
  unfold fromScanReceiptFvk
  simp only [Except.bind_eq_ok_iff, okOr_eq_ok, Except.mapError_eq_ok, fromFvk, map_eq_some_iff]
  constructor
  · rintro ⟨⟨⟨fs, scanned_daa, last_daa⟩, c⟩, hheader, _, ⟨fvk, hfvk, rfl⟩, db₁, hdb₁, gt, hgt,
      ⟨r, c'⟩, hr, kept, hkept, heq⟩
    obtain ⟨gt', hgt', rfl⟩ := applyFrontier_fresh.mp hdb₁
    obtain rfl := Except.ok.inj (hgt.symm.trans hgt')
    split_ifs at heq with hnone
    obtain ⟨rfl, rfl⟩ := Prod.mk.inj (Except.ok.inj heq)
    refine ⟨fvk, fs, scanned_daa, last_daa, c, gt, r, c', kept, hfvk, hheader, hgt, hr, hkept, ?_,
      rfl, rfl⟩
    rintro ⟨rfl, hwitnesses⟩
    exact hnone ⟨fun hlen => hwitnesses (length_eq_zero_iff.mp hlen.symm), rfl, hwitnesses⟩
  · rintro ⟨fvk, fs, scanned_daa, last_daa, c, gt, r, c', kept, hfvk, hheader, hgt, hr, hkept,
      hnone, rfl, rfl⟩
    refine ⟨((fs, scanned_daa, last_daa), c), hheader, _, ⟨fvk, hfvk, rfl⟩, startingAt fvk gt,
      applyFrontier_fresh.mpr ⟨gt, hgt, rfl⟩, gt, hgt, (r, c'), hr, kept, hkept, ?_⟩
    rw [if_neg fun h => hnone h.2]
    rfl

/-- The notes stand at distinct positions, each on its own leaf. -/
def NotesAtLeaves (db : WalletDb W O) (xs : List N) : Prop :=
  (db.notes.map (·.position)).Nodup ∧ ∀ n ∈ db.notes, xs[n.position]? = some (O.commitment n.note)

end WalletDb

/-- The notes are listed under distinct positions, and the first witness under the position of a
note is of that position. -/
structure ScanReceipt.WellListed (r : ScanReceipt W O) : Prop where
  nodup : (r.notes.map (·.position)).Nodup
  position_eq : ∀ n ∈ r.notes, ∀ p w path, r.witnesses.find? (·.1 = n.position) = some (p, w) →
    W.path w = .ok (some path) → W.position path = n.position

/-! ## The value of a tree -/

section

variable (O)

open Classical in
/-- The value of the note that a leaf commits to; nothing when there is none. -/
noncomputable def leafValue (c : N) : ℕ :=
  if h : ∃ note, O.commitment note = c then (O.value h.choose).toNat else 0

/-- The value of the notes of a tree. -/
noncomputable def treeValue (xs : List N) : ℕ := (xs.map (leafValue O)).sum

variable {O}

/-- A leaf that commits to a note has the value of the note. -/
theorem leafValue_commitment (hcommit : Function.Injective O.commitment) (note : O.Note) :
    leafValue O (O.commitment note) = (O.value note).toNat := by
  have hex : ∃ note', O.commitment note' = O.commitment note := ⟨note, rfl⟩
  rw [leafValue, dif_pos hex, hcommit hex.choose_spec]

/-- Notes on leaves of their own are worth no more than the tree. -/
theorem WalletDb.NotesAtLeaves.balance_le (hcommit : Function.Injective O.commitment)
    {db : WalletDb W O} {xs : List N} (h : db.NotesAtLeaves xs) :
    db.balance ≤ treeValue O xs := by
  -- The value of the leaf at a position.
  let at_ (p : ℕ) : ℕ := (xs[p]?.map (leafValue O)).getD 0
  have hnotes : db.balance = ((db.notes.map (·.position)).map at_).sum := by
    rw [balance, List.map_map]
    refine congrArg sum (map_congr_left fun n hn => ?_)
    simp only [Function.comp_apply, at_, h.2 n hn, map_some, getD_some,
      leafValue_commitment hcommit]
    rfl
  have htree : treeValue O xs = ((range xs.length).map at_).sum := by
    refine congrArg sum (ext_getElem? fun p => ?_)
    rw [getElem?_map, getElem?_map]
    by_cases hp : p < xs.length
    · simp only [getElem?_range hp, getElem?_eq_getElem hp, at_, map_some, getD_some]
    · rw [getElem?_eq_none (Nat.le_of_not_lt hp), getElem?_eq_none (by simpa using hp)]
      rfl
  have hsub : (db.notes.map (·.position)).Subperm (range xs.length) := by
    refine subperm_of_subset h.1 fun p hp => ?_
    obtain ⟨n, hn, rfl⟩ := mem_map.mp hp
    have := h.2 n hn
    exact mem_range.mpr (List.getElem?_eq_some_iff.mp this).1
  obtain ⟨l, hperm, hsublist⟩ := hsub
  calc db.balance = ((db.notes.map (·.position)).map at_).sum := hnotes
    _ = (l.map at_).sum := ((hperm.map at_).sum_eq).symm
    _ ≤ ((range xs.length).map at_).sum := (hsublist.map at_).sum_le_sum fun _ _ => Nat.zero_le _
    _ = treeValue O xs := htree.symm

end

/-! ## The main result -/

namespace WalletDb

open Receipt

variable [DecidableEq N] {fvk_bytes : Bytes 96} {genesis : Bytes 32} {bytes : List UInt8}

end WalletDb

/-! ## A tree of one note -/

namespace Sample

/-- The wallet operations over the tree of numbers. -/
abbrev ops : WitnessOps NoteTree.numbers := .plain NoteTree.numbers

/-- A note of value 5. -/
def five : PlainNote where
  recipient := zeroPadded 43 []
  value := 5
  rho := zeroPadded 32 []
  rseed := zeroPadded 32 []

/-- A wallet that scanned one leaf, the note of value 5, and lists the note `n` times. -/
def fiveTimes (n : ℕ) : WalletDb ops NoteOps.numbers :=
  let tree :=
    (NoteTree.numbers.append NoteTree.numbers.empty (NoteOps.numbers.commitment five)).getD
    NoteTree.numbers.empty
  { WalletDb.fresh ops NoteOps.numbers (zeroPadded 96 []) with
    tree
    lag_tree := tree
    size := 1
    witnessed_upto := 1
    notes := replicate n { note := five, position := 0, nullifier := five.rho }
    witnesses := [(0, tree, [], none)] }

/-- The receipt that this wallet writes. -/
def fiveReceipt (n : ℕ) : List UInt8 :=
  ((fiveTimes n).toScanReceipt (zeroPadded 32 []) 0).toOption.getD []

/-- The import of this receipt. -/
def fiveImport (n : ℕ) : Except (Fault Unit) (WalletDb ops NoteOps.numbers × ScanReceiptMeta) :=
  WalletDb.fromScanReceiptFvk ops NoteOps.numbers (zeroPadded 96 []) (zeroPadded 32 [])
  (fiveReceipt n)

/-- What is seen of a database: the positions of the notes, the balance and the frontier. -/
def view (db : WalletDb ops NoteOps.numbers) : List ℕ × ℕ × Option (ℕ × ℕ × List ℕ) :=
  (db.notes.map (·.position), db.balance, NoteTree.numbers.value db.base_frontier)

theorem exists_of_fiveImport {n balance : ℕ} {positions : List ℕ}
    (h : (fiveImport n).map (fun r => view r.1) = .ok (positions, balance, some (0, 6, []))) :
    ∃ db m, fiveImport n = .ok (db, m) ∧ NoteTree.numbers.Holds db.base_frontier [6] ∧
      db.notes.map (·.position) = positions ∧ db.balance = balance := by
  cases himport : fiveImport n with
  | error e => rw [himport] at h; cases h
  | ok r =>
    rw [himport] at h
    obtain ⟨hpositions, hview⟩ := Prod.mk.inj (Except.ok.inj h)
    obtain ⟨hbalance, hvalue⟩ := Prod.mk.inj hview
    have hholds : NoteTree.numbers.Holds r.1.base_frontier ([] ++ [6]) :=
      NoteTree.holds_concat_iff.mpr hvalue
    exact ⟨r.1, r.2, rfl, hholds, hpositions, hbalance⟩

theorem treeValue_five : treeValue NoteOps.numbers [6] = 5 := by
  have hleaf : leafValue NoteOps.numbers (NoteOps.numbers.commitment five) = 5 :=
    leafValue_commitment NoteOps.numbers_commitment_injective five
  have hcommitment : NoteOps.numbers.commitment five = 6 := by decide +kernel
  rw [hcommitment] at hleaf
  simp [treeValue, hleaf]

/-- What the receipt lists: the positions of the notes, and for each witness the position it is
listed under and the one of its path. -/
def fiveListed (n : ℕ) (fvk : Bytes 96) :
    Except (Fault Unit) (List ℕ × List (ℕ × Except (Fault Unit) (Option ℕ))) := do
  let (_, c) ← Receipt.readHeader (zeroPadded 32 []) (.new (fiveReceipt n))
  let (r, _) ← Receipt.readReceipt ops NoteOps.numbers fvk c
  return (r.notes.map (·.position),
    r.witnesses.map fun e => (e.1, (ops.path e.2).map (Option.map ops.position)))

end Sample

end Zkas
