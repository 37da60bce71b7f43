import Zkas.Wallet.Db

/-!
# Scan receipts

Model of `WalletDb::to_scan_receipt` and `WalletDb::from_scan_receipt_fvk` of
`shielded-core/src/walletdb.rs`. A receipt carries the notes of a scan, a witness for each, and the
frontier that the witnesses lead to. The importer keeps a note when the first witness listed under
its position leads from its commitment to the root of that frontier. That pins down the leaf at the
position of the *witness*, and nothing ties it to the one listed with the note. -/

namespace Zkas

open Word Framing Reader Except
open Wire (Bytes)

variable {N : Type}

/-- The first bytes of a receipt, `ZKRC`. -/
def RECEIPT_MAGIC : Bytes 4 := ⟨[0x5a, 0x4b, 0x52, 0x43], rfl⟩

/-- The version of the format. -/
def RECEIPT_VERSION : UInt8 := 1

/-- The number of notes a receipt may carry. -/
def RECEIPT_MAX_NOTES : ℕ := 4096

/-- What an import reports besides the database. -/
structure ScanReceiptMeta where
  scanned_daa : U64
  anchor_leaves : U64

/-- Why a wallet cannot be exported. -/
inductive ReceiptError where
  | tooManyNotes (notes : ℕ)
  | witnessesBehind (witnessed_upto size : ℕ)
  | unwitnessed (unwitnessed notes : ℕ)
  | nothingWitnessed
  deriving DecidableEq, Repr

/-- The text of an error. -/
def ReceiptError.message : ReceiptError → String
  | tooManyNotes notes =>
    s!"holds {notes} notes, more than a receipt carries ({RECEIPT_MAX_NOTES})"
  | witnessesBehind upto size =>
    let behind := size - upto
    s!"witnesses are at leaf {upto} but the wallet has scanned to {size} ({behind} behind); " ++
      "retry once they catch up"
  | unwitnessed count notes =>
    s!"{count} of {notes} notes have no live witness, and the importer has no leaf stream " ++
      "to rebuild one from"
  | nothingWitnessed => "this wallet has witnessed nothing yet"

namespace Receipt

/-! ## Writers -/

/-- A count or a position as a word. -/
def u64Bytes (n : ℕ) : List UInt8 := wordBytes (BitVec.ofNat 64 n)

section

variable (T : NoteTree (Bytes 32) N)

/-- The bytes of a node. -/
def nodeBytes (n : N) : List UInt8 := (T.toBytes n).toList

/-- `write_frontier`. -/
def writeFrontier (f : T.Frontier) : List UInt8 :=
  match T.value f with
  | none => [0]
  | some (_, leaf, ommers) =>
    [1] ++ (nodeBytes T leaf ++ (u64Bytes ommers.length ++ ommers.flatMap (nodeBytes T)))

variable {T} (W : WitnessOps T)

/-- `write_tree`: the number of leaves, then the frontier. -/
def writeTree (tree : W.CommitmentTree) : List UInt8 :=
  let f := W.toFrontier tree
  u64Bytes ((T.value f).elim 0 (·.1 + 1)) ++ writeFrontier T f

/-- `write_witness`. -/
def writeWitness (w : W.IncrementalWitness) : List UInt8 :=
  writeTree W (W.tree w) ++ ((u64Bytes (W.filled w).length ++ (W.filled w).flatMap (nodeBytes T)) ++
      match W.cursor w with
      | some c => [1] ++ writeTree W c
      | none => [0])

end

/-- A note with its position. -/
def writeNote {O : NoteOps N} (n : OwnedNote O) : List UInt8 :=
  u64Bytes n.position ++ ((O.recipient n.note).toList ++ (wordBytes (O.value n.note) ++
    ((O.rho n.note).toList ++ (O.rseed n.note).toList)))

end Receipt

namespace WalletDb

open Receipt

variable {T : NoteTree (Bytes 32) N} {W : WitnessOps T} {O : NoteOps N}

/-- Serialize the private part of a scan. The anchor is that of the lagging tree, which the
witnesses lead to. -/
def toScanReceipt (db : WalletDb W O) (genesis : Bytes 32) (scanned_daa : U64) :
    Except ReceiptError (List UInt8) :=
  let unwitnessed := (db.notes.filter fun n => ∀ w ∈ db.witnesses, w.1 ≠ n.position).length
  if RECEIPT_MAX_NOTES < db.notes.length then .error (.tooManyNotes db.notes.length)
  else if db.witnessed_upto ≠ db.size then .error (.witnessesBehind db.witnessed_upto db.size)
  else if 0 < unwitnessed then .error (.unwitnessed unwitnessed db.notes.length)
  else
    match T.value (W.toFrontier db.lag_tree) with
    | none => .error .nothingWitnessed
    | some (_, leaf, ommers) =>
      .ok (RECEIPT_MAGIC.toList ++ ([RECEIPT_VERSION] ++ (genesis.toList ++
        ((u64Bytes db.witnessed_upto ++ ([1] ++ (nodeBytes T leaf ++
          (u64Bytes ommers.length ++ ommers.flatMap (nodeBytes T))))) ++
        (wordBytes scanned_daa ++ (wordBytes db.last_daa ++
        ((u64Bytes db.notes.length ++ db.notes.flatMap writeNote) ++
        (u64Bytes db.witnesses.length ++
          db.witnesses.flatMap fun (pos, w) => u64Bytes pos ++ writeWitness W w))))))))

end WalletDb

/-- The notes and the witnesses of a receipt. -/
structure ScanReceipt {T : NoteTree (Bytes 32) N} (W : WitnessOps T) (O : NoteOps N) where
  notes : List (OwnedNote O)
  witnesses : List (ℕ × W.IncrementalWitness)

namespace Receipt

/-! ## Readers -/

/-- A reader of receipts; it returns nothing on malformed bytes, and may panic. -/
abbrev Read := Parser (Fault Unit)

/-- Every failed read is the same. -/
def receiptEof : ReadError (Fault Unit) where
  overflow := .err ()
  eof := .err ()

/-- No result. -/
def noResult {α : Type} : Read α := throw (.err ())

/-- A value that may be missing. -/
def ofOption {α : Type} (o : Option α) : Read α := fun c => (o.okOr (.err ())).map fun a => (a, c)

/-- A byte. -/
def readU8 : Read UInt8 := u8 receiptEof

/-- A little-endian word. -/
def readU64 : Read U64 := wordLe receiptEof 64

/-- A fixed number of bytes. -/
def readArr (n : ℕ) : Read (Bytes n) := take receiptEof n

/-- The ommers of a frontier behind their number, which is bounded first. -/
def readOmmers : Read (List (Bytes 32)) := do
  let n_ommers ← readU64
  if TREE_DEPTH < n_ommers.toNat then noResult else many n_ommers.toNat (readArr 32)

section

variable (T : NoteTree (Bytes 32) N)

/-- `read_frontier`, for a given number of leaves. A tag of zero is the empty frontier, whatever the
number. -/
def readFrontier (size : U64) : Read T.Frontier := do
  let tag ← readU8
  if tag = 0 then return T.empty
  else if tag = 1 then
    let leaf ← readArr 32
    let ommers ← readOmmers
    match GlobalTree.fromState T { size := size.toNat, leaf := some leaf, ommers } with
    | .ok t => return t.frontier
    | .error _ => noResult
  else noResult

/-- A node. -/
def readNode : Read N := do
  let b ← readArr 32
  ofOption (T.fromBytes b)

/-- The filled siblings of a witness behind their number. The buffer, of 32 bytes each, is allocated
before they are read; a capacity that overflows is a panic. -/
def readFilled : Read (List N) := do
  let n ← readU64
  if 2 ^ 63 ≤ n.toNat * 32 then throw .panic else many n.toNat (readNode T)

variable {T} (W : WitnessOps T)

/-- `read_tree`. -/
def readTree : Read W.CommitmentTree := do
  let size ← readU64
  let f ← readFrontier T size
  return W.fromFrontier f

/-- The cursor of a witness, if there is one. -/
def readCursor : Read (Option W.CommitmentTree) := do
  let tag ← readU8
  if tag = 0 then return none
  else if tag = 1 then return some (← readTree W)
  else noResult

/-- `read_witness`. -/
def readWitness : Read W.IncrementalWitness := do
  let tree ← readTree W
  let filled ← readFilled T
  let cursor ← readCursor W
  fun c => (W.fromParts tree filled cursor).map fun w => (w, c)

/-- A witness with the position it is listed under. -/
def readEntry : Read (ℕ × W.IncrementalWitness) := do
  let pos ← readU64
  let w ← readWitness W
  return (pos.toNat, w)

end

/-- A note with its position; its nullifier is derived with the importer's key. -/
def readNote (O : NoteOps N) (fvk : O.FullViewingKey) : Read (OwnedNote O) := do
  let position ← readU64
  let recipient ← readArr 43
  let value ← readU64
  let rho ← readArr 32
  let rseed ← readArr 32
  let note ← ofOption (O.noteFromBytes recipient value rho rseed)
  return { note, position := position.toNat, nullifier := O.nullifier fvk note }

/-- A list behind its number, which is bounded. -/
def readList {α : Type} (p : Read α) : Read (List α) := do
  let n ← readU64
  if RECEIPT_MAX_NOTES < n.toNat then noResult else many n.toNat p

/-- The frontier of a receipt. -/
def readAnchor : Read (FrontierState (Bytes 32)) := do
  let size ← readU64
  let tag ← readU8
  let leaf ← (if tag = 0 then return none
    else if tag = 1 then return some (← readArr 32)
    else noResult)
  let ommers ← readOmmers
  return { size := size.toNat, leaf, ommers }

/-- The fixed part of a receipt: its frontier and the two scores. -/
def readHeader (genesis : Bytes 32) : Read (FrontierState (Bytes 32) × U64 × U64) := do
  let magic ← readArr 4
  let version ← readU8
  let chain ← readArr 32
  if magic ≠ RECEIPT_MAGIC ∨ version ≠ RECEIPT_VERSION ∨ chain ≠ genesis then noResult
  else
    let fs ← readAnchor
    let scanned_daa ← readU64
    let last_daa ← readU64
    return (fs, scanned_daa, last_daa)

/-- The variable part of a receipt, to its end. -/
def readReceipt {T : NoteTree (Bytes 32) N} (W : WitnessOps T) (O : NoteOps N)
    (fvk : O.FullViewingKey) : Read (ScanReceipt W O) := do
  let notes ← readList (readNote O fvk)
  let witnesses ← readList (readEntry W)
  fun c => if c.finished then .ok ({ notes, witnesses }, c) else .error (.err ())

/-! ## Verification -/

section

variable {T : NoteTree (Bytes 32) N} (W : WitnessOps T) {O : NoteOps N} [DecidableEq N]

/-- Whether the first witness under the position of a note leads from its commitment to the root. -/
def verifies (witnesses : List (ℕ × W.IncrementalWitness)) (anchor_root : N) (n : OwnedNote O) :
    Except (Fault Unit) Bool :=
  match witnesses.find? (·.1 = n.position) with
  | none => .ok false
  | some (_, w) => do
    match ← W.path w with
    | none => return false
    | some path => return W.root path (O.commitment n.note) = anchor_root

/-- The notes that verify. -/
def keepVerified (witnesses : List (ℕ × W.IncrementalWitness)) (anchor_root : N) :
    List (OwnedNote O) → Except (Fault Unit) (List (OwnedNote O))
  | [] => .ok []
  | n :: ns => do
    let keep ← verifies W witnesses anchor_root n
    let kept ← keepVerified witnesses anchor_root ns
    return if keep then n :: kept else kept

end

end Receipt

namespace WalletDb

open Receipt

section

variable {T : NoteTree (Bytes 32) N} (W : WitnessOps T) (O : NoteOps N) [DecidableEq N]

/-- Rebuild a wallet from a receipt and a viewing key. -/
def fromScanReceiptFvk (fvk_bytes : Bytes 96) (genesis : Bytes 32) (bytes : List UInt8) :
    Except (Fault Unit) (WalletDb W O × ScanReceiptMeta) := do
  let ((fs, scanned_daa, last_daa), c) ← readHeader genesis (.new bytes)
  let db ← (fromFvk W O fvk_bytes).okOr (.err ())
  let db ← (db.applyFrontier fs).okOr (.err ())
  let gt ← (GlobalTree.fromState T fs).mapError fun _ => .err ()
  let anchor_root := W.treeRoot (W.fromFrontier gt.frontier)
  let (receipt, _) ← readReceipt W O db.fvk c
  let kept ← keepVerified W receipt.witnesses anchor_root receipt.notes
  if kept.length ≠ receipt.witnesses.length ∧ kept = [] ∧ receipt.witnesses ≠ [] then
    throw (.err ())
  else
    let notes := kept.insertionSort fun a b => a.position ≤ b.position
    return ({ db with
        notes
        witnesses := receipt.witnesses.filter fun w => w.1 ∈ notes.map (·.position)
        witnessed_upto := fs.size
        lag_tree := db.tree
        last_daa },
      { scanned_daa, anchor_leaves := BitVec.ofNat 64 fs.size })

end

end WalletDb

/-! ## What a verified note pins down -/

namespace Receipt

variable {T : NoteTree (Bytes 32) N} {W : WitnessOps T} {O : NoteOps N} [DecidableEq N]
  {witnesses : List (ℕ × W.IncrementalWitness)} {root : N}

/-- A note verifies when its first witness has a path from its commitment to the root. -/
theorem verifies_eq_true {n : OwnedNote O} : verifies W witnesses root n = .ok true ↔
    ∃ w path, witnesses.find? (·.1 = n.position) = some (n.position, w) ∧
      W.path w = .ok (some path) ∧ W.root path (O.commitment n.note) = root := by
  unfold verifies
  cases hfind : witnesses.find? (·.1 = n.position) with
  | none => simp
  | some e =>
    obtain ⟨p, w⟩ := e
    obtain rfl : p = n.position := by simpa using List.find?_some hfind
    simp only [bind_eq_ok_iff, Option.some.injEq, Prod.mk.injEq, true_and]
    constructor
    · rintro ⟨_ | path, hpath, heq⟩
      · cases heq
      · exact ⟨w, path, rfl, hpath, by simpa using ok.inj heq⟩
    · rintro ⟨w, path, rfl, hpath, hroot⟩
      exact ⟨some path, hpath, congrArg ok (decide_eq_true hroot)⟩

/-- The kept notes are those that verify. -/
theorem keepVerified_eq {notes kept : List (OwnedNote O)}
    (h : keepVerified W witnesses root notes = .ok kept) :
    kept = notes.filter fun n => verifies W witnesses root n = .ok true := by
  induction notes generalizing kept with
  | nil => exact (ok.inj h).symm
  | cons n ns ih =>
    rw [keepVerified, bind_eq_ok_iff] at h
    obtain ⟨keep, hkeep, h⟩ := h
    obtain ⟨rest, hrest, heq⟩ := bind_eq_ok_iff.mp h
    obtain rfl := ok.inj heq
    rw [List.filter_cons, ← ih hrest, hkeep]
    cases keep <;> rfl

end Receipt

end Zkas
