import Zkas.Lib.Delta
import Zkas.Shielded.Sighash

/-!
# UTXO diffs

Model of `consensus/core/src/utxo/utxo_diff.rs` and `utxo_collection.rs`. A collection is a finite
map from outpoints to entries, with the order in which it is iterated over; a diff is a collection
of entries to add and one of entries to remove. All operations treat an outpoint by itself, and
compare entries by their DAA scores. -/

namespace Zkas.Utxo

open Zkas.Pow (Hash TransactionOutpoint)

/-- An unspent output. -/
structure UtxoEntry where
  amount : BitVec 64
  script_public_key : Pow.ScriptPublicKey
  block_daa_score : BitVec 64
  is_coinbase : Bool
  covenant_id : Option Hash
  deriving DecidableEq

/-- Entries by outpoint. -/
abbrev UtxoCollection := AList fun _ : TransactionOutpoint => UtxoEntry

/-- `UtxoAlgebraError`, with the texts of its variants. -/
inductive UtxoAlgebraError where
  | DuplicateRemovePoint (outpoint : TransactionOutpoint)
  | DuplicateAddPoint (outpoint : TransactionOutpoint)
  | DoubleRemoveCall (outpoint : TransactionOutpoint)
  | DoubleAddCall (outpoint : TransactionOutpoint)
  | DiffIntersectionPoint (outpoint : TransactionOutpoint) (text : String)
  | General (text : String)
  deriving DecidableEq

/-! ## Collections -/

namespace UtxoCollection

/-- `contains_with_daa_score`. -/
def containsWithDaaScore (c : UtxoCollection) (outpoint : TransactionOutpoint)
    (daa_score : BitVec 64) : Bool :=
  match c.lookup outpoint with
  | some entry => entry.block_daa_score = daa_score
  | none => false

variable (self other : UtxoCollection)

/-- `remove_collection`. -/
def removeCollection : UtxoCollection := AList.eraseKeys other self

/-- `intersects`. The smaller collection is iterated over. -/
def intersects : Bool :=
  if self.entries.length ≤ other.entries.length then self.keys.any fun k => k ∈ other
  else other.keys.any fun k => k ∈ self

/-- `intersects_with_rule`. The smaller collection is iterated over. -/
def intersectsWithRule
    (rule : TransactionOutpoint → UtxoEntry → UtxoEntry → Bool) : Option TransactionOutpoint :=
  if self.entries.length ≤ other.entries.length then
    (self.entries.find? fun ⟨k, v1⟩ => (other.lookup k).any fun v2 => rule k v1 v2).map Sigma.fst
  else
    (other.entries.find? fun ⟨k, v2⟩ => (self.lookup k).any fun v1 => rule k v1 v2).map Sigma.fst

variable (this other result remainder : UtxoCollection)

/-- `intersection_with_remainder_having_daa_score_in_place`: the new `result` and `remainder`. -/
def intersectionWithRemainderHavingDaaScore : UtxoCollection × UtxoCollection :=
  (this.insertWhere (fun outpoint entry =>
      other.containsWithDaaScore outpoint entry.block_daa_score) result,
    this.insertWhere (fun outpoint entry =>
      !other.containsWithDaaScore outpoint entry.block_daa_score) remainder)

/-- `subtraction_having_daa_score_in_place`: the new `result`. -/
def subtractionHavingDaaScore (this other result : UtxoCollection) : UtxoCollection :=
  this.insertWhere (fun outpoint entry =>
    !other.containsWithDaaScore outpoint entry.block_daa_score) result

/-- `subtraction_with_remainder_having_daa_score_in_place`: the new `result` and `remainder`. -/
def subtractionWithRemainderHavingDaaScore : UtxoCollection × UtxoCollection :=
  (this.insertWhere (fun outpoint entry =>
      !other.containsWithDaaScore outpoint entry.block_daa_score) result,
    this.insertWhere (fun outpoint entry =>
      other.containsWithDaaScore outpoint entry.block_daa_score) remainder)

end UtxoCollection

/-! ## Diffs -/

/-- `UtxoDiff`. -/
structure UtxoDiff where
  add : UtxoCollection
  remove : UtxoCollection
  deriving DecidableEq

namespace UtxoDiff

open UtxoCollection

variable (self : UtxoDiff)

/-- `to_reversed`. -/
def toReversed : UtxoDiff := ⟨self.remove, self.add⟩

/-- `with_diff`. -/
def withDiff (self other : UtxoDiff) : Except UtxoAlgebraError UtxoDiff :=
  match other.remove.intersectsWithRule self.remove fun outpoint entry_to_add _ =>
      !self.add.containsWithDaaScore outpoint entry_to_add.block_daa_score with
  | some offending_outpoint => .error (.DuplicateRemovePoint offending_outpoint)
  | none =>
    match other.add.intersectsWithRule self.add fun outpoint _ existing_entry =>
        !other.remove.containsWithDaaScore outpoint existing_entry.block_daa_score with
    | some offending_outpoint => .error (.DuplicateAddPoint offending_outpoint)
    | none =>
      let (intersection, remove) :=
        intersectionWithRemainderHavingDaaScore other.remove self.add ∅ self.remove
      let add := self.add.removeCollection intersection
      let (intersection, add) := intersectionWithRemainderHavingDaaScore other.add remove ∅ add
      let remove := remove.removeCollection intersection
      .ok ⟨add, remove⟩

/-- `diff_from`. -/
def diffFrom (self other : UtxoDiff) : Except UtxoAlgebraError UtxoDiff :=
  match self.remove.intersectsWithRule other.add fun outpoint this_entry other_entry =>
      !(other_entry.block_daa_score ≠ this_entry.block_daa_score &&
        (self.add.containsWithDaaScore outpoint other_entry.block_daa_score ||
          other.remove.containsWithDaaScore outpoint this_entry.block_daa_score)) with
  | some offending_outpoint =>
    .error (.DiffIntersectionPoint offending_outpoint "both in self.add and in other.remove")
  | none =>
    match self.add.intersectsWithRule other.remove fun outpoint this_entry other_entry =>
        !(other_entry.block_daa_score ≠ this_entry.block_daa_score &&
          (self.remove.containsWithDaaScore outpoint other_entry.block_daa_score ||
            other.add.containsWithDaaScore outpoint this_entry.block_daa_score)) with
    | some offending_outpoint =>
      .error (.DiffIntersectionPoint offending_outpoint "both in self.remove and in other.add")
    | none =>
      match self.remove.intersectsWithRule other.remove fun _ this_entry other_entry =>
          other_entry.block_daa_score ≠ this_entry.block_daa_score with
      | some offending_outpoint =>
        .error (.DiffIntersectionPoint offending_outpoint
          ("both in self.remove and other.remove with different DAA scores, " ++
            "with no corresponding entry in self.add"))
      | none =>
        let (remove, in_both_to_add) :=
          subtractionWithRemainderHavingDaaScore self.add other.add ∅ ∅
        if in_both_to_add.intersects self.remove ≠ in_both_to_add.intersects other.remove then
          .error (.General ("diff_from: outpoint both in self.add, other.add, " ++
            "and only one of self.remove and other.remove"))
        else
          let remove := subtractionHavingDaaScore other.remove self.remove remove
          let add := subtractionHavingDaaScore self.remove other.remove ∅
          let add := subtractionHavingDaaScore other.add self.add add
          .ok ⟨add, remove⟩

/-- `remove_entry`. -/
def removeEntry (outpoint : TransactionOutpoint) (entry : UtxoEntry) :
    Except UtxoAlgebraError UtxoDiff :=
  if self.add.containsWithDaaScore outpoint entry.block_daa_score then
    .ok { self with add := self.add.erase outpoint }
  else if outpoint ∉ self.remove then
    .ok { self with remove := self.remove.insert outpoint entry }
  else .error (.DoubleRemoveCall outpoint)

/-- `add_entry`. -/
def addEntry (outpoint : TransactionOutpoint) (entry : UtxoEntry) :
    Except UtxoAlgebraError UtxoDiff :=
  if self.remove.containsWithDaaScore outpoint entry.block_daa_score then
    .ok { self with remove := self.remove.erase outpoint }
  else if outpoint ∉ self.add then .ok { self with add := self.add.insert outpoint entry }
  else .error (.DoubleAddCall outpoint)

end UtxoDiff

/-- A transaction with the entries its inputs spend. -/
structure VerifiableTransaction where
  tx : Pow.Transaction
  entries : List UtxoEntry
  length_eq : entries.length = tx.inputs.val.length

namespace VerifiableTransaction

variable (tx : VerifiableTransaction)

/-- The inputs with their entries. -/
def populatedInputs : List (Pow.TransactionInput × UtxoEntry) := tx.tx.inputs.val.zip tx.entries

/-- The entries that a transaction removes, with their outpoints. -/
def inputEntries : List (TransactionOutpoint × UtxoEntry) :=
  tx.populatedInputs.map fun (input, entry) => (input.previous_outpoint, entry)

/-- The entries that a transaction adds, with their outpoints. The index of an output is cut to 32
bits. -/
def outputEntries (txId : Pow.Transaction → Hash) (block_daa_score : BitVec 64) :
    List (TransactionOutpoint × UtxoEntry) :=
  tx.tx.outputs.val.zipIdx.map fun (output, i) =>
    (⟨txId tx.tx, BitVec.ofNat 32 i⟩,
      { amount := output.value
        script_public_key := output.script_public_key
        block_daa_score
        is_coinbase := tx.tx.isCoinbase
        covenant_id := output.covenant.map fun covenant => covenant.covenant_id })

end VerifiableTransaction

/-- `add_transaction`, where `txId` gives the ids of transactions. -/
def UtxoDiff.addTransaction (self : UtxoDiff) (txId : Pow.Transaction → Hash)
    (tx : VerifiableTransaction) (block_daa_score : BitVec 64) :
    Except UtxoAlgebraError UtxoDiff := do
  let self ← tx.inputEntries.foldlM (fun self (outpoint, entry) =>
    self.removeEntry outpoint entry) self
  (tx.outputEntries txId block_daa_score).foldlM (fun self (outpoint, entry) =>
    self.addEntry outpoint entry) self

end Zkas.Utxo
