import Zkas.Pow.Header

/-!
# Transactions and the transaction hash

A transaction and its hash, byte for byte as the hasher is fed. What is written for an input and an
output depends on the transaction's version: version 0 writes the signature operation count and
leaves out a zero mass, later versions write the compute budget, the covenant and always the mass.
Two transactions with one preimage have the same payload. -/

namespace Zkas.Pow

open Framing SelfDelimiting

/-- Which fields are left out of the encoding. -/
structure TxEncodingFlags where
  EXCLUDE_SIGNATURE_SCRIPT : Bool
  EXCLUDE_MASS_COMMIT : Bool
  EXCLUDE_PAYLOAD : Bool

/-- Nothing is left out. -/
def TxEncodingFlags.FULL : TxEncodingFlags where
  EXCLUDE_SIGNATURE_SCRIPT := false
  EXCLUDE_MASS_COMMIT := false
  EXCLUDE_PAYLOAD := false

/-- The compute mass commitment of an input. -/
inductive ComputeCommit where
  | SigopCount (count : UInt8)
  | ComputeBudget (budget : BitVec 16)
  deriving DecidableEq

namespace ComputeCommit

/-- The signature operation count, if that is what is committed. -/
def sigOpCount : ComputeCommit → Option UInt8
  | .SigopCount count => some count
  | .ComputeBudget _ => none

/-- The compute budget, if that is what is committed. -/
def computeBudget : ComputeCommit → Option (BitVec 16)
  | .SigopCount _ => none
  | .ComputeBudget budget => some budget

/-- Whether a version commits a compute budget. -/
def versionExpectsComputeBudgetField (version : BitVec 16) : Bool := 1 ≤ version.toNat

/-- Whether a version commits a signature operation count. -/
def versionExpectsSigOpCountField (version : BitVec 16) : Bool :=
  !versionExpectsComputeBudgetField version

end ComputeCommit

/-- The output an input spends. -/
structure TransactionOutpoint where
  transaction_id : Hash
  index : BitVec 32
  deriving DecidableEq

/-- A transaction input. -/
structure TransactionInput where
  previous_outpoint : TransactionOutpoint
  signature_script : Vec UInt8
  sequence : BitVec 64
  compute_commit : ComputeCommit
  deriving DecidableEq

/-- The script an output is locked with. -/
structure ScriptPublicKey where
  version : BitVec 16
  script : Vec UInt8
  deriving DecidableEq

/-- The covenant an output is bound to. -/
structure CovenantBinding where
  authorizing_input : BitVec 16
  covenant_id : Hash
  deriving DecidableEq

/-- A transaction output. -/
structure TransactionOutput where
  value : BitVec 64
  script_public_key : ScriptPublicKey
  covenant : Option CovenantBinding
  deriving DecidableEq

/-- A transaction. -/
structure Transaction where
  version : BitVec 16
  inputs : Vec TransactionInput
  outputs : Vec TransactionOutput
  lock_time : BitVec 64
  subnetwork_id : List.Vector UInt8 20
  gas : BitVec 64
  payload : Vec UInt8
  storage_mass : BitVec 64
  deriving DecidableEq

/-! ## The encoding -/

/-- The spent output. -/
def writeOutpoint (outpoint : TransactionOutpoint) : List UInt8 :=
  outpoint.transaction_id.toList ++ wordBytes outpoint.index

variable (version : BitVec 16) (encoding_flags : TxEncodingFlags)

/-- An input. -/
def writeInput (input : TransactionInput) : List UInt8 :=
  writeOutpoint input.previous_outpoint ++ (if !encoding_flags.EXCLUDE_SIGNATURE_SCRIPT then
      varBytes input.signature_script.val ++
        if ComputeCommit.versionExpectsSigOpCountField version then
          [input.compute_commit.sigOpCount.getD 0]
        else []
    else varBytes []) ++
    wordBytes input.sequence ++
    if !encoding_flags.EXCLUDE_MASS_COMMIT &&
        ComputeCommit.versionExpectsComputeBudgetField version then
      wordBytes (input.compute_commit.computeBudget.getD 0)
    else []

/-- A covenant. -/
def writeCovenant (covenant : CovenantBinding) : List UInt8 :=
  wordBytes covenant.authorizing_input ++ covenant.covenant_id.toList

/-- An output. -/
def writeOutput (output : TransactionOutput) : List UInt8 :=
  wordBytes output.value ++ wordBytes output.script_public_key.version ++
    varBytes output.script_public_key.script.val ++
    if 1 ≤ version.toNat then
      -- Whether there is a covenant, and the covenant.
      output.covenant.elim [0] fun covenant => 1 :: writeCovenant covenant
    else []

/-- The mass commitment. Version 0 leaves out a zero mass. -/
def writeMass (tx : Transaction) : List UInt8 :=
  if tx.version.toNat < 1 then
    if 0 < tx.storage_mass.toNat then wordBytes tx.storage_mass else []
  else wordBytes tx.storage_mass

/-- What a hasher is fed for a transaction. -/
def writeTransaction (tx : Transaction) (encoding_flags : TxEncodingFlags) : List UInt8 :=
  wordBytes tx.version ++ vecBytes (writeInput tx.version encoding_flags) tx.inputs.val ++
    vecBytes (writeOutput tx.version) tx.outputs.val ++
    wordBytes tx.lock_time ++ tx.subnetwork_id.toList ++ wordBytes tx.gas ++
    (if !encoding_flags.EXCLUDE_PAYLOAD then varBytes tx.payload.val else varBytes []) ++
    if !encoding_flags.EXCLUDE_MASS_COMMIT then writeMass tx else []

/-- The transaction hash. -/
def Transaction.hash (digest : Digest) (tx : Transaction) : Hash :=
  digest .TransactionHash (writeTransaction tx .FULL)

/-! ## What the encoding determines -/

theorem selfDelimiting_const {α : Type} (bs : List UInt8) : SelfDelimiting fun _ : α => bs :=
  of_length fun _ => rfl

theorem selfDelimiting_writeOutpoint : SelfDelimiting writeOutpoint :=
  (vector.comp TransactionOutpoint.transaction_id).append (word.comp TransactionOutpoint.index)

theorem selfDelimiting_writeInput :
    SelfDelimiting (writeInput version encoding_flags) := by
  have houtpoint := selfDelimiting_writeOutpoint.comp TransactionInput.previous_outpoint
  have hscript := var.comp TransactionInput.signature_script
  have hcount : SelfDelimiting fun input : TransactionInput =>
      [input.compute_commit.sigOpCount.getD 0] := of_length fun _ => rfl
  have hsequence : SelfDelimiting fun input : TransactionInput => wordBytes input.sequence :=
    word.comp TransactionInput.sequence
  have hbudget : SelfDelimiting fun input : TransactionInput =>
      wordBytes (input.compute_commit.computeBudget.getD 0) :=
    word.comp fun input : TransactionInput => input.compute_commit.computeBudget.getD 0
  have hcounted : SelfDelimiting fun input : TransactionInput =>
      if ComputeCommit.versionExpectsSigOpCountField version then
        [input.compute_commit.sigOpCount.getD 0]
      else [] := hcount.ite (selfDelimiting_const [])
  have hsigned : SelfDelimiting fun input : TransactionInput =>
      if !encoding_flags.EXCLUDE_SIGNATURE_SCRIPT then
        varBytes input.signature_script.val ++
          if ComputeCommit.versionExpectsSigOpCountField version then
            [input.compute_commit.sigOpCount.getD 0]
          else []
      else varBytes [] := (hscript.append hcounted).ite (selfDelimiting_const (varBytes []))
  exact ((houtpoint.append hsigned).append hsequence).append (hbudget.ite (selfDelimiting_const []))

theorem selfDelimiting_writeOutput :
    SelfDelimiting (writeOutput version) := by
  have hvalue : SelfDelimiting fun output : TransactionOutput => wordBytes output.value :=
    word.comp TransactionOutput.value
  have hversion : SelfDelimiting fun output : TransactionOutput =>
      wordBytes output.script_public_key.version :=
    word.comp fun output : TransactionOutput => output.script_public_key.version
  have hscript := var.comp fun output : TransactionOutput => output.script_public_key.script
  have hbinding : SelfDelimiting writeCovenant :=
    (word.comp CovenantBinding.authorizing_input).append (vector.comp CovenantBinding.covenant_id)
  have hcovenant := hbinding.option.comp TransactionOutput.covenant
  exact ((hvalue.append hversion).append hscript).append (hcovenant.ite (selfDelimiting_const []))

theorem payload_eq_of_writeTransaction {tx tx' : Transaction}
    (h : writeTransaction tx .FULL = writeTransaction tx' .FULL) : tx.payload = tx'.payload := by
  simp only [writeTransaction, List.append_assoc] at h
  -- The version comes first and fixes how inputs and outputs are written.
  obtain ⟨hversion, h⟩ := word h
  rw [wordBytes_inj (by norm_num) hversion] at h
  obtain ⟨-, h⟩ := (selfDelimiting_writeInput tx'.version .FULL).vec h
  obtain ⟨-, h⟩ := (selfDelimiting_writeOutput tx'.version).vec h
  obtain ⟨-, h⟩ := word h
  obtain ⟨-, h⟩ := vector h
  obtain ⟨-, h⟩ := word h
  exact Subtype.ext (varBytes_append_inj tx.payload.property tx'.payload.property h).1

end Zkas.Pow
