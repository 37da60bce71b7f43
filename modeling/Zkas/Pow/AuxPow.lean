import Zkas.Lib.MerkleBranch
import Zkas.Pow.Transaction

/-!
# Merged mining

A block may be mined on top of a parent block of another chain: the parent's coinbase payload
carries a commitment to the block, the coinbase is included under the parent's Merkle root, and the
parent's proof of work clears the block's own target. Before the security fork the payload commits
to the block's hash (`ZKMM`). After it the payload commits to the genesis and to the hash with the
nonce zeroed (`ZKM1`), and the block's nonce is taken from the parent's hash. -/

namespace Zkas.Pow

open Framing List Option MerkleBranch

/-- The bytes of ASCII characters. -/
def ascii (chars : List Char) : List UInt8 := chars.map Char.toUInt8

/-- The tag that marks the commitment to a block. -/
def MERGE_MINE_MAGIC : List.Vector UInt8 4 := ⟨ascii ['Z', 'K', 'M', 'M'], rfl⟩

/-- The tag from the security fork on. -/
def MERGE_MINE_MAGIC_V1 : List.Vector UInt8 4 := ⟨ascii ['Z', 'K', 'M', '1'], rfl⟩

/-- The longest accepted branch. -/
def MAX_COINBASE_MERKLE_BRANCH : ℕ := 64

/-- The characters of a commitment. -/
def COMMITMENT_HEX_LEN : ℕ := 64

/-- The proof that a block was mined on top of a parent block. -/
structure AuxPow where
  parent_header : Header
  /-- The first transaction of the parent block. -/
  parent_coinbase : Transaction
  /-- The right siblings from the coinbase up to the parent's Merkle root. -/
  coinbase_merkle_branch : List Hash

/-! ## The commitment in the payload -/

/-- The value of a lowercase hexadecimal digit. -/
def hexNibble (c : UInt8) : Option UInt8 :=
  if '0'.toUInt8 ≤ c ∧ c ≤ '9'.toUInt8 then some (c - '0'.toUInt8)
  else if 'a'.toUInt8 ≤ c ∧ c ≤ 'f'.toUInt8 then some (c - 'a'.toUInt8 + 10)
  else none

/-- The bytes that pairs of digits spell. -/
def decodePairs : List UInt8 → Option (List UInt8)
  | hi :: lo :: rest => do
    let high ← hexNibble hi
    let low ← hexNibble lo
    let out ← decodePairs rest
    return ((high <<< 4) ||| low) :: out
  | _ => some []

theorem length_of_decodePairs {s out : List UInt8} (h : decodePairs s = some out) :
    out.length = s.length / 2 := by
  induction s using decodePairs.induct generalizing out with
  | case1 hi lo rest ih =>
    simp only [decodePairs, bind_eq_bind, bind_eq_some_iff] at h
    obtain ⟨high, -, low, -, tail, htail, hout⟩ := h
    obtain rfl := some.inj hout
    have hlen := ih htail
    simp only [length_cons]
    omega
  | case2 s hs =>
    obtain rfl : out = [] := by
      rw [decodePairs] at h
      · exact (some.inj h).symm
      · exact hs
    match s, hs with
    | [], _ => rfl
    | [_], _ => simp
    | a :: b :: rest, hs => exact absurd rfl (hs a b rest)

/-- A hash from its hexadecimal digits. -/
def decodeHex32 (s : List UInt8) : Option Hash :=
  if hlen : s.length = COMMITMENT_HEX_LEN then
    match hout : decodePairs s with
    | some out => some ⟨out, by rw [length_of_decodePairs hout, hlen]; rfl⟩
    | none => none
  else none

/-- The digits of a byte. -/
def hexDigits (b : UInt8) : List UInt8 :=
  let digit (n : UInt8) : UInt8 := (ascii "0123456789abcdef".toList).getD n.toNat 0
  [digit (b >>> 4), digit (b &&& 0x0f)]

/-- The hexadecimal digits of a hash. -/
def encodeHex32 (hash : Hash) : List UInt8 := hash.toList.flatMap hexDigits

/-- The scan for the tag from position `i` on. `found` is the commitment seen so far. A second tag,
a truncated commitment and one that is not hexadecimal end the scan with nothing. -/
def payloadCommitmentFrom (payload : List UInt8) (magic : List.Vector UInt8 4) (i : ℕ)
    (found : Option Hash) : Option Hash :=
  if _hinside : i + 4 ≤ payload.length then
    if (payload.drop i).take 4 = magic.toList then
      if found.isSome then none
      else
        let start := i + 4
        let stop := start + COMMITMENT_HEX_LEN
        if payload.length < stop then none
        else
          match decodeHex32 ((payload.drop start).take COMMITMENT_HEX_LEN) with
          | none => none
          -- Go on after the tag, to see that it does not occur again.
          | some hash => payloadCommitmentFrom payload magic start (some hash)
    else payloadCommitmentFrom payload magic (i + 1) found
  else found
termination_by payload.length - i

/-- The single commitment with the given tag. -/
def payloadCommitment (payload : List UInt8) (magic : List.Vector UInt8 4) : Option Hash :=
  payloadCommitmentFrom payload magic 0 none

namespace AuxPow

variable (aux : AuxPow)

/-- The single commitment before the security fork. -/
def committedHash : Option Hash :=
  payloadCommitment aux.parent_coinbase.payload.val MERGE_MINE_MAGIC

/-- The single commitment from the security fork on. -/
def committedHashV1 : Option Hash :=
  payloadCommitment aux.parent_coinbase.payload.val MERGE_MINE_MAGIC_V1

/-- A payload with a commitment from the security fork on. -/
def embedCommitmentV1 (before : List UInt8) (commitment : Hash) (after : List UInt8) : List UInt8 :=
  before ++ MERGE_MINE_MAGIC_V1.toList ++ encodeHex32 commitment ++ after

/-- What the commitment of the security fork hashes. -/
def boundPreimage (genesis nonce_free_header_hash : Hash) : List UInt8 :=
  ascii ['z', 'k', 'a', 's', '_', 'a', 'u', 'x', '_', 'b', 'i', 'n', 'd', '1'] ++ genesis.toList ++
    nonce_free_header_hash.toList

variable (digest : Digest)

/-- The value a parent commits to from the security fork on. -/
def boundCommitment (genesis nonce_free_header_hash : Hash) : Hash :=
  digest .BlockHash (boundPreimage genesis nonce_free_header_hash)

/-- The number that little-endian bytes spell. -/
def leNat : List UInt8 → ℕ
  | [] => 0
  | b :: bs => b.toNat + 256 * leNat bs

/-- The nonce a block must carry from the security fork on: the first eight bytes of the hash of its
parent header, recomputed. -/
def nonceBinding (parent_header : Header) : BitVec 64 :=
  BitVec.ofNat 64 (leNat ((parent_header.recomputedHash digest).toList.take 8))

/-- The hash of two children. -/
def merkleHash (left right : Hash) : Hash := digest .MerkleBranchHash (left.toList ++ right.toList)

/-- Whether the coinbase is the first leaf under the parent's Merkle root. -/
def verifyCoinbaseInclusion : Bool :=
  if MAX_COINBASE_MERKLE_BRANCH < aux.coinbase_merkle_branch.length then false
  else
    decide (aux.coinbase_merkle_branch.foldl (merkleHash digest) (aux.parent_coinbase.hash digest) =
      aux.parent_header.hash_merkle_root)

/-- Whether the parent commits to the given block hash. -/
def verifyBinding (expected : Hash) : Bool :=
  decide (aux.committedHash = some expected) && aux.verifyCoinbaseInclusion digest

/-- Whether the parent commits to the given genesis and header hash without nonce. -/
def verifyBindingV1 (genesis nonce_free_header_hash : Hash) : Bool :=
  decide (aux.committedHashV1 = some (boundCommitment digest genesis nonce_free_header_hash)) &&
    aux.verifyCoinbaseInclusion digest

end AuxPow

/-! ## The proof of work -/

/-- The hash functions of the proof of work. -/
structure PowFns where
  digest : Digest
  /-- kHeavyHash of a header hash without nonce and time, a timestamp and a nonce. -/
  heavyHash : Hash → BitVec 64 → BitVec 64 → BitVec 256

/-- The target that compact bits stand for. -/
def fromCompactTargetBits (bits : BitVec 32) : BitVec 256 :=
  let unshifted_expt := (bits >>> 24).toNat
  let (mant, expt) :=
    if unshifted_expt ≤ 3 then ((bits &&& 0xFFFFFF#32) >>> (8 * (3 - unshifted_expt)), 0)
    else (bits &&& 0xFFFFFF#32, 8 * (unshifted_expt - 3))
  -- The shift is taken modulo the width.
  if 0x7FFFFF < mant.toNat then 0 else BitVec.ofNat 256 mant.toNat <<< (expt % 256)

/-- The precomputed values of a header's proof of work. -/
structure State where
  target : BitVec 256
  pre_pow_hash : Hash
  timestamp : BitVec 64

namespace State

/-- The values of a header. -/
def new (F : PowFns) (header : Header) : State where
  target := fromCompactTargetBits header.bits
  pre_pow_hash := header.hashOverrideNonceTime F.digest 0 0
  timestamp := header.timestamp

/-- The proof of work with a nonce. -/
def calculatePow (F : PowFns) (state : State) (nonce : BitVec 64) : BitVec 256 :=
  F.heavyHash state.pre_pow_hash state.timestamp nonce

/-- Whether the proof of work clears the target, and its value. -/
def checkPow (F : PowFns) (state : State) (nonce : BitVec 64) : Bool × BitVec 256 :=
  let pow := state.calculatePow F nonce
  (decide (pow ≤ state.target), pow)

end State

/-- The proof of work of the parent header. -/
def parentPow (F : PowFns) (aux : AuxPow) : BitVec 256 :=
  (State.new F aux.parent_header).calculatePow F aux.parent_header.nonce

/-- The parent commits to the block and clears its target. -/
def verifyAuxPow (F : PowFns) (aux : AuxPow) (expected : Hash) (target : BitVec 256) : Bool :=
  aux.verifyBinding F.digest expected && decide (parentPow F aux ≤ target)

/-- Which merged-mining rule applies to a header. -/
inductive AuxRule where
  | Off
  | Legacy
  | Bound (genesis : Hash)
  deriving DecidableEq

/-- The rule of the security fork: the block's nonce is bound to the parent, the parent carries no
commitment of the old form, and it commits to the genesis and the header without nonce. -/
def verifyBound (F : PowFns) (header : Header) (aux : AuxPow) (genesis : Hash) : Bool :=
  let nonce_free := header.hashOverrideNonceTime F.digest 0 header.timestamp
  decide (header.nonce = AuxPow.nonceBinding F.digest aux.parent_header) &&
    aux.committedHash.isNone && aux.verifyBindingV1 F.digest genesis nonce_free &&
    decide (parentPow F aux ≤ fromCompactTargetBits header.bits)

/-- Whether the block is accepted, by its own proof of work or by its parent's, and the value. -/
def checkPowGated (F : PowFns) (header : Header) (aux : Option AuxPow) (rule : AuxRule) :
    Bool × BitVec 256 :=
  let (native_ok, native_pow) := (State.new F header).checkPow F header.nonce
  if native_ok then (true, native_pow)
  else
    match aux with
    | some a =>
      let accepted :=
        match rule with
        | .Off => false
        | .Legacy => verifyAuxPow F a header.hash (fromCompactTargetBits header.bits)
        | .Bound genesis => verifyBound F header a genesis
      if accepted then (true, parentPow F a) else (false, native_pow)
    | none => (false, native_pow)

/-! ## One parent, one block -/

variable (digest : Digest)

/-- The inputs that are hashed to include the coinbase under the Merkle root. -/
def AuxPow.inclusionInputs (aux : AuxPow) : List (Hasher × List UInt8) :=
  (.TransactionHash, writeTransaction aux.parent_coinbase .FULL) ::
    (pairs (AuxPow.merkleHash digest) (aux.parent_coinbase.hash digest)
      aux.coinbase_merkle_branch).map fun pair =>
        (.MerkleBranchHash, pair.1.toList ++ pair.2.toList)

/-- The inputs that are hashed to accept a header through its parent. -/
def acceptanceInputs (header : Header) (aux : AuxPow) (rule : AuxRule) :
    List (Hasher × List UInt8) :=
  aux.inclusionInputs digest ++ match rule with
    | .Off => []
    | .Legacy => [(.BlockHash, header.preimage header.nonce header.timestamp)]
    | .Bound genesis =>
      [(.BlockHash, header.preimage 0 header.timestamp), (.BlockHash, AuxPow.boundPreimage genesis
          (header.hashOverrideNonceTime digest 0 header.timestamp))]

/-- A header without proof of work of its own is accepted under a rule that is on, and the parent
commits to it as the rule asks. -/
inductive AcceptedThrough (F : PowFns) (header : Header) (aux : AuxPow) : AuxRule → Prop where
  | legacy (commits : aux.committedHash = some header.hash)
      (included : aux.verifyCoinbaseInclusion F.digest = true) :
        AcceptedThrough F header aux .Legacy
  | bound (genesis : Hash) (nonce : header.nonce = AuxPow.nonceBinding F.digest aux.parent_header)
      (no_legacy : aux.committedHash = none)
      (commits : aux.committedHashV1 = some (AuxPow.boundCommitment F.digest genesis
        (header.hashOverrideNonceTime F.digest 0 header.timestamp)))
      (included : aux.verifyCoinbaseInclusion F.digest = true) :
      AcceptedThrough F header aux (.Bound genesis)

theorem acceptedThrough_of_checkPowGated {F : PowFns} {header : Header} {aux : AuxPow}
    {rule : AuxRule} (hnative : ((State.new F header).checkPow F header.nonce).1 = false)
    (h : (checkPowGated F header (some aux) rule).1 = true) :
      AcceptedThrough F header aux rule := by
  unfold checkPowGated at h
  simp only [hnative, Bool.false_eq_true, if_false] at h
  cases rule with
  | Off => simp at h
  | Legacy =>
    have haccepted : verifyAuxPow F aux header.hash (fromCompactTargetBits header.bits) = true := by
      by_contra hreject
      simp [hreject] at h
    simp only [verifyAuxPow, AuxPow.verifyBinding, Bool.and_eq_true, decide_eq_true_eq] at haccepted
    obtain ⟨⟨hcommits, hincluded⟩, -⟩ := haccepted
    exact .legacy hcommits hincluded
  | Bound genesis =>
    have haccepted : verifyBound F header aux genesis = true := by
      by_contra hreject
      simp [hreject] at h
    simp only [verifyBound, AuxPow.verifyBindingV1, Bool.and_eq_true, decide_eq_true_eq,
      isNone_iff_eq_none] at haccepted
    obtain ⟨⟨⟨hnonce, hnone⟩, hcommits, hincluded⟩, -⟩ := haccepted
    exact .bound genesis hnonce hnone hcommits hincluded

theorem AcceptedThrough.root {F : PowFns} {header : Header} {aux : AuxPow} {rule : AuxRule}
    (h : AcceptedThrough F header aux rule) :
    MerkleBranch.root (AuxPow.merkleHash F.digest) (aux.parent_coinbase.hash F.digest)
      aux.coinbase_merkle_branch = aux.parent_header.hash_merkle_root := by
  have hincluded : aux.verifyCoinbaseInclusion F.digest = true := by cases h <;> assumption
  unfold AuxPow.verifyCoinbaseInclusion at hincluded
  split_ifs at hincluded
  exact of_decide_eq_true hincluded

/-- An input of the transaction tree as it is fed to the hashers. -/
def treeInput : Input (List UInt8) Hash → Hasher × List UInt8
  | .inl leaf => (.TransactionHash, leaf)
  | .inr (left, right) => (.MerkleBranchHash, left.toList ++ right.toList)

theorem treeInput_injective : Function.Injective treeInput := by
  rintro (leaf | ⟨l, r⟩) (leaf' | ⟨l', r'⟩) heq
  · exact congrArg Sum.inl (Prod.mk.inj heq).2
  · exact absurd (Prod.mk.inj heq).1 (by decide)
  · exact absurd (Prod.mk.inj heq).1 (by decide)
  · obtain ⟨hl, hr⟩ := SelfDelimiting.vector (Prod.mk.inj heq).2
    obtain rfl : l = l' := List.Vector.toList_injective hl
    obtain rfl : r = r' := List.Vector.toList_injective hr
    rfl

theorem inputHash_eq (q : Input (List UInt8) Hash) :
    inputHash (digest .TransactionHash) (AuxPow.merkleHash digest) q =
      digest (treeInput q).1 (treeInput q).2 := by
  rcases q with leaf | ⟨l, r⟩ <;> rfl

theorem inclusionInputs_eq (aux : AuxPow) : aux.inclusionInputs digest =
      (inputs (digest .TransactionHash) (AuxPow.merkleHash digest)
        (writeTransaction aux.parent_coinbase .FULL) aux.coinbase_merkle_branch).map treeInput := by
  unfold AuxPow.inclusionInputs inputs
  rw [List.map_cons, List.map_map]
  rfl

theorem payload_eq_of_root {digest : Digest} {aux aux' : AuxPow}
    {inputs : List (Hasher × List UInt8)} (hinj : CollisionFree digest inputs)
    (hin : ∀ q ∈ aux.inclusionInputs digest, q ∈ inputs)
    (hin' : ∀ q ∈ aux'.inclusionInputs digest, q ∈ inputs)
    (hroot : MerkleBranch.root (AuxPow.merkleHash digest) (aux.parent_coinbase.hash digest)
        aux.coinbase_merkle_branch =
      MerkleBranch.root (AuxPow.merkleHash digest) (aux'.parent_coinbase.hash digest)
        aux'.coinbase_merkle_branch) :
    aux.parent_coinbase.payload = aux'.parent_coinbase.payload := by
  have htree : Set.InjOn (inputHash (digest .TransactionHash) (AuxPow.merkleHash digest))
      {q | treeInput q ∈ inputs} := by
    intro q hq q' hq' heq
    rw [inputHash_eq, inputHash_eq] at heq
    exact treeInput_injective (hinj hq hq' heq)
  rw [inclusionInputs_eq] at hin hin'
  have hleaf := (root_inj htree
    (fun q hq => hin _ (mem_map_of_mem hq)) (fun q hq => hin' _ (mem_map_of_mem hq))
    hroot).1
  exact payload_eq_of_writeTransaction hleaf

theorem boundPreimage_inj {genesis genesis' hash hash' : Hash}
    (h : AuxPow.boundPreimage genesis hash = AuxPow.boundPreimage genesis' hash') :
    genesis = genesis' ∧ hash = hash' := by
  simp only [AuxPow.boundPreimage, append_assoc] at h
  obtain ⟨hgenesis, hhash⟩ := SelfDelimiting.vector (append_cancel_left h)
  exact ⟨List.Vector.toList_injective hgenesis, List.Vector.toList_injective hhash⟩

/-- One parent solution backs one block under one rule. For every parent header, all headers with
correct hashes that fail their own proof of work and are accepted through witnesses with that
parent, whatever their coinbases and branches, are the same header, accepted under the same rule. -/
theorem one_parent_one_block {F : PowFns} {parent : Header} {header header' : Header}
    {aux aux' : AuxPow} {rule rule' : AuxRule}
    (hhash : header.hash = header.recomputedHash F.digest)
    (hhash' : header'.hash = header'.recomputedHash F.digest)
    (hparent : aux.parent_header = parent) (hparent' : aux'.parent_header = parent)
    (hnative : ((State.new F header).checkPow F header.nonce).1 = false)
    (hnative' : ((State.new F header').checkPow F header'.nonce).1 = false)
    (haccepted : (checkPowGated F header (some aux) rule).1 = true)
    (haccepted' : (checkPowGated F header' (some aux') rule').1 = true)
    (hinj : CollisionFree F.digest
      (acceptanceInputs F.digest header aux rule ++ acceptanceInputs F.digest header' aux' rule')) :
    header = header' ∧ rule = rule' := by
  have hthrough := acceptedThrough_of_checkPowGated hnative haccepted
  have hthrough' := acceptedThrough_of_checkPowGated hnative' haccepted'
  -- One root, so one payload.
  have hpayload : aux.parent_coinbase.payload = aux'.parent_coinbase.payload := by
    refine payload_eq_of_root hinj (fun q hq => ?_) (fun q hq => ?_) ?_
    · exact mem_append_left _ (mem_append_left _ hq)
    · exact mem_append_right _ (mem_append_left _ hq)
    · rw [hthrough.root, hthrough'.root, hparent, hparent']
  have hlegacy : aux.committedHash = aux'.committedHash := by
    rw [AuxPow.committedHash, AuxPow.committedHash, hpayload]
  have hv1 : aux.committedHashV1 = aux'.committedHashV1 := by
    rw [AuxPow.committedHashV1, AuxPow.committedHashV1, hpayload]
  cases hthrough with
  | legacy hcommits hincluded =>
    cases hthrough' with
    | legacy hcommits' hincluded' =>
      -- Both commit to the block hash.
      have hsame : header.hash = header'.hash := by
        rw [hcommits, hcommits'] at hlegacy
        exact some.inj hlegacy
      rw [hhash, hhash'] at hsame
      obtain ⟨-, hpreimage⟩ := hinj.eq (by simp [acceptanceInputs]) (by simp [acceptanceInputs])
        hsame
      obtain ⟨hnonce, hagree⟩ := Header.preimage_inj hpreimage
      exact ⟨Header.eq_of_agree hhash hhash' hnonce hagree, rfl⟩
    | bound genesis hnonce' hnone' hcommits' hincluded' =>
      -- The bound rule rejects a payload with a commitment of the old form.
      rw [hcommits, hnone'] at hlegacy
      cases hlegacy
  | bound genesis hnonce hnone hcommits hincluded =>
    cases hthrough' with
    | legacy hcommits' hincluded' =>
      rw [hcommits', hnone] at hlegacy
      cases hlegacy
    | bound genesis' hnonce' hnone' hcommits' hincluded' =>
      -- Both commit to a genesis and a header without nonce; the nonces come from the parent.
      rw [hcommits, hcommits'] at hv1
      have hbound := some.inj hv1
      obtain ⟨-, hbytes⟩ := hinj.eq (by simp [acceptanceInputs]) (by simp [acceptanceInputs]) hbound
      obtain ⟨rfl, hfree⟩ := boundPreimage_inj hbytes
      obtain ⟨-, hpreimage⟩ := hinj.eq (by simp [acceptanceInputs]) (by simp [acceptanceInputs])
        hfree
      obtain ⟨-, hagree⟩ := Header.preimage_inj hpreimage
      have hnonces : header.nonce = header'.nonce := by rw [hnonce, hnonce', hparent, hparent']
      exact ⟨Header.eq_of_agree hhash hhash' hnonces hagree, rfl⟩

/-! ## A block backed by a parent -/

namespace Sample

/-- A polynomial hash seeded by the domain. -/
def polyDigest (domain : Hasher) (bytes : List UInt8) : Hash :=
  let seed :=
    match domain with
    | .TransactionHash => 3
    | .MerkleBranchHash => 5
    | .BlockHash => 7
  let value := bytes.foldl (fun acc b => (acc * 263 + b.toNat + 1) % (2 ^ 255 - 19)) seed
  ⟨leBytes 32 value, length_leBytes 32 value⟩

/-- Only the nonce 7 clears a target. -/
def functions : PowFns where
  digest := polyDigest
  heavyHash _ _ nonce := if nonce = 7 then 0 else BitVec.allOnes 256

/-- The zero hash. -/
def zeroHash : Hash := List.Vector.replicate 32 0

/-- No parents. -/
def noParents : CompressedParents where
  runs := []
  compressed :=
    { first := fun _ h => (not_mem_none _ h).elim, increasing := .nil, distinct := .nil }

/-- A header with the given Merkle root and nonce. -/
def blank (hash_merkle_root : Hash) (nonce : BitVec 64) : Header where
  hash := zeroHash
  version := 1
  parents_by_level := noParents
  hash_merkle_root
  accepted_id_merkle_root := zeroHash
  utxo_commitment := zeroHash
  timestamp := 5
  bits := 0x03000001
  nonce
  daa_score := 0
  blue_work := 0
  blue_score := 0
  pruning_point := zeroHash

/-- The commitment to a blank header on the chain with the zero genesis. -/
def commitment : Hash :=
  AuxPow.boundCommitment polyDigest zeroHash
    ((blank zeroHash 0).hashOverrideNonceTime polyDigest 0 5)

/-- A coinbase that carries it. Version 0 does not write a compute budget, so inputs that differ in
one are hashed alike. -/
def coinbase (compute_commit : ComputeCommit) : Transaction where
  version := 0
  inputs :=
    ⟨[{ previous_outpoint := { transaction_id := zeroHash, index := 0 }
        signature_script := .empty
        sequence := 0
        compute_commit }], by norm_num⟩
  outputs := .empty
  lock_time := 0
  subnetwork_id := List.Vector.replicate 20 0
  gas := 0
  payload := ⟨AuxPow.embedCommitmentV1 [1, 2] commitment [3], by decide +kernel⟩
  storage_mass := 0

/-- The parent, whose tree has two transactions. -/
def parent : Header :=
  blank (AuxPow.merkleHash polyDigest ((coinbase (.SigopCount 0)).hash polyDigest) zeroHash) 7

/-- A witness with that parent. -/
def auxOf (compute_commit : ComputeCommit) : AuxPow where
  parent_header := parent
  parent_coinbase := coinbase compute_commit
  coinbase_merkle_branch := [zeroHash]

/-- The block, with its nonce bound to the parent. -/
def header : Header := (blank zeroHash (AuxPow.nonceBinding polyDigest parent)).finalize polyDigest

/-- Two witnesses with one parent and different coinbases back one block. -/
theorem one_parent_one_block_bound : auxOf (.SigopCount 0) ≠ auxOf (.ComputeBudget 4) ∧
      (checkPowGated functions header (some (auxOf (.SigopCount 0))) (.Bound zeroHash)).1 = true ∧
      (checkPowGated functions header (some (auxOf (.ComputeBudget 4))) (.Bound zeroHash)).1 =
        true ∧
      header = header ∧ AuxRule.Bound zeroHash = AuxRule.Bound zeroHash := by
  have hnative : ((State.new functions header).checkPow functions header.nonce).1 = false := by
    decide +kernel
  have hfirst : (checkPowGated functions header (some (auxOf (.SigopCount 0)))
      (.Bound zeroHash)).1 = true := by decide +kernel
  have hsecond : (checkPowGated functions header (some (auxOf (.ComputeBudget 4)))
      (.Bound zeroHash)).1 = true := by decide +kernel
  have hfree : ∀ q ∈ acceptanceInputs polyDigest header (auxOf (.SigopCount 0)) (.Bound zeroHash) ++
        acceptanceInputs polyDigest header (auxOf (.ComputeBudget 4)) (.Bound zeroHash),
      ∀ q' ∈ acceptanceInputs polyDigest header (auxOf (.SigopCount 0)) (.Bound zeroHash) ++
        acceptanceInputs polyDigest header (auxOf (.ComputeBudget 4)) (.Bound zeroHash),
      polyDigest q.1 q.2 = polyDigest q'.1 q'.2 → q = q' := by decide +kernel
  have hcommits : ComputeCommit.SigopCount 0 ≠ ComputeCommit.ComputeBudget 4 := by decide
  refine ⟨fun heq => hcommits ?_, hfirst, hsecond, ?_⟩
  · have hinputs := congrArg (fun aux => aux.parent_coinbase.inputs.val) heq
    exact congrArg TransactionInput.compute_commit (cons.inj hinputs).1
  · have hhash : header.hash = header.recomputedHash functions.digest :=
      Header.hash_finalize functions.digest _
    have hparent : ∀ commit, (auxOf commit).parent_header = parent := fun _ => rfl
    exact one_parent_one_block hhash hhash (hparent _) (hparent _) hnative hnative hfirst hsecond
      fun q hq q' hq' heq => hfree q hq q' hq' heq

end Sample

end Zkas.Pow
