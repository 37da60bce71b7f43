import Zkas.Lib.Codec
import Zkas.Lib.RunLength

/-!
# Headers and the block hash

The header of a block and its hash, byte for byte as the hasher is fed. The hash functions are the
BLAKE2b instances of the node, one per domain (`Hasher`); `Digest` is any such family. The witness a
header carries for merged mining is not part of what is hashed and is passed beside the header. -/

namespace Zkas.Pow

open Framing SelfDelimiting RunLength

/-- A 32-byte hash. -/
abbrev Hash := List.Vector UInt8 32

/-- The domains of the BLAKE2b hashers. -/
inductive Hasher where
  | TransactionHash
  | MerkleBranchHash
  | BlockHash
  deriving DecidableEq

/-- The hash of a byte string in a domain. -/
abbrev Digest := Hasher → List UInt8 → Hash

/-- No two of the given inputs have the same hash, in one domain or across domains. -/
def CollisionFree (digest : Digest) (inputs : List (Hasher × List UInt8)) : Prop :=
  Set.InjOn (fun q => digest q.1 q.2) {q | q ∈ inputs}

theorem CollisionFree.eq {digest : Digest} {inputs : List (Hasher × List UInt8)}
    (h : CollisionFree digest inputs) {d d' : Hasher} {p p' : List UInt8} (hp : (d, p) ∈ inputs)
    (hp' : (d', p') ∈ inputs) (heq : digest d p = digest d' p') : d = d' ∧ p = p' :=
  Prod.mk.inj (h hp hp' heq)

/-! ## Parents by level -/

/-- The runs of a `CompressedParents`, of levels in `α`. The run `(cum, parents)` covers the levels
below `cum` that no earlier run covers. -/
abbrev Runs (α : Type) := List (UInt8 × α)

namespace Runs

variable {α : Type} {r r' : Runs α}

/-- The runs with counts as numbers. -/
def counted (r : Runs α) : List (ℕ × α) := r.map fun run => (run.1.toNat, run.2)

/-- `expanded_len`. -/
def expandedLen (r : Runs α) : ℕ := (r.getLast?.map fun run => run.1.toNat).getD 0

/-- The levels that runs stand for. -/
def levels (r : Runs α) : List α := expand 0 r.counted

/-- The counts as numbers determine the runs. -/
theorem counted_inj (h : r.counted = r'.counted) : r = r' := by
  refine List.map_injective_iff.mpr (fun a b hab => ?_) h
  exact Prod.ext (UInt8.toNat_inj.mp (Prod.mk.inj hab).1) (Prod.mk.inj hab).2

/-- The last count of compressed runs is the number of their levels. -/
theorem expandedLen_eq (h : Compressed 0 r.counted) : r.expandedLen = r.levels.length := by
  have hlen := length_expand h
  rw [Nat.zero_add, counted, List.getLast?_map, Option.map_map] at hlen
  exact hlen.symm

/-- A count is a byte. -/
theorem expandedLen_le (r : Runs α) : r.expandedLen ≤ 255 := by
  unfold expandedLen
  cases r.getLast? with
  | none => exact Nat.zero_le _
  | some run => exact Nat.le_of_lt_succ run.1.toNat_lt

end Runs

/-- The run-length encoded parents of a header, level by level. -/
structure CompressedParents where
  runs : Runs (Vec Hash)
  compressed : Compressed 0 runs.counted

/-- The parents of every level. The counts increase strictly, so the expansion does not panic. -/
def CompressedParents.expandedIter (parents : CompressedParents) : List (Vec Hash) :=
  parents.runs.levels

variable {parents parents' : CompressedParents}

/-- The levels determine the runs. -/
theorem CompressedParents.expandedIter_injective
    (h : parents.expandedIter = parents'.expandedIter) : parents = parents' := by
  obtain ⟨runs, hruns⟩ := parents
  obtain ⟨runs', hruns'⟩ := parents'
  obtain rfl : runs = runs' := Runs.counted_inj (expand_inj hruns hruns' h)
  rfl

/-! ## Headers -/

/-- A block header. -/
structure Header where
  /-- Cached hash. -/
  hash : Hash
  version : BitVec 16
  parents_by_level : CompressedParents
  hash_merkle_root : Hash
  accepted_id_merkle_root : Hash
  utxo_commitment : Hash
  /-- Milliseconds. -/
  timestamp : BitVec 64
  bits : BitVec 32
  nonce : BitVec 64
  daa_score : BitVec 64
  blue_work : BitVec 192
  blue_score : BitVec 64
  pruning_point : Hash

namespace Header

/-- One level of parents: how many, and their hashes. -/
def writeVarArray (level : Vec Hash) : List UInt8 := vecBytes List.Vector.toList level.val

/-- The accumulated work as its big-endian bytes without the leading zeros. -/
def writeBlueWork (work : BitVec 192) : List UInt8 := varBytes (trimmedBytes work)

variable (digest : Digest) (header : Header)

/-- The fields before the nonce. -/
def beforeNonce (timestamp : BitVec 64) : List UInt8 :=
  wordBytes header.version ++ lenBytes header.parents_by_level.runs.expandedLen ++
    header.parents_by_level.expandedIter.flatMap writeVarArray ++
    header.hash_merkle_root.toList ++ header.accepted_id_merkle_root.toList ++
    header.utxo_commitment.toList ++ wordBytes timestamp ++ wordBytes header.bits

/-- The fields after the nonce. -/
def afterNonce : List UInt8 :=
  wordBytes header.daa_score ++ wordBytes header.blue_score ++ writeBlueWork header.blue_work ++
    header.pruning_point.toList

/-- What the block hasher is fed, with the given nonce and timestamp in place of the header's. -/
def preimage (nonce timestamp : BitVec 64) : List UInt8 :=
  header.beforeNonce timestamp ++ wordBytes nonce ++ header.afterNonce

/-- The header hash with the given nonce and timestamp in place of the header's. -/
def hashOverrideNonceTime (nonce timestamp : BitVec 64) : Hash :=
  digest .BlockHash (header.preimage nonce timestamp)

/-- The header hash. -/
def recomputedHash : Hash := header.hashOverrideNonceTime digest header.nonce header.timestamp

/-- Recompute the cached hash. -/
def finalize : Header := { header with hash := header.recomputedHash digest }

theorem hash_finalize :
    (header.finalize digest).hash = (header.finalize digest).recomputedHash digest :=
  rfl

end Header

/-! ## What the preimage determines -/

theorem selfDelimiting_writeVarArray : SelfDelimiting Header.writeVarArray := vector.vec

theorem writeVarArray_injective : Function.Injective Header.writeVarArray := by
  intro level level' h
  have happend : vecBytes List.Vector.toList level.val ++ [] =
      vecBytes List.Vector.toList level'.val ++ [] := by
    rw [List.append_nil, List.append_nil]
    exact h
  exact Subtype.ext (vecBytes_append_inj_of_injective vector
    List.Vector.toList_injective level.property level'.property happend).1

/-- Two headers agree on every hashed field other than the nonce. -/
structure Header.AgreeButNonce (header header' : Header) : Prop where
  version : header.version = header'.version
  parents_by_level : header.parents_by_level = header'.parents_by_level
  hash_merkle_root : header.hash_merkle_root = header'.hash_merkle_root
  accepted_id_merkle_root : header.accepted_id_merkle_root = header'.accepted_id_merkle_root
  utxo_commitment : header.utxo_commitment = header'.utxo_commitment
  timestamp : header.timestamp = header'.timestamp
  bits : header.bits = header'.bits
  daa_score : header.daa_score = header'.daa_score
  blue_work : header.blue_work = header'.blue_work
  blue_score : header.blue_score = header'.blue_score
  pruning_point : header.pruning_point = header'.pruning_point

theorem levels_append_inj {r r' : List UInt8}
    (h : lenBytes parents.runs.expandedLen ++
        (parents.expandedIter.flatMap Header.writeVarArray ++ r) =
      lenBytes parents'.runs.expandedLen ++
        (parents'.expandedIter.flatMap Header.writeVarArray ++ r')) :
    parents = parents' ∧ r = r' := by
  have hbound (p : CompressedParents) : p.runs.expandedLen < 2 ^ 64 :=
    p.runs.expandedLen_le.trans_lt (by norm_num)
  obtain ⟨hlen, htail⟩ := lenBytes_append_inj (hbound parents) (hbound parents') h
  rw [Runs.expandedLen_eq parents.compressed, Runs.expandedLen_eq parents'.compressed] at hlen
  obtain ⟨hmap, hrest⟩ := selfDelimiting_writeVarArray.flatMap hlen htail
  have hlevels : parents.expandedIter = parents'.expandedIter :=
    List.map_injective_iff.mpr writeVarArray_injective hmap
  exact ⟨CompressedParents.expandedIter_injective hlevels, hrest⟩

theorem writeBlueWork_append_inj {work work' : BitVec 192} {r r' : List UInt8}
    (h : Header.writeBlueWork work ++ r = Header.writeBlueWork work' ++ r') :
    work = work' ∧ r = r' := by
  have hbound : ∀ w : BitVec 192, (trimmedBytes w).length < 2 ^ 64 := fun w =>
    (length_trimmedBytes_le w).trans_lt (by norm_num)
  obtain ⟨hbytes, hrest⟩ := varBytes_append_inj (hbound work) (hbound work') h
  exact ⟨trimmedBytes_inj (by norm_num) hbytes, hrest⟩

theorem Header.preimage_inj {header header' : Header} {nonce nonce' : BitVec 64}
    (h : header.preimage nonce header.timestamp = header'.preimage nonce' header'.timestamp) :
    nonce = nonce' ∧ header.AgreeButNonce header' := by
  simp only [preimage, beforeNonce, afterNonce, List.append_assoc] at h
  -- Field by field, in the order in which they are written.
  obtain ⟨hversion, h⟩ := word h
  obtain ⟨hparents, h⟩ := levels_append_inj h
  obtain ⟨hmerkle, h⟩ := vector h
  obtain ⟨haccepted, h⟩ := vector h
  obtain ⟨hutxo, h⟩ := vector h
  obtain ⟨htimestamp, h⟩ := word h
  obtain ⟨hbits, h⟩ := word h
  obtain ⟨hnonce, h⟩ := word h
  obtain ⟨hdaa, h⟩ := word h
  obtain ⟨hscore, h⟩ := word h
  obtain ⟨hwork, hpruning⟩ := writeBlueWork_append_inj h
  refine ⟨wordBytes_inj (by norm_num) hnonce, ?_⟩
  exact
    { version := wordBytes_inj (by norm_num) hversion
      parents_by_level := hparents
      hash_merkle_root := List.Vector.toList_injective hmerkle
      accepted_id_merkle_root := List.Vector.toList_injective haccepted
      utxo_commitment := List.Vector.toList_injective hutxo
      timestamp := wordBytes_inj (by norm_num) htimestamp
      bits := wordBytes_inj (by norm_num) hbits
      daa_score := wordBytes_inj (by norm_num) hdaa
      blue_work := hwork
      blue_score := wordBytes_inj (by norm_num) hscore
      pruning_point := List.Vector.toList_injective hpruning }

/-- Headers with recomputed hashes that agree on the nonce and on every other hashed field are one
header. -/
theorem Header.eq_of_agree {digest : Digest} {header header' : Header}
    (hhash : header.hash = header.recomputedHash digest)
    (hhash' : header'.hash = header'.recomputedHash digest)
    (hnonce : header.nonce = header'.nonce) (h : header.AgreeButNonce header') :
    header = header' := by
  obtain ⟨hash, version, parents, merkle, accepted, utxo, timestamp, bits, nonce, daa, work, score,
    pruning⟩ := header
  obtain ⟨hash', version', parents', merkle', accepted', utxo', timestamp', bits', nonce', daa',
    work', score', pruning'⟩ := header'
  obtain ⟨rfl, rfl, rfl, rfl, rfl, rfl, rfl, rfl, rfl, rfl, rfl⟩ := h
  obtain rfl : nonce = nonce' := hnonce
  have hsame : hash = hash' := hhash.trans hhash'.symm
  rw [hsame]

end Zkas.Pow
