import Zkas.Lib.Checked
import Zkas.Lib.Symbolic
import Zkas.Merkle.Streaming
import Zkas.Pow.PayloadCommitment

/-!
# The witness of a sequencing commitment

`SeqCommitWitness` of `shielded-core/src/witness_chain.rs` recomputes the sequencing commitment of a
chain block from a merge-mined block of its mergeset and checks which hash that block's payload
commits to. The hashes are those of `seq-commit/src/hashing.rs`, over values `H`. The other leaves
and the index are up to whoever makes the witness; the commitment still fixes the Merkle root over
the leaves of the mergeset (`leaf_mem_of_root`). -/

namespace Zkas.WitnessChain

open Framing List Merkle Preimage Pow.Sample Pow.AuxPow
open Zkas.Pow (extractHfc_eq_some Commits MERGE_MINE_MAGIC)
open Zkas.Pow.WitnessChain (extractHfc)

/-- The hash functions of the sequencing commitment. -/
structure SeqHashFns (H : Type) where
  /-- `PayloadDigest`. -/
  payloadDigest : List UInt8 → H
  /-- `SeqCommitMinerPayloadLeaf`. -/
  minerPayloadLeaf : Preimage H → H
  /-- `SeqCommitMerkleBranch`, of two hashes. -/
  merkleBranch : H → H → H
  /-- The hash of `activity_root_hash`, of two hashes. -/
  activityRoot : H → H → H
  /-- `ZERO_HASH`. -/
  zero : H

variable {H : Type} (F : SeqHashFns H)

/-! ## Hashing -/

/-- `MinerPayloadLeafInput`. -/
structure MinerPayloadLeafInput (H : Type) where
  block_hash : H
  blue_work_be_bytes : List UInt8
  payload : List UInt8
  deriving DecidableEq

/-- The bytes from the first that is not zero. -/
def stripped (blue_work_be_bytes : List UInt8) : List UInt8 := blue_work_be_bytes.dropWhile (· = 0)

/-- `write_blue_work_be`. -/
def writeBlueWorkBe (blue_work_be_bytes : List UInt8) : Preimage H :=
  Preimage.word (BitVec.ofNat 64 (stripped blue_work_be_bytes).length) ++
    bytes (stripped blue_work_be_bytes)

/-- `miner_payload_leaf`. -/
def minerPayloadLeaf (input : MinerPayloadLeafInput H) : H :=
  F.minerPayloadLeaf (digest input.block_hash ++
    writeBlueWorkBe input.blue_work_be_bytes ++ digest (F.payloadDigest input.payload))

variable (leaves : List H)

/-- `miner_payload_root`. `none` is a panic. -/
def minerPayloadRoot : Option H := calcMerkleRootWithHasher F.merkleBranch F.zero leaves

/-- `payload_and_context_digest`. -/
def payloadAndContextDigest (context_hash payload_root : H) : H :=
  F.merkleBranch context_hash payload_root

/-- `seq_state_root`. -/
def seqStateRoot (activity_root payload_and_ctx_digest : H) : H :=
  F.merkleBranch activity_root payload_and_ctx_digest

/-- `seq_commit`. -/
def seqCommit (parent_seq_commit state_root : H) : H := F.merkleBranch parent_seq_commit state_root

variable (context_hash lanes_root inactivity_shortcut parent_seq_commit : H)

/-- The commitment that consensus computes for a chain block. `none` is a panic. -/
def consensusSeqCommit : Option H := do
  let payload_root ← minerPayloadRoot F leaves
  let pd := payloadAndContextDigest F context_hash payload_root
  let state_root := seqStateRoot F (F.activityRoot inactivity_shortcut lanes_root) pd
  some (seqCommit F parent_seq_commit state_root)

/-! ## Witnesses -/

/-- `WitnessError`. -/
inductive WitnessError where
  | NoCommitment
  | LeafIndexOutOfRange
  | TargetNotInMergeset
  deriving DecidableEq

/-- `SeqCommitWitness`. -/
structure SeqCommitWitness (H : Type) where
  kaspa_payload : List UInt8
  block_hash : H
  blue_work_be : List UInt8
  other_leaves : List H
  leaf_index : ℕ
  activity_root : H
  context_hash : H
  parent_seq_commit : H
  deriving DecidableEq

namespace SeqCommitWitness

variable (w : SeqCommitWitness H)

/-- What the leaf of the witness's block is computed from. -/
def input : MinerPayloadLeafInput H := ⟨w.block_hash, w.blue_work_be, w.kaspa_payload⟩

/-- `assemble`. -/
def assemble [DecidableEq H] (block_hash : H) (blue_work_be kaspa_payload : List UInt8)
    (mergeset_leaves : List H) (context_hash lanes_root inactivity_shortcut parent_seq_commit : H) :
    Except (Fault WitnessError) (SeqCommitWitness H) := do
  let our_leaf := minerPayloadLeaf F ⟨block_hash, blue_work_be, kaspa_payload⟩
  match mergeset_leaves.findIdx? (· = our_leaf) with
  | none => .error (.err .TargetNotInMergeset)
  | some leaf_index =>
    .ok { kaspa_payload, block_hash, blue_work_be
          other_leaves := mergeset_leaves.eraseIdx leaf_index
          leaf_index
          activity_root := F.activityRoot inactivity_shortcut lanes_root
          context_hash, parent_seq_commit }

/-- `hfc`. -/
def hfc : Option Pow.Hash := extractHfc w.kaspa_payload

/-- `all_leaves`. -/
def allLeaves : Except (Fault WitnessError) (List H) :=
  if w.other_leaves.length < w.leaf_index then .error (.err .LeafIndexOutOfRange)
  else .ok (w.other_leaves.insertIdx w.leaf_index (minerPayloadLeaf F w.input))

/-- `recompute_seq_commit`. -/
def recomputeSeqCommit : Except (Fault WitnessError) H := do
  let leaves ← w.allLeaves F
  match minerPayloadRoot F leaves with
  | none => .error .panic
  | some payload_root =>
    let pd := payloadAndContextDigest F w.context_hash payload_root
    let state_root := seqStateRoot F w.activity_root pd
    .ok (seqCommit F w.parent_seq_commit state_root)

/-- `verify`. -/
def verify [DecidableEq H] (expected_hfc : Pow.Hash)
    (expected_seq_commit : H) : Except (Fault WitnessError) Bool :=
  match w.hfc with
  | none => .error (.err .NoCommitment)
  | some hfc =>
    if hfc ≠ expected_hfc then .ok false
    else do
      let recomputed ← w.recomputeSeqCommit F
      .ok (recomputed = expected_seq_commit)

end SeqCommitWitness

/-! ## Leaves -/

/-- The miner-payload, leaf and branch hashes are injective, with disjoint ranges without the zero
hash. -/
structure SeqHashFns.Ideal (F : SeqHashFns H) : Prop where
  payload_inj : Function.Injective F.payloadDigest
  leaf_inj : Function.Injective F.minerPayloadLeaf
  branch_inj : Function.Injective2 F.merkleBranch
  payload_ne_leaf (p q) : F.payloadDigest p ≠ F.minerPayloadLeaf q
  payload_ne_branch (p a b) : F.payloadDigest p ≠ F.merkleBranch a b
  leaf_ne_branch (q a b) : F.minerPayloadLeaf q ≠ F.merkleBranch a b
  payload_ne_zero (p) : F.payloadDigest p ≠ F.zero
  leaf_ne_zero (q) : F.minerPayloadLeaf q ≠ F.zero
  branch_ne_zero (a b) : F.merkleBranch a b ≠ F.zero

variable {F}

/-- A leaf determines the block hash, the blue work without leading zeros and the payload. -/
theorem minerPayloadLeaf_inj (hF : F.Ideal) {m n : MinerPayloadLeafInput H}
    (h : minerPayloadLeaf F m = minerPayloadLeaf F n) :
    m.block_hash = n.block_hash ∧ stripped m.blue_work_be_bytes = stripped n.blue_work_be_bytes ∧
      m.payload = n.payload := by
  have hpre := hF.leaf_inj h
  rw [append_assoc, append_assoc, digest_append_inj] at hpre
  obtain ⟨hblock, hrest⟩ := hpre
  obtain ⟨hwork, hpayload⟩ := append_inj' hrest rfl
  have hlen (x y : BitVec 64) : (Preimage.word x : Preimage H).length =
      (Preimage.word y : Preimage H).length := by
    simp [Preimage.word]
  refine ⟨hblock, bytes_inj.mp (append_inj hwork (hlen _ _)).2, hF.payload_inj ?_⟩
  simpa [digest] using hpayload

theorem isLeaf_minerPayloadLeaf (hF : F.Ideal) (m : MinerPayloadLeafInput H) :
    Merkle.IsLeaf F.merkleBranch F.zero (minerPayloadLeaf F m) :=
  ⟨hF.leaf_ne_zero _, fun a b h => hF.leaf_ne_branch _ a b h.symm⟩

/-- If a list has the root of a list of leaves, then a leaf that is in it is in the other. The rest
of it need not be leaves. -/
theorem leaf_mem_of_root (hF : F.Ideal) {L all : List H} {x : H}
    (hL : ∀ y ∈ L, Merkle.IsLeaf F.merkleBranch F.zero y)
    (hx : Merkle.IsLeaf F.merkleBranch F.zero x) (hmem : x ∈ all)
    (h : minerPayloadRoot F all = minerPayloadRoot F L) : x ∈ L := by
  obtain ⟨i, hi, rfl⟩ := getElem_of_mem hmem
  rw [minerPayloadRoot, minerPayloadRoot, calcMerkleRootWithHasher_eq,
    calcMerkleRootWithHasher_eq, Option.some.injEq] at h
  -- The path in one tree is a path in the other.
  have hfold := (LevelTree.fold_path_root hi).trans h
  obtain ⟨-, hget, -⟩ := eq_witness_of_fold hF.branch_inj hF.branch_ne_zero hL hx hfold
  exact mem_of_getElem? hget

/-! ## Soundness and completeness -/

theorem consensusSeqCommit_eq :
    consensusSeqCommit F leaves context_hash lanes_root inactivity_shortcut parent_seq_commit =
      some (F.merkleBranch parent_seq_commit (F.merkleBranch
        (F.activityRoot inactivity_shortcut lanes_root)
        (F.merkleBranch context_hash (root F.merkleBranch F.zero leaves)))) := by
  rw [consensusSeqCommit, minerPayloadRoot, calcMerkleRootWithHasher_eq]
  rfl

variable {w : SeqCommitWitness H} {leaves : List H}

theorem recomputeSeqCommit_eq (hleaves : w.allLeaves F = .ok leaves) :
    w.recomputeSeqCommit F = .ok (F.merkleBranch w.parent_seq_commit (F.merkleBranch w.activity_root
        (F.merkleBranch w.context_hash (root F.merkleBranch F.zero leaves)))) := by
  rw [SeqCommitWitness.recomputeSeqCommit, hleaves, Except.ok_bind, minerPayloadRoot,
    calcMerkleRootWithHasher_eq]
  rfl

/-- A verified witness recomputes the commitment over its leaves, and its payload commits. -/
theorem verify_eq_ok_true [DecidableEq H] {h : Pow.Hash} {sc : H} :
    w.verify F h sc = .ok true ↔
      Commits MERGE_MINE_MAGIC w.kaspa_payload h ∧ w.recomputeSeqCommit F = .ok sc := by
  rw [← extractHfc_eq_some, SeqCommitWitness.verify, SeqCommitWitness.hfc]
  cases hhfc : extractHfc w.kaspa_payload with
  | none => exact iff_of_false nofun fun hspec => nomatch hspec.1
  | some hfc =>
    dsimp only
    rw [Option.some.injEq]
    split_ifs with hne
    · exact iff_of_false (by simp) fun hspec => hne hspec.1
    · rw [not_not] at hne
      simp [Except.bind_eq_ok_iff, hne]

theorem leaf_mem_allLeaves
    (hleaves : w.allLeaves F = .ok leaves) : minerPayloadLeaf F w.input ∈ leaves := by
  unfold SeqCommitWitness.allLeaves at hleaves
  split_ifs at hleaves with hindex
  obtain rfl := Except.ok.inj hleaves
  exact (mem_insertIdx (by omega)).mpr (Or.inl rfl)

/-- For a leaf of the mergeset a witness is assembled, and its leaves are those of the mergeset. -/
theorem exists_assemble [DecidableEq H] {block : MinerPayloadLeafInput H}
    (hmem : minerPayloadLeaf F block ∈ leaves)
    (context_hash lanes_root inactivity_shortcut parent_seq_commit : H) :
    ∃ w, SeqCommitWitness.assemble F block.block_hash block.blue_work_be_bytes block.payload leaves
        context_hash lanes_root inactivity_shortcut parent_seq_commit = .ok w ∧
      w.allLeaves F = .ok leaves ∧ w.kaspa_payload = block.payload ∧
      w.activity_root = F.activityRoot inactivity_shortcut lanes_root ∧
      w.context_hash = context_hash ∧ w.parent_seq_commit = parent_seq_commit := by
  obtain ⟨i, hi⟩ : ∃ i, leaves.findIdx? (· = minerPayloadLeaf F block) = some i := by
    rw [← Option.isSome_iff_exists, findIdx?_isSome, any_eq_true]
    exact ⟨_, hmem, by simp⟩
  obtain ⟨hlt, hleaf, -⟩ := findIdx?_eq_some_iff_getElem.mp hi
  have hlen : ¬ (leaves.eraseIdx i).length < i := by
    rw [length_eraseIdx_of_lt hlt]
    omega
  have hinsert : (leaves.eraseIdx i).insertIdx i (minerPayloadLeaf F block) = leaves := by
    rw [← of_decide_eq_true hleaf]
    exact insertIdx_eraseIdx_getElem hlt
  refine ⟨_, by rw [SeqCommitWitness.assemble, hi], ?_, rfl, rfl, rfl, rfl⟩
  unfold SeqCommitWitness.allLeaves
  rw [if_neg hlen]
  exact congrArg Except.ok hinsert

/-- Against the commitment of a chain block, a witness is verified only for a block of the mergeset
whose payload commits to the hash in one place, whatever its other fields; and for each such block a
witness is assembled that is verified. -/
theorem seqCommitWitness_correct [DecidableEq H] (F : SeqHashFns H) (hF : F.Ideal)
    (blocks : List (MinerPayloadLeafInput H))
    (context_hash lanes_root inactivity_shortcut parent_seq_commit sc : H)
    (hsc : consensusSeqCommit F (blocks.map (minerPayloadLeaf F)) context_hash lanes_root
      inactivity_shortcut parent_seq_commit = some sc) :
    (∀ (w : SeqCommitWitness H) (h : Pow.Hash), w.verify F h sc = .ok true →
      minerPayloadLeaf F w.input ∈ blocks.map (minerPayloadLeaf F) ∧
      (∃ block ∈ blocks, block.block_hash = w.block_hash ∧
        stripped block.blue_work_be_bytes = stripped w.blue_work_be ∧
        block.payload = w.kaspa_payload) ∧
      Commits MERGE_MINE_MAGIC w.kaspa_payload h) ∧
    (∀ (block : MinerPayloadLeafInput H) (h : Pow.Hash),
      minerPayloadLeaf F block ∈ blocks.map (minerPayloadLeaf F) →
      Commits MERGE_MINE_MAGIC block.payload h →
      ∃ w, SeqCommitWitness.assemble F block.block_hash block.blue_work_be_bytes block.payload
          (blocks.map (minerPayloadLeaf F)) context_hash lanes_root inactivity_shortcut
          parent_seq_commit = .ok w ∧
        w.verify F h sc = .ok true) := by
  rw [consensusSeqCommit_eq, Option.some.injEq] at hsc
  constructor
  · intro w h hverify
    obtain ⟨hcommits, hrecompute⟩ := verify_eq_ok_true.mp hverify
    obtain ⟨leaves, hleaves, -⟩ := Except.bind_eq_ok_iff.mp hrecompute
    rw [recomputeSeqCommit_eq hleaves, Except.ok.injEq, ← hsc] at hrecompute
    -- The four uses of the branch hash are peeled off one after the other.
    have hstate := (hF.branch_inj hrecompute).2
    have hdigest := (hF.branch_inj hstate).2
    have hroot := (hF.branch_inj hdigest).2
    have hmem : minerPayloadLeaf F w.input ∈ blocks.map (minerPayloadLeaf F) := by
      refine leaf_mem_of_root hF (fun y hy => ?_) (isLeaf_minerPayloadLeaf hF w.input)
        (leaf_mem_allLeaves hleaves) ?_
      · obtain ⟨block, -, rfl⟩ := mem_map.mp hy
        exact isLeaf_minerPayloadLeaf hF block
      · rw [minerPayloadRoot, minerPayloadRoot, calcMerkleRootWithHasher_eq,
          calcMerkleRootWithHasher_eq, hroot]
    obtain ⟨block, hblock, hleaf⟩ := mem_map.mp hmem
    exact ⟨hmem, ⟨block, hblock, minerPayloadLeaf_inj hF hleaf⟩, hcommits⟩
  · intro block h hmem hcommits
    obtain ⟨w, hassemble, hleaves, hpayload, hactivity, hcontext, hparent⟩ :=
      exists_assemble hmem context_hash lanes_root inactivity_shortcut parent_seq_commit
    refine ⟨w, hassemble, verify_eq_ok_true.mpr ⟨hpayload ▸ hcommits, ?_⟩⟩
    rw [recomputeSeqCommit_eq hleaves, hactivity, hcontext, hparent, hsc]

namespace Sample

/-- Symbolic hash functions. -/
def functions : SeqHashFns Symbolic.Term where
  payloadDigest payload := Symbolic.hash "PayloadDigest" (bytes payload)
  minerPayloadLeaf := Symbolic.hash "SeqCommitMinerPayloadLeaf"
  merkleBranch a b := Symbolic.hash "SeqCommitMerkleBranch" (digest a ++ digest b)
  activityRoot a b := Symbolic.hash "SeqCommitActivityRoot" (digest a ++ digest b)
  zero := .atom 0

theorem functions_ideal : functions.Ideal where
  payload_inj _ _ h := bytes_inj.mp (Symbolic.hash_injective _ h)
  leaf_inj := Symbolic.hash_injective _
  branch_inj a a' b b' h := by
    obtain ⟨ha, hb⟩ := digest_append_inj.mp (Symbolic.hash_injective _ h)
    exact ⟨ha, by simpa [digest] using hb⟩
  payload_ne_leaf _ _ h := absurd (Symbolic.Term.hash.inj h).1 (by decide)
  payload_ne_branch _ _ _ h := absurd (Symbolic.Term.hash.inj h).1 (by decide)
  leaf_ne_branch _ _ _ h := absurd (Symbolic.Term.hash.inj h).1 (by decide)
  payload_ne_zero _ h := nomatch h
  leaf_ne_zero _ h := nomatch h
  branch_ne_zero _ _ h := nomatch h

/-- A mergeset of two blocks, the second of which is merge-mined. -/
def mergeset : List (MinerPayloadLeafInput Symbolic.Term) :=
  [⟨.atom 1, [0, 7], [1]⟩,
    ⟨.atom 2, [0, 9], embedCommitment [5] zeroHash [6]⟩]

/-- A witness for the second block is assembled and verified. -/
theorem seqCommitWitness_correct_second : ∃ sc w, SeqCommitWitness.assemble functions (.atom 2) [9]
        (embedCommitment [5] zeroHash [6])
        (mergeset.map (minerPayloadLeaf functions)) (.atom 3) (.atom 4) (.atom 5) (.atom 6) =
          .ok w ∧
      w.verify functions zeroHash sc = .ok true := by
  have hcommits : Commits MERGE_MINE_MAGIC (embedCommitment [5] zeroHash [6]) zeroHash := by
    refine extractHfc_eq_some.mp ?_
    decide +kernel
  have hmem : minerPayloadLeaf functions ⟨.atom 2, [9], embedCommitment [5] zeroHash [6]⟩ ∈
      mergeset.map (minerPayloadLeaf functions) := by
    decide +kernel
  have hsc := consensusSeqCommit_eq (F := functions) (mergeset.map (minerPayloadLeaf functions))
    (.atom 3) (.atom 4) (.atom 5) (.atom 6)
  exact ⟨_, (seqCommitWitness_correct functions functions_ideal mergeset _ _ _ _ _ hsc).2
    ⟨.atom 2, [9], _⟩ _ hmem hcommits⟩

end Sample

end Zkas.WitnessChain
