import Zkas.Lib.LevelTree
import Zkas.Shielded.Burn

/-!
# Branches of the burn accumulator

`branch` and `verify_branch` of `shielded-core/src/burn.rs`. A branch is a byte string; since the
values of 32 bytes are the type `H`, it is read as the whole chunks of 32 bytes and the bytes after
them. `verify_branch` reads as many bits of the index as the branch has chunks, so an index past the
last leaf of the padded tree is accepted for the receipt at its lowest bits. -/

namespace Zkas

open Framing List Option LevelTree Preimage
open LevelTree (levelUp level node partner path)

variable {H : Type} (hf : HashFns H)

/-- A byte string, in chunks of 32 bytes. -/
structure BranchBytes (H : Type) where
  /-- The whole chunks. -/
  chunks : List H
  /-- The bytes after them. -/
  rest : List UInt8
  rest_lt : rest.length < 32
  deriving DecidableEq

/-- The concatenation of 32-byte values. -/
def BranchBytes.ofHashes (hashes : List H) : BranchBytes H := ⟨hashes, [], by decide⟩

namespace BurnAccumulator

/-- The loop of `branch`. `none` is a panic. -/
def branchLoop : ℕ → List H → H → ℕ → Option (List H)
  | 0, _, _, _ => some []
  | fuel + 1, level, empty, idx => do
    let level := if level.length % 2 = 1 then level ++ [empty] else level
    let sibling ← (if idx % 2 = 0 then level[idx + 1]? else level[idx - 1]?)
    let out ← branchLoop fuel (pairUp hf level) (nodeHash hf empty empty) (idx / 2)
    some (sibling :: out)

variable (acc : BurnAccumulator H)

/-- The sibling path of a leaf. `none` for an index out of range. -/
def branch (index : BitVec 32) : Option (BranchBytes H) :=
  if acc.leaves.length ≤ index.toNat then none
  else (branchLoop hf acc.depth acc.leaves hf.zero index.toNat).map BranchBytes.ofHashes

/-- The lowest bit of `index >> level`. A shift by the width of the word or more panics in a build
with overflow checks, and is taken modulo the width in one without. -/
def indexBit (checked : Bool) (index : BitVec 32) (level : ℕ) : Option Bool :=
  if level < 32 then some ((index >>> level) &&& 1 = 1)
  else if checked then none
  else some ((index >>> (level % 32)) &&& 1 = 1)

/-- The loop of `verify_branch`. `none` is a panic. -/
def verifyLoop (checked : Bool) (index : BitVec 32) : ℕ → H → List H → Option H
  | _, acc, [] => some acc
  | level, acc, sib :: chunks => do
    let right ← indexBit checked index level
    verifyLoop checked index (level + 1)
      (if right then nodeHash hf sib acc else nodeHash hf acc sib) chunks

/-- Replay a branch, in a build with or without overflow checks. `none` is a panic. -/
def verifyBranch [DecidableEq H] (checked : Bool) (receipt : ExitReceipt H) (index : BitVec 32)
    (branch : BranchBytes H) (root : H) : Option Bool :=
  if branch.rest.length ≠ 0 then some false
  else do
    let acc ← verifyLoop hf checked index 0 (receipt.leafHash hf) branch.chunks
    some (acc = root)

/-! ## The accumulator is a tree with empty subtrees as fillers -/

/-- The empty subtrees above an empty one. -/
def emptySubtree (empty : H) : ℕ → H
  | 0 => empty
  | l + 1 => nodeHash hf (emptySubtree empty l) (emptySubtree empty l)

variable {hf}

theorem emptySubtree_nodeHash (empty : H) (l : ℕ) :
    emptySubtree hf (nodeHash hf empty empty) l = emptySubtree hf empty (l + 1) := by
  induction l with
  | zero => rfl
  | succ l ih => rw [emptySubtree, ih]; rfl

theorem pairUp_padded (empty : H) (L : List H) :
    pairUp hf (if L.length % 2 = 1 then L ++ [empty] else L) = levelUp (nodeHash hf) empty L := by
  induction L using twoStepInduction with
  | nil => rfl
  | singleton a => rfl
  | cons_cons a b rest ih =>
    rw [levelUp, ← ih, length_cons, length_cons]
    split_ifs with hodd hodd' hodd'
    · rfl
    · omega
    · omega
    · rfl

theorem fold_eq (fuel : ℕ) (L : List H) (empty : H) :
    fold hf fuel L empty = level (nodeHash hf) (emptySubtree hf empty) L fuel := by
  induction fuel generalizing L empty with
  | zero => rfl
  | succ fuel ih =>
    rw [fold, pairUp_padded, ih, funext (emptySubtree_nodeHash empty)]
    exact level_levelUp fuel

theorem depth_eq : acc.depth = Nat.clog 2 acc.leaves.length := by
  unfold depth
  split_ifs with hlen
  · exact (Nat.clog_of_right_le_one hlen 2).symm
  · have hne : acc.leaves.length - 1 ≠ 0 := by omega
    have hle := Nat.log2_self_le hne
    have hlt := Nat.lt_log2_self (n := acc.leaves.length - 1)
    refine (eq_clog (by omega) ?_).symm
    omega

/-- The accumulator's tree. -/
abbrev treeRoot (hf : HashFns H) (L : List H) : H :=
  LevelTree.root (nodeHash hf) (emptySubtree hf hf.zero) L

theorem root_eq : acc.root hf = treeRoot hf acc.leaves := by
  unfold root
  split_ifs with hempty
  · rw [isEmpty_iff.mp hempty]
    rfl
  · have hpos : 0 < acc.leaves.length :=
      length_pos_iff.mpr fun hnil => hempty (isEmpty_iff.mpr hnil)
    have htop : 0 < (level (nodeHash hf) (emptySubtree hf hf.zero) acc.leaves acc.depth).length :=
      lt_length_level.mpr ((Nat.zero_mul _).trans_lt hpos)
    rw [fold_eq, treeRoot, LevelTree.root, ← depth_eq, node, getD_eq_getElem _ _ htop,
      List.headD_eq_head?_getD, List.head?_eq_getElem?, List.getElem?_eq_getElem htop]
    rfl

theorem sibling_padded {L : List H} {idx : ℕ} (empty : H) (hidx : idx < L.length) :
    (if idx % 2 = 0 then (if L.length % 2 = 1 then L ++ [empty] else L)[idx + 1]?
      else (if L.length % 2 = 1 then L ++ [empty] else L)[idx - 1]?) =
      some (L.getD (partner idx) empty) := by
  unfold partner
  split_ifs with heven hodd hodd
  · -- The last node of an odd level has the filler as its partner.
    by_cases hlast : idx + 1 < L.length
    · rw [getElem?_append_left hlast, getElem?_eq_getElem hlast, getD_eq_getElem _ _ hlast]
    · have hlen : L.length ≤ idx + 1 := by omega
      rw [getElem?_append_right hlen, getD_eq_default _ _ hlen,
        show idx + 1 - L.length = 0 by omega]
      rfl
  · have hlt : idx + 1 < L.length := by omega
    rw [getElem?_eq_getElem hlt, getD_eq_getElem _ _ hlt]
  · have hlt : idx - 1 < L.length := by omega
    rw [getElem?_append_left hlt, getElem?_eq_getElem hlt, getD_eq_getElem _ _ hlt]
  · have hlt : idx - 1 < L.length := by omega
    rw [getElem?_eq_getElem hlt, getD_eq_getElem _ _ hlt]

theorem branchLoop_eq {fuel : ℕ} {L : List H} {empty : H} {idx : ℕ} (hidx : idx < L.length) :
    branchLoop hf fuel L empty idx =
      some (path (nodeHash hf) (emptySubtree hf empty) L idx fuel) := by
  induction fuel generalizing L empty idx with
  | zero => rfl
  | succ fuel ih =>
    have hnext : idx / 2 < (levelUp (nodeHash hf) empty L).length := by
      rw [length_levelUp]
      omega
    rw [branchLoop, path_cons, sibling_padded empty hidx, pairUp_padded, ih hnext,
      funext (emptySubtree_nodeHash empty)]
    rfl

variable {index : BitVec 32}

theorem branch_eq {acc : BurnAccumulator H} (hindex : index.toNat < acc.leaves.length) :
    acc.branch hf index = some (.ofHashes (path (nodeHash hf) (emptySubtree hf hf.zero) acc.leaves
      index.toNat (Nat.clog 2 acc.leaves.length))) := by
  unfold branch
  rw [if_neg (Nat.not_le_of_lt hindex), branchLoop_eq hindex, depth_eq]
  rfl

/-! ## What is verified -/

theorem decide_shift (index : BitVec 32) (l : ℕ) :
    decide ((index >>> l) &&& 1 = 1) = index.getLsbD l := by
  rw [show (1 : BitVec 32) = 1#32 from rfl, BitVec.and_one_eq_setWidth_ofBool_getLsbD,
    BitVec.getLsbD_ushiftRight, add_zero]
  cases index.getLsbD l
  · decide
  · decide

theorem indexBit_of_lt {checked : Bool} {l : ℕ} (hl : l < 32) :
    indexBit checked index l = some (index.getLsbD l) := by
  rw [indexBit, if_pos hl, decide_shift]

theorem eq_getLsbD_of_indexBit {checked : Bool} {l : ℕ} {bit : Bool}
    (h : indexBit checked index l = some bit) : index.getLsbD (l % 32) = bit := by
  unfold indexBit at h
  rw [decide_shift, decide_shift] at h
  split_ifs at h with hl
  · rw [Nat.mod_eq_of_lt hl]
    exact some.inj h
  · exact some.inj h

theorem verifyLoop_eq {checked : Bool} {l i : ℕ} {acc value : H} {chunks : List H}
    (hbit : ∀ k < chunks.length, i.testBit k = index.getLsbD ((l + k) % 32))
    (h : verifyLoop hf checked index l acc chunks = some value) :
    LevelTree.fold (nodeHash hf) acc i chunks = value := by
  induction chunks generalizing l i acc with
  | nil => exact some.inj h
  | cons sib chunks ih =>
    obtain ⟨right, hright, hrest⟩ := bind_eq_some_iff.mp h
    have hzero : decide (i % 2 = 1) = right := by
      rw [← Nat.testBit_zero, hbit 0 (Nat.succ_pos _)]
      exact eq_getLsbD_of_indexBit hright
    have hside : (if right = true then nodeHash hf sib acc else nodeHash hf acc sib) =
        if i % 2 = 0 then nodeHash hf acc sib else nodeHash hf sib acc := by
      rcases Nat.mod_two_eq_zero_or_one i with heven | hodd
      · rw [← hzero, heven]
        rfl
      · rw [← hzero, hodd]
        rfl
    rw [hside] at hrest
    refine ih (fun k hk => ?_) hrest
    rw [← Nat.testBit_succ, hbit (k + 1) (Nat.succ_lt_succ hk), add_right_comm, add_assoc]

theorem exists_verifyLoop (hf : HashFns H) (checked : Bool) (index : BitVec 32) (acc : H) {l : ℕ}
    {chunks : List H} (hlen : l + chunks.length ≤ 32) :
    ∃ value, verifyLoop hf checked index l acc chunks = some value := by
  induction chunks generalizing l acc with
  | nil => exact ⟨acc, rfl⟩
  | cons sib chunks ih =>
    rw [length_cons] at hlen
    rw [verifyLoop, indexBit_of_lt (by omega)]
    exact ih _ (by omega)

section

variable (hsha : Function.Injective hf.sha256)
  (hleaf : ∀ r : ExitReceipt H, r.leafHash hf ≠ hf.zero) (hnode : ∀ a b, nodeHash hf a b ≠ hf.zero)

include hsha in
theorem nodeHash_injective2 : Function.Injective2 (nodeHash hf) := by
  intro a a' b b' h
  have hpre := hsha h
  rw [append_assoc, append_assoc, append_cancel_left_eq, digest_append_inj] at hpre
  exact ⟨hpre.1, by simpa [digest] using hpre.2⟩

include hsha in
theorem leafHash_injective : Function.Injective (ExitReceipt.leafHash hf) := by
  rintro ⟨v, recipient, n⟩ ⟨v', recipient', n'⟩ h
  have hpre := hsha h
  simp only [append_assoc, append_cancel_left_eq] at hpre
  obtain ⟨rfl, hrest⟩ := (word_append_inj (by decide)).mp hpre
  obtain ⟨rfl, hn⟩ := digest_append_inj.mp hrest
  obtain rfl : n = n' := by simpa [digest] using hn
  rfl

include hsha in
theorem nodeHash_ne_leafHash (a b : H) (r : ExitReceipt H) : nodeHash hf a b ≠ r.leafHash hf := by
  intro h
  have hpre := hsha h
  simp only [append_assoc] at hpre
  have hdomain : [NODE_DOMAIN] = [LEAF_DOMAIN] :=
    ((bytes_append_inj
      (show [NODE_DOMAIN].length = [LEAF_DOMAIN].length from rfl)).mp hpre).1
  exact absurd hdomain (by decide)

include hsha hleaf hnode in
theorem fold_ne_emptySubtree (r : ExitReceipt H) (i : ℕ) (b : List H) (l : ℕ) :
    LevelTree.fold (nodeHash hf) (r.leafHash hf) i b ≠ emptySubtree hf hf.zero l := by
  induction l generalizing b with
  | zero =>
    rcases eq_nil_or_concat b with rfl | ⟨b, s, rfl⟩
    · exact hleaf r
    · rw [concat_eq_append, fold_concat]
      split_ifs
      · exact hnode _ _
      · exact hnode _ _
  | succ l ih =>
    rcases eq_nil_or_concat b with rfl | ⟨b, s, rfl⟩
    · exact (nodeHash_ne_leafHash hsha _ _ r).symm
    · rw [concat_eq_append, fold_concat]
      split_ifs
      · exact fun h => ih b (nodeHash_injective2 hsha h).1
      · exact fun h => ih b (nodeHash_injective2 hsha h).2

theorem leaves_fromReceipts (hf : HashFns H) (rs : List (ExitReceipt H)) :
    (fromReceipts hf rs).leaves = rs.map (ExitReceipt.leafHash hf) := by
  rw [fromReceipts, pushAll_eq]
  rfl

theorem verifyLoop_path {checked : Bool} {L : List H} (hlen : L.length < 2 ^ 32) {i : BitVec 32}
    (hi : i.toNat % 2 ^ Nat.clog 2 L.length < L.length) :
    verifyLoop hf checked i 0 (L[i.toNat % 2 ^ Nat.clog 2 L.length])
      (path (nodeHash hf) (emptySubtree hf hf.zero) L (i.toNat % 2 ^ Nat.clog 2 L.length)
        (Nat.clog 2 L.length)) = some (treeRoot hf L) := by
  have hdepth : Nat.clog 2 L.length ≤ 32 := Nat.clog_le_of_le_pow hlen.le
  have hlen_path : 0 + (path (nodeHash hf) (emptySubtree hf hf.zero) L
      (i.toNat % 2 ^ Nat.clog 2 L.length) (Nat.clog 2 L.length)).length ≤ 32 := by
    rw [length_path]
    omega
  obtain ⟨value, hvalue⟩ := exists_verifyLoop hf checked i _ hlen_path
  rw [hvalue, ← verifyLoop_eq (fun k hk => ?_) hvalue, fold_path_root hi]
  rw [length_path] at hk
  rw [Nat.testBit_mod_two_pow, decide_eq_true hk, Bool.true_and, zero_add,
    Nat.mod_eq_of_lt (hk.trans_le hdepth)]
  rfl

include hsha hleaf hnode in
theorem eq_path_of_verifyLoop {checked : Bool} {rs : List (ExitReceipt H)}
    (hlen : rs.length < 2 ^ 32) {L : List H} (hL : L = rs.map (ExitReceipt.leafHash hf))
    {r : ExitReceipt H} {i : BitVec 32} {chunks : List H}
    (h : verifyLoop hf checked i 0 (r.leafHash hf) chunks = some (treeRoot hf L)) :
    L[i.toNat % 2 ^ Nat.clog 2 L.length]? = some (r.leafHash hf) ∧
      chunks = path (nodeHash hf) (emptySubtree hf hf.zero) L (i.toNat % 2 ^ Nat.clog 2 L.length)
        (Nat.clog 2 L.length) := by
  have hfill (j : ℕ) := fold_ne_emptySubtree hsha hleaf hnode r j
  have hbound : ∀ y ∈ L, ∀ a b, nodeHash hf a b ≠ y := by
    rw [hL]
    rintro y hy
    obtain ⟨r', -, rfl⟩ := mem_map.mp hy
    exact fun a b => nodeHash_ne_leafHash hsha a b r'
  -- The bits that are read, as the bits of one number.
  have hfold := verifyLoop_eq (i := Nat.ofBits fun k : Fin chunks.length => i.getLsbD (k % 32))
    (fun k hk => by rw [Nat.testBit_ofBits_lt _ k hk, zero_add]) h
  have hne : L ≠ [] := by
    rintro rfl
    exact hfill _ chunks 0 hfold
  have hpath {j : ℕ} := eq_path_of_fold_root (i := j) (b := chunks)
    (nodeHash_injective2 hsha) hbound (fun a b => nodeHash_ne_leafHash hsha a b r) (hfill j) hne
  have hdepth : chunks.length = Nat.clog 2 L.length := by rw [(hpath hfold).2, length_path]
  have hle : Nat.clog 2 L.length ≤ 32 := by
    rw [hL, length_map]
    exact Nat.clog_le_of_le_pow hlen.le
  -- So they are bits of the index.
  have hindex := hpath (j := i.toNat) ((fold_congr fun k hk => ?_).trans hfold)
  · rwa [hdepth] at hindex
  · rw [Nat.testBit_ofBits_lt _ k hk, Nat.mod_eq_of_lt (by omega)]
    rfl

include hsha hleaf hnode in
/-- A branch is verified if it is that of the receipt at the lowest bits of the index. -/
theorem verifyBranch_iff [DecidableEq H] {rs : List (ExitReceipt H)} (hlen : rs.length < 2 ^ 32)
    {checked : Bool} {r : ExitReceipt H} {i : BitVec 32} {b : BranchBytes H} :
    verifyBranch hf checked r i b ((fromReceipts hf rs).root hf) = some true ↔
      rs[i.toNat % 2 ^ (fromReceipts hf rs).depth]? = some r ∧
        (fromReceipts hf rs).branch hf (.ofNat 32 (i.toNat % 2 ^ (fromReceipts hf rs).depth)) =
          some b := by
  have hL := leaves_fromReceipts hf rs
  generalize fromReceipts hf rs = acc at hL ⊢
  have hlen' : acc.leaves.length = rs.length := by rw [hL, length_map]
  rw [root_eq, depth_eq]
  have hnat : (BitVec.ofNat 32 (i.toNat % 2 ^ Nat.clog 2 acc.leaves.length)).toNat =
      i.toNat % 2 ^ Nat.clog 2 acc.leaves.length := by
    rw [BitVec.toNat_ofNat, Nat.mod_eq_of_lt ((Nat.mod_le _ _).trans_lt i.isLt)]
  have hreceipt : acc.leaves[i.toNat % 2 ^ Nat.clog 2 acc.leaves.length]? = some (r.leafHash hf) ↔
      rs[i.toNat % 2 ^ Nat.clog 2 acc.leaves.length]? = some r := by
    rw [hlen', hL, getElem?_map, map_eq_some_iff]
    exact ⟨fun ⟨_, hr, heq⟩ => leafHash_injective hsha heq ▸ hr, fun hr => ⟨r, hr, rfl⟩⟩
  unfold verifyBranch
  constructor
  · intro h
    split_ifs at h with hrest
    · cases h
    obtain ⟨value, hvalue, hroot⟩ := bind_eq_some_iff.mp h
    rw [some.injEq, decide_eq_true_eq] at hroot
    subst hroot
    obtain ⟨hget, hchunks⟩ := eq_path_of_verifyLoop hsha hleaf hnode hlen hL hvalue
    obtain ⟨hlt, -⟩ := List.getElem?_eq_some_iff.mp hget
    refine ⟨hreceipt.mp hget, ?_⟩
    rw [branch_eq (by rwa [hnat]), hnat, ← hchunks]
    obtain ⟨chunks, rest, hlt32⟩ := b
    obtain rfl : rest = [] := by simpa using hrest
    rfl
  · rintro ⟨hget, hbranch⟩
    obtain ⟨hlt, hleaf'⟩ := List.getElem?_eq_some_iff.mp (hreceipt.mpr hget)
    rw [branch_eq (by rwa [hnat]), hnat] at hbranch
    obtain rfl := some.inj hbranch
    rw [if_neg (by simp [BranchBytes.ofHashes]), ← hleaf', BranchBytes.ofHashes,
      verifyLoop_path (by omega) hlt]
    simp

/-- A branch is verified just if it is that of the receipt at the index, provided that the index is
in the padded tree. An index past it is accepted for the receipt at its lowest bits. -/
theorem verifyBranch_correct_iff [DecidableEq H] (hf : HashFns H)
    (hsha : Function.Injective hf.sha256) (hleaf : ∀ r : ExitReceipt H, r.leafHash hf ≠ hf.zero)
    (hnode : ∀ a b, nodeHash hf a b ≠ hf.zero) (rs : List (ExitReceipt H))
    (hlen : rs.length < 2 ^ 32) (checked : Bool) (r : ExitReceipt H)
    (i : BitVec 32) (b : BranchBytes H) :
    (verifyBranch hf checked r i b ((fromReceipts hf rs).root hf) = some true ↔
      i.toNat < rs.length ∧ rs[i.toNat]? = some r ∧ (fromReceipts hf rs).branch hf i = some b) ↔
    (i.toNat < 2 ^ (fromReceipts hf rs).depth ∨
      ¬ (rs[i.toNat % 2 ^ (fromReceipts hf rs).depth]? = some r ∧
        (fromReceipts hf rs).branch hf (.ofNat 32 (i.toNat % 2 ^ (fromReceipts hf rs).depth)) =
          some b)) := by
  rw [verifyBranch_iff hsha hleaf hnode hlen]
  have hpad : rs.length ≤ 2 ^ (fromReceipts hf rs).depth := by
    rw [depth_eq, leaves_fromReceipts, length_map]
    exact Nat.le_pow_clog one_lt_two _
  by_cases hi : i.toNat < 2 ^ (fromReceipts hf rs).depth
  · rw [Nat.mod_eq_of_lt hi, BitVec.ofNat_toNat, BitVec.setWidth_eq]
    refine iff_of_true ⟨fun h => ⟨?_, h⟩, And.right⟩ (Or.inl hi)
    exact (List.getElem?_eq_some_iff.mp h.1).1
  · have hout : ¬ i.toNat < rs.length := fun hlt => hi (hlt.trans_le hpad)
    rw [or_iff_right hi]
    constructor
    · exact fun h haccept => hout (h.mp haccept).1
    · exact fun h => iff_of_false h fun hspec => hout hspec.1

end

namespace Sample

/-- A receipt. -/
def receipt : ExitReceipt Symbolic.Term := { v := 5, recipient := .atom 1, n := .atom 2 }

/-- Receipts of three amounts. -/
def receipts : List (ExitReceipt Symbolic.Term) := [5, 6, 7].map fun v => { receipt with v }

/-- The second of three receipts has a branch at its index, and no other one is accepted. -/
theorem verifyBranch_correct_iff_three :
    (∃ b, (fromReceipts .symbolic receipts).branch .symbolic 1 = some b) ∧
    ∀ b, verifyBranch .symbolic true { receipt with v := 6 } 1 b
        ((fromReceipts .symbolic receipts).root .symbolic) = some true ↔
      (1 : BitVec 32).toNat < receipts.length ∧
        receipts[(1 : BitVec 32).toNat]? = some { receipt with v := 6 } ∧
        (fromReceipts .symbolic receipts).branch .symbolic 1 = some b :=
  ⟨⟨_, rfl⟩, fun b => (verifyBranch_correct_iff .symbolic (Symbolic.hash_injective _)
    (fun _ h => nomatch h) (fun _ _ h => nomatch h) receipts (by decide) true _ 1 b).mpr
    (Or.inl (by decide))⟩

/-- The only receipt is accepted at another index too, which is not that of a receipt. -/
theorem verifyBranch_second_index : verifyBranch .symbolic true receipt 1 (.ofHashes [])
        ((fromReceipts .symbolic [receipt]).root .symbolic) = some true ∧
      ¬ (1 : BitVec 32).toNat < [receipt].length := by
  decide +kernel

end Sample

end BurnAccumulator

end Zkas
