import Zkas.Shielded.Tree

/-!
# Replaying the archive

Model of `replay_frontier_streaming_capturing` of `consensus/src/processes/shielded.rs`: the leaves
of a stream of blocks are appended to an empty note-commitment tree, the coinbase commitments of a
block first and then those of its accepted compact actions, and the frontier is captured after each
labelled block. The compact actions of a transaction are cut out of one blob; bytes left over at its
end are ignored. -/

namespace Zkas.History

open List Except GlobalTree

variable {H N : Type} {ε L : Type}

/-! ## The leaves of a block -/

/-- Bytes of a compact action: nullifier, commitment, ephemeral key and ciphertext. -/
def SERIALIZED_LEN : ℕ := 148

/-- The whole pieces of a given size, without what is left over. -/
def chunksExact (size : ℕ) (bytes : List UInt8) : List (List UInt8) :=
  (range (bytes.length / size)).map fun i => (bytes.drop (i * size)).take size

/-- The compact actions of a blob. -/
def compactActions (action_bytes : List UInt8) : List (List UInt8) :=
  chunksExact SERIALIZED_LEN action_bytes

/-- A block of the stream: its label, its coinbase commitments and the blobs of its accepted
transactions. -/
structure ReplayBlock (H L : Type) where
  label : Option L
  coinbase : List H
  accepted : List (List UInt8)

/-- The leaves of a block in the order they are appended; `ofBytes` reads 32 bytes. -/
def ReplayBlock.leaves (ofBytes : List UInt8 → H) (b : ReplayBlock H L) : List H :=
  b.coinbase ++ b.accepted.flatMap fun actions =>
    (compactActions actions).map fun action => ofBytes ((action.drop 32).take 32)

/-- The nullifiers of a block. -/
def ReplayBlock.nullifiers (ofBytes : List UInt8 → H) (b : ReplayBlock H L) : List H :=
  b.accepted.flatMap fun actions =>
    (compactActions actions).map fun action => ofBytes (action.take 32)

/-! ## The replay -/

/-- Why a replay stops: at data that makes no tree, or at a block that cannot be read. -/
inductive ReplayError (ε : Type) where
  | data (e : TreeStateError)
  | source (e : ε)

/-- The tree so far, the number of its leaves and the frontiers captured. -/
structure Replay (T : NoteTree H N) (L : Type) where
  tree : GlobalTree T
  leaves : ℕ
  checkpoints : List (L × FrontierState H)

variable (T : NoteTree H N) (ofBytes : List UInt8 → H)

/-- Append one leaf. -/
def Replay.append (r : Replay T L) (cmx : H) : Except (ReplayError ε) (Replay T L) := do
  let c ← (T.fromBytes cmx).okOr (.data .NonCanonicalNode)
  let tree ← (r.tree.append T c).mapError fun _ => .data .Inconsistent
  return { r with tree, leaves := r.leaves + 1 }

/-- Capture the frontier for a label. -/
def Replay.capture (r : Replay T L) : Option L → Replay T L
  | none => r
  | some label => { r with checkpoints := r.checkpoints ++ [(label, r.tree.toState T)] }

/-- Append the leaves of the next block and capture the frontier if it is labelled. -/
def Replay.block (r : Replay T L) (b : Except ε (ReplayBlock H L)) :
    Except (ReplayError ε) (Replay T L) := do
  let b ← b.mapError .source
  let r' ← (b.leaves ofBytes).foldlM (Replay.append T) r
  return r'.capture T b.label

/-- Replay a stream of blocks into an empty tree. -/
def replayFrontierStreamingCapturing (blocks : List (Except ε (ReplayBlock H L))) :
    Except (ReplayError ε) (Replay T L) :=
  blocks.foldlM (Replay.block T ofBytes) { tree := .new T, leaves := 0, checkpoints := [] }

variable {T ofBytes}

theorem foldlM_append_eq_ok {ls : List H} {r r' : Replay T L} :
    ls.foldlM (Replay.append T) r = (.ok r' : Except (ReplayError ε) _) ↔
      ∃ cs, ls.mapM T.fromBytes = some cs ∧ r.tree.appendSubtree T cs = .ok r'.tree ∧
        r'.leaves = r.leaves + ls.length ∧ r'.checkpoints = r.checkpoints := by
  induction ls generalizing r with
  | nil =>
    simp only [foldlM_nil, pure_eq_ok, ok.injEq, mapM_nil, length_nil, Nat.add_zero]
    constructor
    · rintro rfl
      exact ⟨[], rfl, rfl, rfl, rfl⟩
    · rintro ⟨cs, hcs, htree, hleaves, hcps⟩
      obtain rfl : cs = [] := (Option.some.inj hcs).symm
      have heq := ok.inj htree
      cases r
      cases r'
      simp_all
  | cons cmx ls ih =>
    rw [foldlM_cons, bind_eq_ok_iff]
    constructor
    · rintro ⟨r₁, hstep, hrest⟩
      simp only [Replay.append, bind_eq_ok_iff, Option.okOr_eq_ok, mapError_eq_ok] at hstep
      obtain ⟨c, hc, tree, htree, heq⟩ := hstep
      obtain rfl := ok.inj heq
      obtain ⟨cs, hcs, happ, hleaves, hcps⟩ := ih.mp hrest
      refine ⟨c :: cs, by simp [hc, hcs], ?_, ?_, hcps⟩
      · rw [appendSubtree, foldlM_cons, bind_eq_ok_iff]
        exact ⟨tree, htree, happ⟩
      · rw [hleaves, length_cons]
        show r.leaves + 1 + _ = _
        omega
    · rintro ⟨cs, hcs, happ, hleaves, hcps⟩
      rw [mapM_cons] at hcs
      simp only [Option.bind_eq_bind, Option.bind_eq_some_iff, Option.pure_def,
        Option.some.injEq] at hcs
      obtain ⟨c, hc, cs, hcs, rfl⟩ := hcs
      rw [appendSubtree, foldlM_cons, bind_eq_ok_iff] at happ
      obtain ⟨tree, htree, happ⟩ := happ
      refine ⟨{ r with tree, leaves := r.leaves + 1 }, ?_, ih.mpr ⟨cs, hcs, happ, ?_, hcps⟩⟩
      · simp [Replay.append, hc, htree, Option.okOr, Except.mapError]
      · rw [hleaves, length_cons]
        show _ = r.leaves + 1 + _
        omega

/-- The replay of a stream after a part of it. -/
theorem foldlM_block_eq_ok {blocks : List (Except ε (ReplayBlock H L))} {r r' : Replay T L}
    (h : blocks.foldlM (Replay.block T ofBytes) r = .ok r') :
    ∃ (items : List (ReplayBlock H L)) (cs : List N), blocks = items.map .ok ∧
      (items.flatMap (·.leaves ofBytes)).mapM T.fromBytes = some cs ∧
      r.tree.appendSubtree T cs = .ok r'.tree ∧
      r'.leaves = r.leaves + (items.flatMap (·.leaves ofBytes)).length := by
  induction blocks generalizing r with
  | nil =>
    obtain rfl := ok.inj h
    exact ⟨[], [], rfl, rfl, rfl, rfl⟩
  | cons b blocks ih =>
    rw [foldlM_cons, bind_eq_ok_iff] at h
    obtain ⟨r₁, hblock, hrest⟩ := h
    simp only [Replay.block, bind_eq_ok_iff, mapError_eq_ok] at hblock
    obtain ⟨item, rfl, r₂, hleaves, heq⟩ := hblock
    obtain rfl := ok.inj heq
    obtain ⟨cs, hcs, happ, hcount, -⟩ := foldlM_append_eq_ok.mp hleaves
    have hcapture : ∀ label : Option L, (r₂.capture T label).tree = r₂.tree ∧
        (r₂.capture T label).leaves = r₂.leaves := fun label => by
      cases label <;> exact ⟨rfl, rfl⟩
    obtain ⟨htree, hnum⟩ := hcapture item.label
    obtain ⟨items, ds, rfl, hds, happ', hcount'⟩ := ih hrest
    refine ⟨item :: items, cs ++ ds, rfl, ?_, ?_, ?_⟩
    · simp [flatMap_cons, hcs, hds]
    · rw [appendSubtree_append, bind_eq_ok_iff]
      exact ⟨r₂.tree, happ, htree ▸ happ'⟩
    · rw [hcount', hnum, hcount, flatMap_cons, length_append]
      omega

/-- A stream whose blocks can all be read and whose leaves make a tree is replayed. -/
theorem exists_foldlM_block {items : List (ReplayBlock H L)} {cs : List N} {t : GlobalTree T}
    {r : Replay T L} (hcs : (items.flatMap (·.leaves ofBytes)).mapM T.fromBytes = some cs)
    (happ : r.tree.appendSubtree T cs = .ok t) :
    ∃ r', (items.map ok).foldlM (Replay.block T ofBytes) r =
      (.ok r' : Except (ReplayError ε) _) ∧ r'.tree = t ∧
      r'.leaves = r.leaves + (items.flatMap (·.leaves ofBytes)).length := by
  induction items generalizing r cs with
  | nil =>
    obtain rfl : cs = [] := (Option.some.inj hcs).symm
    exact ⟨r, rfl, ok.inj happ, rfl⟩
  | cons item items ih =>
    rw [flatMap_cons, mapM_append] at hcs
    simp only [Option.bind_eq_bind, Option.bind_eq_some_iff, Option.pure_def,
      Option.some.injEq] at hcs
    obtain ⟨cs, hcs, ds, hds, rfl⟩ := hcs
    rw [appendSubtree_append, bind_eq_ok_iff] at happ
    obtain ⟨t₁, happ, happ'⟩ := happ
    obtain ⟨r₁, hr₁, htree, hcount⟩ : ∃ r₁ : Replay T L,
        (item.leaves ofBytes).foldlM (Replay.append T) r =
          (.ok r₁ : Except (ReplayError ε) _) ∧ r₁.tree = t₁ ∧
          r₁.leaves = r.leaves + (item.leaves ofBytes).length := by
      refine ⟨⟨t₁, r.leaves + (item.leaves ofBytes).length, r.checkpoints⟩, ?_, rfl, rfl⟩
      exact foldlM_append_eq_ok.mpr ⟨cs, hcs, happ, rfl, rfl⟩
    have hcapture : (r₁.capture T item.label).tree = t₁ ∧
        (r₁.capture T item.label).leaves = r₁.leaves := by
      rw [← htree]
      cases item.label <;> exact ⟨rfl, rfl⟩
    obtain ⟨r', hr', htree', hcount'⟩ := ih hds (r := r₁.capture T item.label)
      (by rw [hcapture.1]; exact happ')
    refine ⟨r', ?_, htree', ?_⟩
    · rw [map_cons, foldlM_cons, bind_eq_ok_iff]
      refine ⟨_, ?_, hr'⟩
      simp only [Replay.block, Except.mapError, ok_bind, hr₁, pure_eq_ok]
    · rw [hcount', hcapture.2, hcount, flatMap_cons, length_append]
      omega

theorem map_toBytes_of_mapM_fromBytes (hT : T.Spec) {ls : List H} {cs : List N} :
    ls.mapM T.fromBytes = some cs ↔ ls = cs.map T.toBytes := by
  induction ls generalizing cs with
  | nil => cases cs <;> simp
  | cons l ls ih =>
    rw [mapM_cons]
    simp only [Option.bind_eq_bind, Option.bind_eq_some_iff, Option.pure_def, Option.some.injEq]
    constructor
    · rintro ⟨c, hc, cs, hcs, rfl⟩
      rw [map_cons, hT.toBytes_of_fromBytes hc, ih.mp hcs]
    · cases cs with
      | nil => simp
      | cons c cs =>
        intro heq
        obtain ⟨rfl, hls⟩ := cons.inj heq
        exact ⟨c, hT.fromBytes_toBytes c, cs, ih.mpr hls, rfl⟩

end Zkas.History
