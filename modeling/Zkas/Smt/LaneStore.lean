import Zkas.Smt.Lanes

/-!
# What the stores hold

A node has processed blocks above some base: the genesis block, or a block whose lanes were
imported. The versions in its stores are those of the processed blocks, and imported ones
(`Placed`), so the versions on one chain have different scores, and the caches do not matter.
`Holds` says what a chain reads: for a lane its newest version, and in the window the nodes of the
tree of the active lanes. A node is not older than the lanes below it, and not newer than the node
above it. -/

namespace Zkas.Smt

open BitPath SparseTree List ParentTree VersionStore

namespace Network

variable {L B D : Type} (net : Network L B D)

/-- A block that may be processed next: a new one above the base. -/
structure Next (base : B) (done : List B) (b : B) : Prop where
  ne_root : b ≠ net.tree.root
  ne_zero : b ≠ net.zero_hash
  ne_base : b ≠ base
  not_done : b ∉ done
  parent : net.tree.parent b = base ∨ net.tree.parent b ∈ done

/-- Blocks processed one after the other, the last one first. -/
inductive Region (base : B) : List B → Prop
  | nil : Region base []
  | cons {done : List B} {b : B} : Region base done → Next net base done b → Region base (b :: done)

/-- The block `c` is strictly above `b`. -/
def Above (b c : B) : Prop := b ∈ net.tree.path c ∧ b ≠ c ∧ c ≠ net.zero_hash

/-- A version of a processed block, or an imported one. -/
def Placed {E : Type} (base : B) (done : List B) (k : VersionKey E B) : Prop :=
  (k.block ∈ done ∧ k.score = net.score k.block) ∨
    (k.block = net.zero_hash ∧ k.score ≤ net.score base)

variable {net} {base : B} {done : List B}

/-! ## Regions -/

section

variable (h : Region net base done)
include h

theorem Region.next {b : B} (hb : b ∈ done) :
    b ≠ net.tree.root ∧ b ≠ net.zero_hash ∧ b ≠ base ∧
      (net.tree.parent b = base ∨ net.tree.parent b ∈ done) := by
  induction h with
  | nil => cases hb
  | cons _ hnext ih =>
    rcases mem_cons.mp hb with rfl | hb
    · exact ⟨hnext.ne_root, hnext.ne_zero, hnext.ne_base,
        hnext.parent.imp_right (mem_cons_of_mem _)⟩
    · obtain ⟨hroot, hzero, hbase, hparent⟩ := ih hb
      exact ⟨hroot, hzero, hbase, hparent.imp_right (mem_cons_of_mem _)⟩

/-- The base and the processed blocks are closed under parents, down to the base. -/
theorem Region.mem_path {b x : B} (hb : b = base ∨ b ∈ done)
    (hx : x ∈ net.tree.path b) : x ∈ net.tree.path base ∨ x ∈ done := by
  have hself {c : B} (hc : c = base) : c ∈ net.tree.path base := hc ▸ self_mem_path _
  refine forall_mem_path (P := fun b => b ∈ net.tree.path base ∨ b ∈ done)
    (fun b hne hb => ?_) (hb.imp_left hself) hx
  rcases hb with hb | hb
  · exact .inl ((path_isPrefix hb).subset (parent_mem_path hne))
  · exact (h.next hb).2.2.2.imp_left hself

theorem Region.base_mem {b : B} (hb : b = base ∨ b ∈ done) :
    base ∈ net.tree.path b := by
  induction b using induction (T := net.tree) with
  | hroot =>
    rcases hb with hb | hb
    · exact hb ▸ self_mem_path _
    · exact absurd rfl (h.next hb).1
  | hstep b hroot ih =>
    rcases hb with hb | hb
    · exact hb ▸ self_mem_path _
    · exact (mem_path_of_ne hroot).mpr (.inl (ih (h.next hb).2.2.2))

theorem Region.zero_not_mem (hzero : net.zero_hash ∉ net.tree.path base)
    {b : B} (hb : b = base ∨ b ∈ done) : net.zero_hash ∉ net.tree.path b := fun hx => by
  rcases h.mem_path hb hx with hx | hx
  · exact hzero hx
  · exact (h.next hx).2.1 rfl

theorem Next.not_mem_path {b c : B} (hb : Next net base done b)
    (hc : c = base ∨ c ∈ done) : b ∉ net.tree.path c := fun hx => by
  rcases h.mem_path hc hx with hx | hx
  · -- The base is below the next block, so they would be the same.
    have hbase : base ∈ net.tree.path b :=
      (mem_path_of_ne hb.ne_root).mpr (.inl (h.base_mem hb.parent))
    exact hb.ne_base (eq_of_mem_path hx hbase)
  · exact hb.not_done hx

end

theorem not_above_self (b : B) : ¬Above net b b := fun h => h.2.1 rfl

theorem Region.score_lt (hnet : net.Ordered) (h : Region net base done) {b : B} (hb : b ∈ done) :
    net.score base < net.score b :=
  hnet.score_lt (h.base_mem (.inr hb)) (h.next hb).2.2.1.symm

/-! ## Versions -/

section

variable [LinearOrder B] {E V : Type}

theorem isSmtCanonical_iff {tip b : B} :
    net.isSmtCanonical tip b = true ↔ b = net.zero_hash ∨ b ∈ net.tree.path tip :=
  decide_eq_true_iff

theorem isSmtCanonical_of_ne {tip : B} (htip : tip ≠ net.tree.root) (b : B) :
    net.isSmtCanonical tip b = true ↔
      b = tip ∨ net.isSmtCanonical (net.tree.parent tip) b = true := by
  rw [isSmtCanonical_iff, isSmtCanonical_iff, mem_path_of_ne htip]
  tauto

/-- The versions of one store and its cache. -/
structure CachedRows [LinearOrder E] (net : Network L B D) (base : B) (done : List B)
    (db : VersionStore E B V) (cache : VersionedCache E B V) : Prop where
  placed : ∀ k ∈ db, Placed net base done k
  suffix : cache.Suffix (Above net) db
  cached : ∀ k ∈ cache.rows, k.block ∈ done

variable (hnet : net.Ordered) (hregion : Region net base done)

include hnet hregion

theorem Placed.score_le {k : VersionKey E B} (hk : Placed net base done k) {tip : B}
    (htip : tip = base ∨ tip ∈ done) (hc : net.isSmtCanonical tip k.block = true) :
    k.score ≤ net.score tip := by
  rcases hk with ⟨hdone, hscore⟩ | ⟨-, hscore⟩
  · rcases isSmtCanonical_iff.mp hc with hc | hc
    · exact absurd hc (hregion.next hdone).2.1
    · rw [hscore]
      exact hnet.score_le hc
  · exact hscore.trans (hnet.score_le (hregion.base_mem htip))

/-- Of two versions on a chain with different scores the newer one is that of a block, which is
above the block of the other, if that is one. -/
theorem Placed.above {k k' : VersionKey E B} (hk : k.block ∈ done)
    (hplaced : Placed net base done k) (hplaced' : Placed net base done k') {tip : B}
    (hc : net.isSmtCanonical tip k.block = true) (hc' : net.isSmtCanonical tip k'.block = true)
    (hlt : k.score < k'.score) : Above net k.block k'.block := by
  have hne := (hregion.next hk).2.1
  have hscore : k.score = net.score k.block := (hplaced.resolve_right fun h => hne h.1).2
  have hlow := hregion.score_lt hnet hk
  rcases hplaced' with ⟨hk', hscore'⟩ | ⟨-, hscore'⟩
  · have hpath := (isSmtCanonical_iff.mp hc).resolve_left hne
    have hpath' := (isSmtCanonical_iff.mp hc').resolve_left (hregion.next hk').2.1
    rcases prefix_or_prefix_of_prefix (path_isPrefix hpath) (path_isPrefix hpath') with hle | hle
    · refine ⟨hle.subset (self_mem_path _), fun heq => ?_, (hregion.next hk').2.1⟩
      rw [hscore, hscore', heq] at hlt
      exact lt_irrefl _ hlt
    · have := hnet.score_le (hle.subset (self_mem_path _))
      omega
  · omega

variable [LinearOrder E] {db : VersionStore E B V} {cache : VersionedCache E B V}

omit [LinearOrder E] in
theorem singleScores (hplaced : ∀ k ∈ db, Placed net base done k) (tip : B) :
    db.SingleScores (net.isSmtCanonical tip) := by
  intro k hk k' hk' hc hc' heq
  rcases hplaced k hk with hin | ⟨hblock, hscore⟩
  · rcases hplaced k' hk' with hin' | ⟨hblock', hscore'⟩
    · -- Two blocks of a chain with one score are one block.
      have hpath := (isSmtCanonical_iff.mp hc).resolve_left (hregion.next hin.1).2.1
      have hpath' := (isSmtCanonical_iff.mp hc').resolve_left (hregion.next hin'.1).2.1
      have hscore : net.score k.block = net.score k'.block := by rw [← hin.2, ← hin'.2, heq]
      by_contra hne
      rcases prefix_or_prefix_of_prefix (path_isPrefix hpath) (path_isPrefix hpath') with hle | hle
      · have := hnet.score_lt (hle.subset (self_mem_path _)) hne
        omega
      · have := hnet.score_lt (hle.subset (self_mem_path _)) (Ne.symm hne)
        omega
    · have := hregion.score_lt hnet hin.1
      have := hin.2
      omega
  · rcases hplaced k' hk' with hin' | ⟨hblock', -⟩
    · have := hregion.score_lt hnet hin'.1
      have := hin'.2
      omega
    · rw [hblock, hblock']

theorem CachedRows.read_eq (h : CachedRows net base done db cache) (tip : B) (e : E)
    (target min : ℕ) :
    cache.read db e target min (net.isSmtCanonical tip) =
      db.getAtCanonical e target min (net.isSmtCanonical tip) := by
  refine h.suffix.read_eq (singleScores hnet hregion h.placed tip) ?_ e target min
  intro k hk k' hk' hc hc' hcached hlt
  exact Placed.above hnet hregion (h.cached k hcached) (h.placed k hk) (h.placed k' hk') hc hc' hlt

omit hnet hregion in
theorem CachedRows.of_not_cached (hplaced : ∀ k ∈ db, Placed net base done k) (capacity : ℕ) :
    CachedRows net base done db ⟨∅, capacity⟩ := by
  have hnone {k : VersionKey E B} : k ∉ (∅ : VersionStore E B V) := AList.notMem_empty k
  refine ⟨hplaced, ⟨fun k v hv => ?_, fun k hk => absurd hk hnone⟩, fun k hk => absurd hk hnone⟩
  rw [AList.lookup_empty] at hv
  cases hv

omit hnet hregion in
theorem CachedRows.mono (h : CachedRows net base done db cache) (b : B) :
    CachedRows net base (b :: done) db cache :=
  ⟨fun k hk => (h.placed k hk).imp_left fun hin => ⟨mem_cons_of_mem _ hin.1, hin.2⟩, h.suffix,
    fun k hk => mem_cons_of_mem _ (h.cached k hk)⟩

omit hnet hregion in
theorem CachedRows.fresh (h : CachedRows net base done db cache) {b : B}
    (hb : Next net base done b) :
    ∀ k ∈ db, k.block ≠ b := by
  intro k hk heq
  rcases h.placed k hk with ⟨hdone, -⟩ | ⟨hblock, -⟩
  · exact hb.not_done (heq ▸ hdone)
  · exact hb.ne_zero (heq.symm.trans hblock)

theorem CachedRows.flush (h : CachedRows net base done db cache) {b : B} (hb : Next net base done b)
    {writes : List (E × V)} (hnodup : (writes.map Prod.fst).Nodup) :
    CachedRows net base (b :: done) (db.putAll (net.score b) b writes)
      (cache.insertAll (net.score b) b writes) := by
  refine ⟨fun k hk => ?_, ?_, fun k hk => ?_⟩
  · rcases mem_putAll.mp hk with ⟨hscore, hblock, -⟩ | hk
    · exact .inl ⟨hblock ▸ mem_cons_self, by rw [hscore, hblock]⟩
    · exact (h.placed k hk).imp_left fun hin => ⟨mem_cons_of_mem _ hin.1, hin.2⟩
  · refine h.suffix.insertAll hnodup (fun w _ hmem => h.fresh hb _ hmem rfl)
      (fun k hk k' hk' habove => ?_)
      (fun k hk habove => ?_) (fun k hk habove => ?_) (not_above_self b)
    · -- A block below another is lower.
      have hin' := (h.placed k' hk').resolve_right fun h => habove.2.2 h.1
      rw [hin'.2]
      rcases h.placed k hk with hin | ⟨-, hscore⟩
      · rw [hin.2]
        exact hnet.score_lt habove.1 habove.2.1
      · exact hscore.trans_lt (hregion.score_lt hnet hin'.1)
    · rcases h.placed k hk with hin | ⟨-, hscore⟩
      · rw [hin.2]
        exact hnet.score_lt habove.1 habove.2.1
      · exact hscore.trans_lt (Region.score_lt hnet (hregion.cons hb) mem_cons_self)
    · rcases h.placed k hk with hin | ⟨hblock, -⟩
      · exact Next.not_mem_path hregion hb (.inr hin.1) habove.1
      · exact habove.2.2 hblock
  · rcases VersionedCache.mem_of_mem_insertAll hk with hblock | hk
    · exact hblock ▸ mem_cons_self
    · exact mem_cons_of_mem _ (h.cached k hk)

/-- The newest version of an entity on the chain of a block. -/
def latest (net : Network L B D) (db : VersionStore E B V) (tip : B) (e : E) :
    Option (Version B V) :=
  db.getAtCanonical e (net.score tip) 0 (net.isSmtCanonical tip)

theorem CachedRows.read_latest (h : CachedRows net base done db cache) (tip : B) (e : E) (min : ℕ) :
    cache.read db e (net.score tip) min (net.isSmtCanonical tip) =
      (latest net db tip e).filter fun v => min ≤ v.score := by
  rw [h.read_eq hnet hregion, getAtCanonical_filter (singleScores hnet hregion h.placed tip)]
  rfl

section

variable (h : CachedRows net base done db cache) {b : B} (hb : Next net base done b)
  {writes : List (E × V)} (hnodup : (writes.map Prod.fst).Nodup)

include h hb hnodup

theorem CachedRows.latest_of_mem {e : E} {x : V} (hw : (e, x) ∈ writes) :
    latest net (db.putAll (net.score b) b writes) b e = some ⟨net.score b, b, x⟩ :=
  getAtCanonical_putAll_of_mem (h.fresh hb) hnodup
    (singleScores hnet hregion h.placed (net.tree.parent b)) (isSmtCanonical_of_ne hb.ne_root)
    (fun k hk hc => (h.placed k hk).score_le hnet hregion hb.parent hc)
    (hnet.score_parent b hb.ne_root) (Nat.zero_le _) hw

theorem CachedRows.latest_of_not_mem {e : E} (he : e ∉ writes.map Prod.fst) :
    latest net (db.putAll (net.score b) b writes) b e = latest net db (net.tree.parent b) e :=
  getAtCanonical_putAll_of_not_mem (h.fresh hb) hnodup
    (singleScores hnet hregion h.placed (net.tree.parent b)) (isSmtCanonical_of_ne hb.ne_root)
    (fun k hk hc => (h.placed k hk).score_le hnet hregion hb.parent hc)
    (hnet.score_parent b hb.ne_root) he

omit hnodup in
theorem CachedRows.latest_of_untouched (e : E) :
    latest net db b e = latest net db (net.tree.parent b) e := by
  have hnodup : (([] : List (E × V)).map Prod.fst).Nodup := nodup_nil
  exact h.latest_of_not_mem hnet hregion hb hnodup not_mem_nil

theorem CachedRows.latest_of_ne {c : B} (hc : c = base ∨ c ∈ done) (e : E) :
    latest net (db.putAll (net.score b) b writes) c e = latest net db c e := by
  refine getAtCanonical_putAll_of_not_canonical (h.fresh hb) hnodup
    (singleScores hnet hregion h.placed c) ?_
  rw [← Bool.not_eq_true, isSmtCanonical_iff, not_or]
  exact ⟨hb.ne_zero, Next.not_mem_path hregion hb hc⟩

end

end

/-! ## What a chain reads -/

section

variable [LinearOrder B] (net : Network L B D)

/-- What the stores hold for the chain of a block: the lane versions from `floor` on, the nodes of
the tree of its active lanes, and the score index entries of its lanes. -/
structure Holds (stores : SmtStores B D) (floor : ℕ) (b : B) : Prop where
  floor_le : floor ≤ net.activeMin b
  lanes : ∀ k, (latest net stores.lane_version b k).map (fun v => (v.value, v.score)) =
    (net.lanesAt b).from floor k
  nodes : ∀ d x, d < 256 →
    ((latest net stores.branch_version b (.new d x)).filter fun v => net.activeMin b ≤ v.score).bind
      Version.value = stored net.hashing.activeNode (net.leavesAt b) x 0 d
  /-- A node is not older than the lanes below it. -/
  newest : ∀ d x v, d < 256 → latest net stores.branch_version b (.new d x) = some v →
    stored net.hashing.activeNode (net.leavesAt b) x 0 d ≠ none →
    ∀ k w, Agree d x k → net.activeAt b k = some w → w.2 ≤ v.score
  /-- A node is not newer than the one above it. -/
  parents : ∀ d x v v', d + 1 < 256 → latest net stores.branch_version b (.new (d + 1) x) = some v →
    stored net.hashing.activeNode (net.leavesAt b) x 0 (d + 1) ≠ none →
    latest net stores.branch_version b (.new d x) = some v' → v.score ≤ v'.score
  listed : ∀ k w, net.lanesAt b k = some w → floor ≤ w.2 → ∃ block batch_id max_depth lane_keys,
    stores.score_index.lookup ⟨w.2, .leafUpdate, block, batch_id⟩ = some ⟨max_depth, lane_keys⟩ ∧
      net.isSmtCanonical b block = true ∧ k ∈ lane_keys
  entries : ∀ s block batch_id max_depth lane_keys,
    stores.score_index.lookup ⟨s, .leafUpdate, block, batch_id⟩ = some ⟨max_depth, lane_keys⟩ →
      net.isSmtCanonical b block = true → ∀ k ∈ lane_keys, ∃ w, net.lanesAt b k = some w ∧ s ≤ w.2

/-- The block whose commitment is the inactivity shortcut of a block: the highest one of the chain
that is low enough, or the root. -/
def shortcutBlock (b : B) : B :=
  if net.score b < net.finality_depth + 1 then net.tree.root
  else ((net.tree.path b).filter fun c =>
    net.score c ≤ net.score b - net.finality_depth - 1).getLastD net.tree.root

/-- A block that stands for the shortcut block: itself, or one above it from before the activation.
Both have no commitment then. -/
def IsShortcut (b c : B) : Prop :=
  c = shortcutBlock net b ∨
    (c ∈ net.tree.path b ∧ net.toccataActive c = false ∧ shortcutBlock net b ∈ net.tree.path c)

/-- The state of a node that has processed some blocks above a base. -/
structure Inv (base : B) (floor : ℕ) (done : List B) (state : SmtState B D) :
    Prop where
  region : Region net base done
  zero_not_mem : net.zero_hash ∉ net.tree.path base
  branches : CachedRows net base done state.stores.branch_version state.stores.branch_cache
  lanes : CachedRows net base done state.stores.lane_version state.stores.lane_cache
  index : ∀ k ∈ state.stores.score_index, k.block_hash ∈ done ∨ k.block_hash = net.zero_hash
  holds : ∀ b, b = base ∨ b ∈ done → Holds net state.stores floor b
  coinbase : ∀ b ∈ done, net.toccataActive b = true →
    ⟨net.hashing.laneKey net.coinbase_lane, net.score b, b⟩ ∈ state.stores.lane_version
  count : ∀ b, b = base ∨ b ∈ done →
    ((state.metadata.lookup b).map SmtBlockMetadata.active_lanes_count).getD 0 =
      (net.activeKeys b).length
  shortcut : ∀ b, b = base ∨ b ∈ done → IsShortcut net b
    (((state.metadata.lookup b).map SmtBlockMetadata.inactivity_shortcut_block).getD b)
  recorded : ∀ b ∈ state.metadata, net.toccataActive b = true

end

end Network

end Zkas.Smt
