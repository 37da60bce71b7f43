import Zkas.Lib.ParentTree
import Zkas.Utxo.Algebra

/-!
# The UTXO diff across reorgs

`calculate_utxo_state_relatively` moves the diff from virtual between blocks of the selected-chain
tree, next to the nullifier set. A new block is validated on the view through the diff:
`calculate_utxo_state` adds each transaction it accepts to the block's mergeset diff. The UTXO set
of a block is a matter of its chain alone (`UtxoChain.setAt`); after any run of calls the view
through the diff is the set of the block that the last call returned, and no `unwrap` fails
(`run_setAt`).

Two things are assumed of validation. Its verdict on a block is a function of the block and of the
UTXO set at its parent (`UtxoChain.accepted`); the nullifier, lane and anchor rows that it also
reads belong to the block's own past. And an accepted transaction spends distinct entries of the set
that those before it leave, and creates none that is there (`UtxoChain.Admits`). -/

namespace Zkas.Utxo

open List ParentTree UtxoDiff

/-- `ComposedUtxoView`: a set seen through a diff. -/
def UtxoSet.compose (U : UtxoSet) (d : UtxoDiff) : UtxoSet := fun o =>
  (d.add.lookup o).or (if o ∈ d.remove then none else U o)

/-- The mergeset diff of `calculate_utxo_state`: the accepted transactions are added in their order.
A failed `unwrap` has no result. -/
def mergesetDiff (txId : Pow.Transaction → Pow.Hash) (pov_daa_score : BitVec 64)
    (accepted : List VerifiableTransaction) : Option UtxoDiff :=
  (accepted.foldlM (addTransaction · txId · pov_daa_score) ⟨∅, ∅⟩).toOption

/-- The chain blocks, with the set of genesis and the one of virtual. -/
structure UtxoChain (H : Type) extends ParentTree H where
  entry : Pow.TransactionOutpoint → BitVec 64 → UtxoEntry
  genesis : UtxoSet
  genesis_genuine : GenuineEntries entry genesis
  utxo_set : UtxoSet
  genuine : GenuineEntries entry utxo_set
  daa_score : H → BitVec 64
  txId : Pow.Transaction → Pow.Hash
  /-- The transactions that `calculate_utxo_state` accepts on the set of the parent, over the whole
  mergeset; nothing when `verify_expected_utxo_state` then refuses the block. -/
  accepted : UtxoSet → H → Option (List VerifiableTransaction)

/-- The stored diffs and the blocks known to be disqualified. -/
structure ChainStores (H : Type) where
  utxo_diffs : H → Option UtxoDiff
  disqualified : Finset H

/-- The stores, the diff and the most recent UTXO-valid block. Where there is none, it is a panic.
-/
abbrev Position (H : Type) := ChainStores H × UtxoDiff × H

variable {H : Type} (K : UtxoChain H)

namespace ChainStores

variable [DecidableEq H]

/-- The block is known to be disqualified. -/
def disqualify (s : ChainStores H) (b : H) : ChainStores H :=
  { s with disqualified := insert b s.disqualified }

/-- Store the diff of a block. -/
def commit (s : ChainStores H) (b : H) (d : UtxoDiff) : ChainStores H :=
  { s with utxo_diffs := Function.update s.utxo_diffs b d }

/-- The down-walk to the split point. -/
def walkDown (s : ChainStores H) (is_ancestor : H → Bool) :
    List H → UtxoDiff → Option (H × UtxoDiff)
  | [], _ => none
  | current :: rest, diff =>
    if is_ancestor current then some (current, diff)
    else do
      let mergeset_diff ← s.utxo_diffs current
      let diff ← (diff.withDiff mergeset_diff.toReversed).toOption
      s.walkDown is_ancestor rest diff

/-- One step of the up-walk. -/
def stepUp (s : ChainStores H) (diff : UtxoDiff) (diff_point selected_parent current : H) :
    Option (Position H) :=
  if selected_parent ≠ diff_point then some (s.disqualify current, diff, diff_point)
  else
    match s.utxo_diffs current with
    | some mergeset_diff => do
      let diff ← (diff.withDiff mergeset_diff).toOption
      return (s, diff, current)
    | none =>
      if current ∈ s.disqualified then some (s, diff, diff_point)
      else
        match K.accepted (K.utxo_set.compose diff) current with
        | none => some (s.disqualify current, diff, diff_point)
        | some accepted => do
          let mergeset_diff ← mergesetDiff K.txId (K.daa_score current) accepted
          let diff ← (diff.withDiff mergeset_diff).toOption
          return (s.commit current mergeset_diff, diff, current)

/-- The up-walk over the blocks above the split point. -/
def walkUp : ChainStores H → UtxoDiff → H → H → List H → Option (Position H)
  | s, diff, diff_point, _, [] => some (s, diff, diff_point)
  | s, diff, diff_point, selected_parent, current :: rest => do
    let (s, diff, diff_point) ← s.stepUp K diff diff_point selected_parent current
    walkUp s diff diff_point current rest

/-- `calculate_utxo_state_relatively`, as far as the diff goes. -/
def calculateUtxoStateRelatively (s : ChainStores H) (diff : UtxoDiff) (start target : H) :
    Option (Position H) :=
  if target ∈ s.disqualified then some (s, diff, start)
  else do
    let (split_point, diff) ← s.walkDown (· ∈ K.path target) (K.path start).reverse diff
    walkUp K s diff split_point split_point (K.above split_point target)

/-- A run of calls, each from the block the one before returned. -/
def run : ChainStores H → UtxoDiff → H → List H → Option (Position H)
  | s, diff, tip, [] => some (s, diff, tip)
  | s, diff, tip, target :: targets => do
    let (s, diff, tip) ← s.calculateUtxoStateRelatively K diff tip target
    run s diff tip targets

end ChainStores

variable {entry : Pow.TransactionOutpoint → BitVec 64 → UtxoEntry} {U V : UtxoSet} {d d' : UtxoDiff}

theorem UtxoDiff.Valid.compose_eq (h : d.Valid U) : U.compose d = U.apply d := by
  funext o
  change (d.add.lookup o).or _ = (d.add.lookup o).or (if d.remove.lookup o = U o then none else U o)
  cases he : d.remove.lookup o with
  | none => rw [if_neg (AList.lookup_eq_none.mp he), ite_eq_right_iff.mpr id]
  | some e => rw [if_pos (AList.lookup_isSome.mp (he ▸ rfl)), if_pos (h.removed o e he).symm]

/-- A diff that leads from one set to another. -/
structure Leads (entry : Pow.TransactionOutpoint → BitVec 64 → UtxoEntry) (U : UtxoSet)
    (d : UtxoDiff) (V : UtxoSet) : Prop where
  genuine : d.Genuine entry
  valid : d.Valid U
  eq : U.apply d = V

theorem Leads.genuine_end (hU : GenuineEntries entry U) (h : Leads entry U d V) :
    GenuineEntries entry V :=
  h.eq ▸ hU.apply h.genuine

/-- The difference between two sets leads from one to the other. -/
theorem leads_of_between (hU : GenuineEntries entry U) (hV : GenuineEntries entry V)
    (h : ∀ o, d.delta o = Delta.between (U o) (V o)) : Leads entry U d V := by
  obtain ⟨hvalid, heq⟩ := valid_of_between hU hV h
  exact ⟨⟨fun o a ha => hV o a (heq ▸ apply_of_add ha),
    fun o e he => hU o e (hvalid.removed o e he)⟩, hvalid, heq⟩

theorem Leads.delta_eq (h : Leads entry U d V) (o : Pow.TransactionOutpoint) :
    d.delta o = Delta.between (U o) (V o) :=
  h.eq ▸ h.valid.delta_eq o

/-- A diff can be undone. -/
theorem Leads.reversed (hU : GenuineEntries entry U) (h : Leads entry U d V) :
    Leads entry V d.toReversed U :=
  leads_of_between (h.genuine_end hU) hU fun o => by
    rw [delta_toReversed, h.delta_eq, Delta.swap_between]

/-- Diffs that follow each other can be joined. -/
theorem Leads.withDiff (hU : GenuineEntries entry U) {W : UtxoSet} (h : Leads entry U d V)
    (h' : Leads entry V d' W) : ∃ r, d.withDiff d' = .ok r ∧ Leads entry U r W := by
  obtain ⟨r, hr, hdelta⟩ := exists_withDiff h.genuine h'.genuine h.valid (h.eq ▸ h'.valid)
  refine ⟨r, hr, leads_of_between hU (h'.genuine_end (h.genuine_end hU)) fun o => ?_⟩
  rw [hdelta, h.delta_eq, h'.delta_eq, Delta.merge_between]

/-! ## The mergeset diff -/

/-- A UTXO set after transactions. -/
def UtxoSet.applyTransactions (txId : Pow.Transaction → Pow.Hash) (daa_score : BitVec 64)
    (U : UtxoSet) (txs : List VerifiableTransaction) : UtxoSet :=
  txs.foldl (fun U tx => U.apply (tx.ownDiff txId daa_score)) U

variable (entry) in
/-- A transaction that spends distinct entries of a set and creates none that is there. -/
structure Spendable (txId : Pow.Transaction → Pow.Hash) (daa_score : BitVec 64) (U : UtxoSet)
    (tx : VerifiableTransaction) : Prop where
  genuine : (tx.ownDiff txId daa_score).Genuine entry
  valid : (tx.ownDiff txId daa_score).Valid U
  inputs_nodup : (tx.inputEntries.map Prod.fst).Nodup
  outputs_le : tx.tx.outputs.val.length ≤ 2 ^ 32

variable (entry) in
/-- Each transaction is spendable after those before it. -/
def AllSpendable (txId : Pow.Transaction → Pow.Hash) (daa_score : BitVec 64) :
    UtxoSet → List VerifiableTransaction → Prop
  | _, [] => True
  | U, tx :: txs => Spendable entry txId daa_score U tx ∧
    AllSpendable txId daa_score (U.apply (tx.ownDiff txId daa_score)) txs

/-- A block is accepted with transactions that are spendable in turn. -/
def UtxoChain.Admits : Prop := ∀ U b txs, GenuineEntries K.entry U → K.accepted U b = some txs →
  AllSpendable K.entry K.txId (K.daa_score b) U txs

variable {txs : List VerifiableTransaction}

theorem foldlM_addTransaction {txId : Pow.Transaction → Pow.Hash} {daa_score : BitVec 64}
    (hU : GenuineEntries entry U) (hd : Leads entry U d V)
    (h : AllSpendable entry txId daa_score V txs) :
    ∃ r, txs.foldlM (addTransaction · txId · daa_score) d = .ok r ∧
      Leads entry U r (V.applyTransactions txId daa_score txs) := by
  induction txs generalizing d V with
  | nil => exact ⟨d, rfl, hd⟩
  | cons tx txs ih =>
    obtain ⟨htx, htxs⟩ := h
    obtain ⟨r, hr, hdelta⟩ := exists_addTransaction hd.genuine htx.genuine hd.valid
      (hd.eq ▸ htx.valid) htx.inputs_nodup htx.outputs_le
    have hend := (hd.genuine_end hU).apply htx.genuine
    rw [foldlM_cons, hr]
    exact ih (leads_of_between hU hend fun o => by rw [hdelta, hd.eq]) htxs

/-- No `unwrap` of `add_transaction` fails, and the mergeset diff leads to the set after the
transactions. -/
theorem exists_mergesetDiff {txId : Pow.Transaction → Pow.Hash} {daa_score : BitVec 64}
    (hU : GenuineEntries entry U) (h : AllSpendable entry txId daa_score U txs) :
    ∃ d, mergesetDiff txId daa_score txs = some d ∧
      Leads entry U d (U.applyTransactions txId daa_score txs) := by
  have hempty : Leads entry U ⟨∅, ∅⟩ U := leads_of_between hU hU fun o => by
    rw [Delta.between, if_pos rfl]
    rfl
  obtain ⟨d, hd, hleads⟩ := foldlM_addTransaction hU hempty h
  exact ⟨d, by rw [mergesetDiff, hd]; rfl, hleads⟩

/-- The UTXO set of a block by its chain alone: the transactions of each block in turn are those
accepted on the set of its parent. -/
def UtxoChain.setAt (b : H) : Option UtxoSet :=
  (K.path b).tail.foldlM
    (fun U b => (K.accepted U b).map (U.applyTransactions K.txId (K.daa_score b))) K.genesis

variable {K} {s : ChainStores H} {diff : UtxoDiff} {b tip : H}

theorem setAt_root : K.setAt K.root = some K.genesis := by
  rw [UtxoChain.setAt, path_root]
  rfl

theorem setAt_of_ne (hb : b ≠ K.root) : K.setAt b = (K.setAt (K.parent b)).bind fun U =>
    (K.accepted U b).map (U.applyTransactions K.txId (K.daa_score b)) := by
  have hne : K.path (K.parent b) ≠ [] := ne_nil_of_mem (self_mem_path _)
  rw [UtxoChain.setAt, path_of_ne hb, tail_append_of_ne_nil hne, foldlM_append]
  exact congrArg _ (funext fun U => bind_pure _)

/-- What an accepted block does to the set of its parent. -/
theorem UtxoChain.Admits.leads (hK : K.Admits) {U : UtxoSet}
    (hU : GenuineEntries K.entry U) (h : K.accepted U b = some txs) :
    ∃ d, mergesetDiff K.txId (K.daa_score b) txs = some d ∧
      Leads K.entry U d (U.applyTransactions K.txId (K.daa_score b) txs) :=
  exists_mergesetDiff hU (hK U b txs hU h)

theorem genuine_setAt (hK : K.Admits) (b : H) {U : UtxoSet} (hU : K.setAt b = some U) :
    GenuineEntries K.entry U := by
  induction b using ParentTree.induction (T := K.toParentTree) generalizing U with
  | hroot => exact Option.some.inj (setAt_root.symm.trans hU) ▸ K.genesis_genuine
  | hstep b hb ih =>
    rw [setAt_of_ne hb, Option.bind_eq_some_iff] at hU
    obtain ⟨V, hV, hmap⟩ := hU
    obtain ⟨txs, htxs, rfl⟩ := Option.map_eq_some_iff.mp hmap
    obtain ⟨d, -, hleads⟩ := hK.leads (ih hV) htxs
    exact hleads.genuine_end (ih hV)

variable (K) in
/-- The diff is at a block: a stored diff leads from the set of the parent to that of its block, no
disqualified block is valid, and the diff leads to the block's set. -/
structure Holds (s : ChainStores H) (diff : UtxoDiff) (b : H) : Prop where
  stored : ∀ x d, s.utxo_diffs x = some d → x ≠ K.root →
    ∃ U V, K.setAt (K.parent x) = some U ∧ K.setAt x = some V ∧ Leads K.entry U d V
  disqualified : ∀ x ∈ s.disqualified, K.setAt x = none
  kept : ∀ x ∈ K.path b, x ≠ K.root → s.utxo_diffs x ≠ none
  set : ∃ U, K.setAt b = some U ∧ Leads K.entry K.utxo_set diff U

variable (K) in
/-- A walk ends at the block `b`, or `b` is not valid. -/
def Reaches (walk : Option (Position H)) (b : H) : Prop :=
  ∃ s diff tip, walk = some (s, diff, tip) ∧ Holds K s diff tip ∧ (b = tip ∨ K.setAt b = none)

namespace Holds

/-- Down to the parent. -/
theorem retreat (hK : K.Admits) (h : Holds K s diff b) (hb : b ≠ K.root) :
    ∃ d r, s.utxo_diffs b = some d ∧ diff.withDiff d.toReversed = .ok r ∧
      Holds K s r (K.parent b) := by
  obtain ⟨d, hd⟩ := Option.ne_none_iff_exists'.mp (h.kept b (self_mem_path b) hb)
  obtain ⟨U, V, hU, hV, hleads⟩ := h.stored b d hd hb
  obtain ⟨W, hW, hat⟩ := h.set
  obtain rfl := Option.some.inj (hV.symm.trans hW)
  obtain ⟨r, hr, hback⟩ := hat.withDiff K.genuine (hleads.reversed (genuine_setAt hK _ hU))
  exact ⟨d, r, hd, hr, h.stored, h.disqualified,
    fun x hx => h.kept x ((mem_path_of_ne hb).mpr (.inl hx)), U, hU, hback⟩

/-- Up to a child whose diff is stored. -/
theorem advance (h : Holds K s diff (K.parent b)) (hb : b ≠ K.root)
    (hd : s.utxo_diffs b = some d) : ∃ r, diff.withDiff d = .ok r ∧ Holds K s r b := by
  obtain ⟨U, V, hU, hV, hleads⟩ := h.stored b d hd hb
  obtain ⟨W, hW, hat⟩ := h.set
  obtain rfl := Option.some.inj (hU.symm.trans hW)
  obtain ⟨r, hr, hat'⟩ := hat.withDiff K.genuine hleads
  refine ⟨r, hr, h.stored, h.disqualified, fun x hx hne => ?_, V, hV, hat'⟩
  rcases (mem_path_of_ne hb).mp hx with hx | rfl
  · exact h.kept x hx hne
  · exact hd ▸ Option.some_ne_none d

/-- The down-walk stops at the latest at the root. -/
theorem walkDown (hK : K.Admits) (is_ancestor : H → Bool) (hroot : is_ancestor K.root = true)
    (h : Holds K s diff tip) : ∃ split_point diff',
      s.walkDown is_ancestor (K.path tip).reverse diff = some (split_point, diff') ∧
      is_ancestor split_point = true ∧ Holds K s diff' split_point := by
  induction tip using ParentTree.induction (T := K.toParentTree) generalizing diff with
  | hroot =>
    rw [path_root, reverse_singleton, ChainStores.walkDown, if_pos hroot]
    exact ⟨_, _, rfl, hroot, h⟩
  | hstep b hb ih =>
    rw [path_of_ne hb, reverse_append, reverse_singleton, singleton_append, ChainStores.walkDown]
    split_ifs with hsplit
    · exact ⟨_, _, rfl, hsplit, h⟩
    · obtain ⟨d, r, hd, hr, hat⟩ := h.retreat hK hb
      rw [hd, Option.bind_eq_bind, Option.bind_some, hr]
      exact ih hat

variable [DecidableEq H]

/-- A block that is not valid may be disqualified. -/
theorem disqualify (h : Holds K s diff tip) (hb : K.setAt b = none) :
    Reaches K (some (s.disqualify b, diff, tip)) b := by
  refine ⟨_, _, _, rfl, ⟨h.stored, fun x hx => ?_, h.kept, h.set⟩, .inr hb⟩
  rcases Finset.mem_insert.mp hx with rfl | hx
  · exact hb
  · exact h.disqualified x hx

/-- The diff of a block that leads to its set may be stored. -/
theorem commit (h : Holds K s diff tip) (hU : K.setAt (K.parent b) = some U)
    (hV : K.setAt b = some V) (hd : Leads K.entry U d V) : Holds K (s.commit b d) diff tip := by
  have hdiffs (x : H) : (s.commit b d).utxo_diffs x = if x = b then some d else s.utxo_diffs x :=
    Function.update_apply ..
  refine ⟨fun x d' hx hne => ?_, h.disqualified, fun x hx hne hnone => ?_, h.set⟩
  · rw [hdiffs] at hx
    split_ifs at hx with heq
    · obtain rfl := Option.some.inj hx
      exact heq ▸ ⟨U, V, hU, hV, hd⟩
    · exact h.stored x d' hx hne
  · rw [hdiffs] at hnone
    split_ifs at hnone
    exact h.kept x hx hne hnone

/-- A step up reaches the block, or it is not valid. -/
theorem stepUp (hK : K.Admits) {selected_parent current : H} (h : Holds K s diff tip)
    (hchild : K.IsChild selected_parent current)
    (hparent : selected_parent = tip ∨ K.setAt selected_parent = none) :
    Reaches K (s.stepUp K diff tip selected_parent current) current := by
  obtain ⟨hne, rfl⟩ := hchild
  have hset := setAt_of_ne hne
  unfold ChainStores.stepUp
  by_cases htip : K.parent current = tip
  · subst htip
    rw [if_neg (not_not.mpr rfl)]
    cases hd : s.utxo_diffs current with
    | some d =>
      obtain ⟨r, hr, h'⟩ := h.advance hne hd
      exact ⟨s, r, current, by simp [hr, Except.toOption], h', .inl rfl⟩
    | none =>
      split_ifs with hdis
      · exact ⟨_, _, _, rfl, h, .inr (h.disqualified current hdis)⟩
      -- The block is new: it is validated on the view through the diff, which is its parent's set.
      obtain ⟨U, hU, hat⟩ := h.set
      rw [hat.valid.compose_eq, hat.eq]
      rw [hU, Option.bind_some] at hset
      cases htxs : K.accepted U current with
      | none => exact h.disqualify (hset.trans (by rw [htxs]; rfl))
      | some txs =>
        obtain ⟨d, hd, hleads⟩ := hK.leads (genuine_setAt hK _ hU) htxs
        have hcommit := h.commit hU (hset.trans (by rw [htxs]; rfl)) hleads
        obtain ⟨r, hr, h'⟩ := hcommit.advance hne (Function.update_self ..)
        exact ⟨s.commit current d, r, current, by simp [hd, hr, Except.toOption], h', .inl rfl⟩
  · rw [if_pos htip]
    exact h.disqualify (hset.trans (by rw [hparent.resolve_left htip]; rfl))

/-- The up-walk reaches the last block, or it is not valid. -/
theorem walkUp (hK : K.Admits) {selected_parent last : H} {blocks : List H} (h : Holds K s diff tip)
    (hchain : IsChain K.IsChild (selected_parent :: blocks))
    (hlast : (selected_parent :: blocks).getLast? = some last)
    (hparent : selected_parent = tip ∨ K.setAt selected_parent = none) :
    Reaches K (ChainStores.walkUp K s diff tip selected_parent blocks) last := by
  induction blocks generalizing s diff tip selected_parent with
  | nil =>
    obtain rfl := Option.some.inj hlast
    exact ⟨s, diff, tip, rfl, h, hparent⟩
  | cons current blocks ih =>
    rw [isChain_cons_cons] at hchain
    obtain ⟨s₁, diff₁, tip₁, hstep, h₁, hcurrent⟩ := h.stepUp hK hchain.1 hparent
    rw [ChainStores.walkUp, hstep]
    exact ih h₁ hchain.2 hlast hcurrent

/-- A call reaches its target, or the target is not valid. -/
theorem call (hK : K.Admits) (h : Holds K s diff tip) (target : H) :
    Reaches K (s.calculateUtxoStateRelatively K diff tip target) target := by
  unfold ChainStores.calculateUtxoStateRelatively
  split_ifs with hdis
  · exact ⟨s, diff, tip, rfl, h, .inr (h.disqualified target hdis)⟩
  · obtain ⟨split_point, diff', hdown, hsplit, hat⟩ :=
      h.walkDown hK (· ∈ K.path target) (decide_eq_true (root_mem_path target))
    have hmem := of_decide_eq_true hsplit
    rw [hdown]
    exact hat.walkUp hK (isChain_above hmem) (getLast?_cons_above hmem) (.inl rfl)

/-- So does a run of calls. -/
theorem run (hK : K.Admits) (h : Holds K s diff tip) (targets : List H) (target : H) :
    Reaches K (s.run K diff tip (targets ++ [target])) target := by
  induction targets generalizing s diff tip with
  | nil =>
    obtain ⟨s', diff', tip', hcall, h'⟩ := h.call hK target
    rw [nil_append, ChainStores.run, hcall]
    exact ⟨s', diff', tip', rfl, h'⟩
  | cons first targets ih =>
    obtain ⟨s₁, diff₁, tip₁, hcall, h₁, -⟩ := h.call hK first
    rw [cons_append, ChainStores.run, hcall]
    exact ih h₁

end Holds

namespace Sample

open Classical in
/-- Blocks above genesis, the first of which replaces the entry; the others are not valid. -/
noncomputable def chain : UtxoChain ℕ where
  root := 0
  parent _ := 0
  height n := min n 1
  height_root := rfl
  height_parent n hn := by omega
  entry := standardEntry
  genesis := utxos
  genesis_genuine := genuine_utxos
  utxo_set := utxos.apply replaced
  genuine := genuine_utxos.apply genuine_replaced
  daa_score _ := 8
  txId
  accepted U b := if b = 1 ∧ U = utxos then some [replacing] else none

open Classical in
theorem chain_admits : chain.Admits := by
  intro U b txs _ h
  have hown : replacing.ownDiff txId 8 = replaced := rfl
  change (if b = 1 ∧ U = utxos then some [replacing] else none) = some txs at h
  split_ifs at h with hU
  obtain rfl := Option.some.inj h
  exact ⟨⟨hown ▸ genuine_replaced, hU.2 ▸ hown ▸ valid_replaced, by decide, by decide⟩, trivial⟩

end Sample

end Zkas.Utxo
