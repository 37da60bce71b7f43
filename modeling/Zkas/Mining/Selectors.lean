import Zkas.Lib.Checked
import Zkas.Pow.Header

/-!
# The selectors of a block template

A selector returns transactions for a block template round by round. The caller may reject some of a
round's selections, which frees their mass and their lane, and then ask for another round.
`SequenceSelector` tries a given sequence in order. `MutatingTreeSelector` draws candidates out of a
search tree.

The model leaves out the feerate weights, for any candidate may be drawn, and `is_successful` with
the two counters that only it reads. The workspace is built with overflow checks: an addition beyond
a `u64` aborts, and so does a subtraction below zero. -/

namespace Zkas.Mining

open Multiset AList

/-- A transaction id is a hash. -/
abbrev TransactionId := Pow.Hash

/-- A lane is a subnetwork. -/
abbrev LaneId := List.Vector UInt8 20

/-- The largest `u64`. -/
def U64_MAX : ℕ := 2 ^ 64 - 1

/-- Why a selector aborts. -/
inductive Panic where
  | overflow
  | underflow
  | expect

/-- `a += b`. -/
def add (a b : ℕ) : Except Panic ℕ := if a + b ≤ U64_MAX then .ok (a + b) else .error .overflow

/-- `a -= b`. -/
def sub (a b : ℕ) : Except Panic ℕ := if b ≤ a then .ok (a - b) else .error .underflow

/-- `expect`. -/
def expect {α : Type} : Option α → Except Panic α
  | some a => .ok a
  | none => .error .expect

/-- The limits of a block template. -/
structure Policy where
  max_block_mass : ℕ
  lanes_per_block_limit : ℕ
  gas_per_lane_limit : ℕ
  /-- The limit is a `u64`. -/
  max_block_mass_le : max_block_mass ≤ U64_MAX

/-- What a selector reads of a transaction and keeps of a selection. -/
structure Candidate where
  id : TransactionId
  /-- The transaction's subnetwork. -/
  lane : LaneId
  gas : ℕ
  mass : ℕ
  deriving DecidableEq

/-- What the selections use of a lane. -/
structure LaneUsage where
  tx_count : ℕ
  gas : ℕ

/-- The `occupied` lanes. -/
abbrev LaneSelectionState := AList fun _ : LaneId => LaneUsage

namespace LaneSelectionState

/-- The lanes after the selection, or `none` when a limit refuses it. -/
def trySelect (occupied : LaneSelectionState) (policy : Policy) (lane : LaneId) (gas : ℕ) :
    Except Panic (Option LaneSelectionState) :=
  match occupied.lookup lane with
  | some usage =>
    if policy.gas_per_lane_limit < min (usage.gas + gas) U64_MAX then .ok none
    else do return some (occupied.insert lane ⟨usage.tx_count + 1, ← add usage.gas gas⟩)
  | none =>
    if policy.lanes_per_block_limit ≤ occupied.keys.length ∨ policy.gas_per_lane_limit < gas then
      .ok none
    else .ok (some (occupied.insert lane ⟨1, gas⟩))

/-- Give back what a selection used of its lane. -/
def reject (occupied : LaneSelectionState) (lane : LaneId) (gas : ℕ) :
    Except Panic LaneSelectionState := do
  let usage ← expect (occupied.lookup lane)
  let tx_count ← sub usage.tx_count 1
  let gas ← sub usage.gas gas
  return if tx_count = 0 then occupied.erase lane else occupied.insert lane ⟨tx_count, gas⟩

end LaneSelectionState

/-- The map from ids that a vector of selections is collected into. -/
def collect (selected_vec : List Candidate) (tx_id : TransactionId) : Option Candidate :=
  selected_vec.reverse.find? (·.id = tx_id)

/-- The selector over a fixed sequence. -/
structure SequenceSelector where
  /-- The transactions with their priority index, in the order of the index. -/
  input_sequence : List (BitVec 32 × Candidate)
  selected_vec : List (BitVec 32 × Candidate) := []
  selected_map : Option (TransactionId → Option Candidate) := none
  total_selected_mass : ℕ := 0
  lanes : LaneSelectionState := ∅

namespace SequenceSelector

variable (self : SequenceSelector)

/-- The input without the selections of the previous round. -/
def remaining : List (BitVec 32 × Candidate) :=
  self.input_sequence.filter fun tx => tx.1 ∉ self.selected_vec.map Prod.fst

/-- The body of the selection loop. -/
def visit (policy : Policy) (self : SequenceSelector) (tx : BitVec 32 × Candidate) :
    Except Panic SequenceSelector :=
  if policy.max_block_mass < min (self.total_selected_mass + tx.2.mass) U64_MAX then .ok self
  else do
    match ← self.lanes.trySelect policy tx.2.lane tx.2.gas with
    | none => return self
    | some lanes =>
      return { self with
        lanes, total_selected_mass := ← add self.total_selected_mass tx.2.mass
        selected_vec := self.selected_vec ++ [tx] }

/-- A round: what is left of the input is tried in order. -/
def selectTransactions (policy : Policy) (self : SequenceSelector) :
    Except Panic (SequenceSelector × List Candidate) := do
  let input := self.remaining
  let self ← input.foldlM (visit policy)
    { self with input_sequence := input, selected_vec := [], selected_map := none }
  return (self, self.selected_vec.map Prod.snd)

/-- The map the next rejection reads. -/
def selections : TransactionId → Option Candidate :=
  self.selected_map.getD (collect (self.selected_vec.map Prod.snd))

/-- Take back a selection of the last round. -/
def rejectSelection (tx_id : TransactionId) :
    Except Panic SequenceSelector := do
  let selection ← expect (self.selections tx_id)
  let total ← sub self.total_selected_mass selection.mass
  let lanes ← self.lanes.reject selection.lane selection.gas
  return { self with
    lanes, total_selected_mass := total
    selected_map := some (Function.update self.selections tx_id none) }

end SequenceSelector

/-- The selector over a search tree; `gap` is the mass left. -/
structure MutatingTreeSelector where
  tree : List Candidate
  mass_deferred : List Candidate := []
  selected_vec : List Candidate := []
  selected_map : Option (TransactionId → Option Candidate) := none
  gap : ℕ
  lanes : LaneSelectionState := ∅

namespace MutatingTreeSelector

/-- The candidates that may fail to fit before a round ends. -/
def MAX_NULL_ATTEMPTS : ℕ := 8

/-- The candidate a query finds, clamped to the last one, and the tree without it. -/
def removeByQuery (tree : List Candidate) (query : ℕ) :
    Except Panic (Candidate × List Candidate) := do
  let i := min query (tree.length - 1)
  return (← expect tree[i]?, tree.eraseIdx i)

/-- The selection loop. Every turn takes a candidate out of the tree, so that as many turns as the
tree has candidates empty it. -/
def sample (policy : Policy) (draws : ℕ → ℕ) :
    ℕ → ℕ → MutatingTreeSelector → Except Panic MutatingTreeSelector
  | 0, _, self => .ok self
  | turns + 1, mass_null_attempts, self =>
    if self.tree.isEmpty ∨ MAX_NULL_ATTEMPTS ≤ mass_null_attempts then .ok self
    else do
      let (candidate, tree) ← removeByQuery self.tree (draws turns)
      if self.gap < candidate.mass then
        sample policy draws turns (mass_null_attempts + 1)
          { self with tree, mass_deferred := self.mass_deferred ++ [candidate] }
      else
        match ← self.lanes.trySelect policy candidate.lane candidate.gas with
        | none => sample policy draws turns mass_null_attempts { self with tree }
        | some lanes =>
          let gap ← sub self.gap candidate.mass
          sample policy draws turns mass_null_attempts
            { self with tree, lanes, gap, selected_vec := self.selected_vec ++ [candidate] }

/-- A round: the deferred candidates that fit return to the tree, and then it is sampled. -/
def selectTransactions (policy : Policy) (draws : ℕ → ℕ) (self : MutatingTreeSelector) :
    Except Panic (MutatingTreeSelector × List Candidate) := do
  let tree := self.tree ++ self.mass_deferred.filter (·.mass ≤ self.gap)
  let self ← sample policy draws tree.length 0
    { self with tree, mass_deferred := [], selected_vec := [], selected_map := none }
  return (self, self.selected_vec)

/-- The map the next rejection reads. -/
def selections (self : MutatingTreeSelector) : TransactionId → Option Candidate :=
  self.selected_map.getD (collect self.selected_vec)

/-- Take back a selection of the last round. -/
def rejectSelection (self : MutatingTreeSelector) (tx_id : TransactionId) :
    Except Panic MutatingTreeSelector := do
  let selection ← expect (self.selections tx_id)
  let gap ← add self.gap selection.mass
  let lanes ← self.lanes.reject selection.lane selection.gas
  return { self with
    lanes, gap
    -- the first rejection of a round drains the selections into the map
    selected_vec := if self.selected_map.isSome then self.selected_vec else []
    selected_map := some (Function.update self.selections tx_id none) }

end MutatingTreeSelector

/-! ## What a block template may hold -/

/-- The mass of the selections. -/
def massOf (m : Multiset Candidate) : ℕ := (m.map Candidate.mass).sum

/-- The gas of the selections on a lane. -/
def gasOn (m : Multiset Candidate) (lane : LaneId) : ℕ :=
  (m.map fun c => if c.lane = lane then c.gas else 0).sum

namespace Policy

/-- The selections keep the three limits. -/
def Allows (policy : Policy) (m : Multiset Candidate) : Prop :=
  massOf m ≤ policy.max_block_mass ∧
  (m.map Candidate.lane).toFinset.card ≤ policy.lanes_per_block_limit ∧
  ∀ lane, gasOn m lane ≤ policy.gas_per_lane_limit

/-- The one way in which a selection aborts: a sum overflows under a limit that no `u64` exceeds. -/
def Aborts (policy : Policy) (p : Panic) : Prop :=
  p = .overflow ∧ (U64_MAX ≤ policy.max_block_mass ∨ U64_MAX ≤ policy.gas_per_lane_limit)

end Policy

variable {policy : Policy} {lanes : LaneSelectionState} {mass : ℕ} {m : Multiset Candidate}
  {c : Candidate}

/-- A sum that passed the saturating check against a limit is within it, or overflows. -/
theorem add_ends {a b limit : ℕ} (h : ¬limit < min (a + b) U64_MAX) :
    (add a b).Ends (fun p => p = .overflow ∧ U64_MAX ≤ limit) fun s => s = a + b ∧
      a + b ≤ limit := by
  unfold add
  split_ifs with hfits
  · exact ⟨rfl, by omega⟩
  · exact ⟨rfl, by omega⟩

/-- The usage of a lane by the selections. -/
def usageOf (m : Multiset Candidate) (lane : LaneId) : Option LaneUsage :=
  if m.countP (·.lane = lane) = 0 then none else some ⟨m.countP (·.lane = lane), gasOn m lane⟩

/-- The lanes and the mass charged are those of the selections, within the limits. -/
structure Books (policy : Policy) (lanes : LaneSelectionState) (mass : ℕ)
    (m : Multiset Candidate) : Prop where
  usage : ∀ lane, lanes.lookup lane = usageOf m lane
  gas_le : ∀ lane, gasOn m lane ≤ policy.gas_per_lane_limit
  count : lanes.keys.length ≤ policy.lanes_per_block_limit
  mass_eq : mass = massOf m
  mass_le : mass ≤ policy.max_block_mass

namespace Books

/-- One more selection adds its gas to its lane. -/
theorem gasOn_cons (lane : LaneId) :
    gasOn (c ::ₘ m) lane = (if c.lane = lane then c.gas else 0) + gasOn m lane := by
  rw [gasOn, map_cons, sum_cons, ← gasOn]

/-- One more selection changes the usage of its lane only. -/
theorem usageOf_cons (lane : LaneId) : usageOf (c ::ₘ m) lane = if c.lane = lane then
    some ⟨m.countP (·.lane = lane) + 1, gasOn m lane + c.gas⟩ else usageOf m lane := by
  rw [usageOf, gasOn_cons, countP_cons]
  by_cases hlane : c.lane = lane
  · rw [if_pos hlane, if_pos hlane, if_pos hlane, if_neg (Nat.succ_ne_zero _), add_comm c.gas]
  · rw [if_neg hlane, if_neg hlane, if_neg hlane, zero_add, add_zero, usageOf]

/-- A selection within the limits is entered in the books. -/
theorem insert (h : Books policy lanes mass m)
    (hgas : gasOn m c.lane + c.gas ≤ policy.gas_per_lane_limit)
    (hlen : (c.lane :: lanes.keys.erase c.lane).length ≤ policy.lanes_per_block_limit)
    (hmass : mass + c.mass ≤ policy.max_block_mass) :
    Books policy (lanes.insert c.lane ⟨m.countP (·.lane = c.lane) + 1, gasOn m c.lane + c.gas⟩)
      (mass + c.mass) (c ::ₘ m) where
  usage lane := by
    rw [usageOf_cons]
    split_ifs with hlane
    · rw [hlane, lookup_insert]
    · rw [lookup_insert_ne (Ne.symm hlane), h.usage]
  gas_le lane := by
    rw [gasOn_cons]
    split_ifs with hlane
    · rw [← hlane, add_comm]
      exact hgas
    · rw [zero_add]
      exact h.gas_le lane
  count := by rwa [keys_insert]
  mass_eq := by rw [massOf, map_cons, sum_cons, ← massOf, h.mass_eq, add_comm]
  mass_le := hmass

/-- A selection is refused, or the books with it are kept. -/
theorem trySelect (h : Books policy lanes mass m) :
    (lanes.trySelect policy c.lane c.gas).Ends policy.Aborts fun o =>
      ∀ lanes' ∈ o, mass + c.mass ≤ policy.max_block_mass →
        Books policy lanes' (mass + c.mass) (c ::ₘ m) := by
  have husage := h.usage c.lane
  unfold LaneSelectionState.trySelect usageOf at *
  split_ifs at husage with hcount
  · have hnot := mt mem_keys.mpr (lookup_eq_none.mp husage)
    have hgas : gasOn m c.lane = 0 := by
      refine sum_eq_zero fun x hx => ?_
      obtain ⟨c', hc', rfl⟩ := mem_map.mp hx
      exact if_neg (countP_eq_zero.mp hcount c' hc')
    rw [husage]
    split_ifs with hfull
    · rintro lanes' ⟨⟩
    · rw [not_or, not_le, not_lt] at hfull
      rintro lanes' ⟨⟩ hmass
      have hbooks := h.insert (c := c) (by rw [hgas, zero_add]; exact hfull.2)
        (by rw [List.length_cons, List.erase_of_not_mem hnot]; exact hfull.1) hmass
      rwa [hcount, hgas, zero_add, zero_add] at hbooks
  · have hkeys := mem_keys.mp (lookup_isSome.mp (by rw [husage]; rfl))
    rw [husage]
    dsimp only
    split_ifs with hfull
    · rintro lanes' ⟨⟩
    · refine (add_ends hfull).bind (fun p hp => ⟨hp.1, .inr hp.2⟩) ?_
      rintro gas ⟨rfl, hle⟩ lanes' ⟨⟩ hmass
      refine h.insert hle ?_ hmass
      rw [List.length_cons, List.length_erase_add_one hkeys]
      exact h.count

/-- A rejection never aborts, and gives the books without the selection. -/
theorem reject (h : Books policy lanes mass (c ::ₘ m)) :
    (lanes.reject c.lane c.gas).Ends (fun _ => False) fun lanes' =>
      Books policy lanes' (mass - c.mass) m := by
  have husage := h.usage c.lane
  rw [usageOf_cons, if_pos rfl] at husage
  have hlen := List.length_erase_add_one (mem_keys.mp (lookup_isSome.mp (by rw [husage]; rfl)))
  -- the lane's entry is the only one that changes
  have hbooks : ∀ lanes' : LaneSelectionState, lanes'.lookup c.lane = usageOf m c.lane →
      (∀ lane ≠ c.lane, lanes'.lookup lane = lanes.lookup lane) →
      lanes'.keys.length ≤ lanes.keys.length → Books policy lanes' (mass - c.mass) m := by
    intro lanes' hself hother hkeys
    refine ⟨fun lane => ?_, fun lane => ?_, hkeys.trans h.count, ?_,
      (Nat.sub_le _ _).trans h.mass_le⟩
    · by_cases hlane : lane = c.lane
      · rw [hlane, hself]
      · rw [hother lane hlane, h.usage, usageOf_cons, if_neg (Ne.symm hlane)]
    · have hgas := h.gas_le lane
      rw [gasOn_cons] at hgas
      exact (Nat.le_add_left _ _).trans hgas
    · rw [h.mass_eq, massOf, map_cons, sum_cons, Nat.add_sub_cancel_left, massOf]
  simp only [LaneSelectionState.reject, husage, expect, Except.ok_bind, sub, Nat.add_sub_cancel,
    if_pos (Nat.le_add_left _ _)]
  split_ifs with hlast
  · refine hbooks _ ?_ (fun lane hne => lookup_erase_ne hne) ?_
    · rw [lookup_erase, usageOf, if_pos hlast]
    · rw [keys_erase]
      omega
  · refine hbooks _ ?_ (fun lane hne => lookup_insert_ne hne) ?_
    · rw [lookup_insert, usageOf, if_neg hlast]
    · rw [keys_insert, List.length_cons, hlen]

/-- Selections with kept books are within the policy. -/
theorem allows (h : Books policy lanes mass m) : policy.Allows m := by
  refine ⟨h.mass_eq ▸ h.mass_le, ?_, h.gas_le⟩
  have hsub : (m.map Candidate.lane).toFinset ⊆ lanes.keys.toFinset := by
    intro lane hlane
    obtain ⟨c, hc, rfl⟩ := mem_map.mp (mem_toFinset.mp hlane)
    obtain ⟨m', hm⟩ := exists_cons_of_mem hc
    rw [List.mem_toFinset, ← mem_keys, ← lookup_isSome, h.usage, hm, usageOf_cons, if_pos rfl]
    rfl
  exact ((Finset.card_le_card hsub).trans (List.toFinset_card_le _)).trans h.count

end Books

/-! ## The ledger of a run -/

/-- The selections of a run. -/
structure History where
  /-- The selections of the earlier rounds that were not rejected. -/
  before : Multiset Candidate
  /-- Those of the last round. -/
  round : Multiset Candidate
  /-- All that a round returned. -/
  returned : Multiset Candidate

namespace History

variable (h : History)

/-- The selections that count. -/
def live : Multiset Candidate := h.before + h.round

/-- A round is returned. -/
def select (txs : List Candidate) : History := ⟨h.live, txs, h.returned + txs⟩

/-- One of the round is rejected. -/
def reject (c : Candidate) : History := ⟨h.before, h.round.erase c, h.returned⟩

/-- One more selection of the round is one more that counts. -/
theorem live_select_append (txs : List Candidate) (c : Candidate) :
    (h.select (txs ++ [c])).live = c ::ₘ (h.select txs).live := by
  simp only [live, select, ← coe_add, coe_singleton]
  rw [← add_assoc, add_comm, singleton_add]

end History

/-- What a selector knows of the history: the books of what is selected, the map that a rejection
reads, and a supply of transactions that no round returned. -/
structure Ledger (policy : Policy) (lanes : LaneSelectionState) (mass : ℕ)
    (selections : TransactionId → Option Candidate) (supply : List Candidate) (h : History) :
    Prop where
  books : Books policy lanes mass h.live
  round_le : h.round ≤ h.returned
  selections_eq : ∀ c ∈ h.round, selections c.id = some c
  distinct : ((↑supply + h.returned).map Candidate.id).Nodup

variable {selections : TransactionId → Option Candidate} {supply txs : List Candidate} {h : History}

/-- A selection is found by its id. -/
theorem collect_eq (htxs : (txs.map Candidate.id).Nodup) (hc : c ∈ txs) :
    collect txs c.id = some c := by
  cases hfind : collect txs c.id with
  | none =>
    exact absurd (decide_eq_true rfl) (List.find?_eq_none.mp hfind c (List.mem_reverse.mpr hc))
  | some c' =>
    have hmem := List.mem_reverse.mp (List.mem_of_find?_eq_some hfind)
    rw [List.inj_on_of_nodup_map htxs hmem hc (of_decide_eq_true (List.find?_some hfind :))]

namespace Ledger

/-- A round without repetitions starts a new ledger. -/
theorem select (hbooks : Books policy lanes mass (h.select txs).live)
    (hdistinct : ((↑supply + (h.select txs).returned).map Candidate.id).Nodup) :
    Ledger policy lanes mass (collect txs) supply (h.select txs) where
  books := hbooks
  round_le := le_add_left _ _
  selections_eq c hc := by
    have hle : ↑txs ≤ ↑supply + (h.select txs).returned := (le_add_left _ _).trans (le_add_left _ _)
    have htxs := nodup_of_le (map_le_map hle) hdistinct
    exact collect_eq htxs (mem_coe.mp hc)
  distinct := hdistinct

/-- A rejection leaves the ledger without the selection. -/
theorem reject (hl : Ledger policy lanes mass selections supply h) (hc : c ∈ h.round) :
    c.mass ≤ mass ∧ (lanes.reject c.lane c.gas).Ends (fun _ => False) fun lanes' =>
      Ledger policy lanes' (mass - c.mass) (Function.update selections c.id none) supply
        (h.reject c) := by
  have hbooks := hl.books
  rw [History.live, ← cons_erase hc, add_cons] at hbooks
  have hround := nodup_of_le (map_le_map (hl.round_le.trans (le_add_left _ _))) hl.distinct
  rw [← cons_erase hc, map_cons, nodup_cons] at hround
  constructor
  · rw [hbooks.mass_eq, massOf, map_cons, sum_cons]
    exact Nat.le_add_right _ _
  · rw [← bind_pure (lanes.reject c.lane c.gas)]
    refine hbooks.reject.bind (fun _ => id) fun lanes' hbooks' => ?_
    refine ⟨hbooks', (erase_le c _).trans hl.round_le, fun c' hc' => ?_, hl.distinct⟩
    have hne : c'.id ≠ c.id := fun heq => hround.1 (heq ▸ mem_map_of_mem Candidate.id hc')
    rw [Function.update_of_ne hne]
    exact hl.selections_eq c' (mem_of_mem_erase hc')

end Ledger

namespace SequenceSelector

variable {s : SequenceSelector} {input done : List (BitVec 32 × Candidate)}

/-- The ledger as the selector keeps it. -/
def Inv (policy : Policy) (s : SequenceSelector) (h : History) : Prop :=
  Ledger policy s.lanes s.total_selected_mass s.selections (s.remaining.map Prod.snd) h

/-- The loop has gone over the part `done` of the input. -/
structure Visited (policy : Policy) (h : History) (input done : List (BitVec 32 × Candidate))
    (s : SequenceSelector) : Prop where
  input_eq : s.input_sequence = input
  map_eq : s.selected_map = none
  sublist : s.selected_vec.Sublist done
  books : Books policy s.lanes s.total_selected_mass (h.select (s.selected_vec.map Prod.snd)).live

/-- One turn of the loop. -/
theorem visit_ends (hs : Visited policy h input done s) (tx : BitVec 32 × Candidate) :
    (visit policy s tx).Ends policy.Aborts (Visited policy h input (done ++ [tx])) := by
  have hskip : Visited policy h input (done ++ [tx]) s :=
    { hs with sublist := hs.sublist.trans (List.sublist_append_left _ _) }
  unfold visit
  split_ifs with hfull
  · exact hskip
  · refine hs.books.trySelect.bind (fun _ => id) fun o ho => ?_
    cases o with
    | none => exact hskip
    | some lanes' =>
      refine (add_ends hfull).bind (fun p hp => ⟨hp.1, .inl hp.2⟩) ?_
      rintro total ⟨rfl, hle⟩
      refine ⟨hs.input_eq, hs.map_eq, hs.sublist.append_right [tx], ?_⟩
      rw [List.map_append, List.map_singleton, History.live_select_append]
      exact ho lanes' rfl hle

/-- The whole loop. -/
theorem foldlM_visit_ends (rest : List (BitVec 32 × Candidate))
    (hs : Visited policy h input done s) :
    (rest.foldlM (visit policy) s).Ends policy.Aborts (Visited policy h input (done ++ rest)) := by
  induction rest generalizing s done with
  | nil => rwa [List.append_nil]
  | cons tx rest ih =>
    rw [List.foldlM_cons, List.append_cons]
    exact (visit_ends hs tx).bind (fun _ => id) fun s' hs' => ih hs'

/-- What remains and what was selected were in the input, without overlap. -/
theorem Visited.remaining_add_le (hs : Visited policy h input input s) :
    (s.remaining + s.selected_vec : Multiset (BitVec 32 × Candidate)) ≤ input := by
  have hsplit := filter_add_not (fun tx : BitVec 32 × Candidate =>
    tx.1 ∉ s.selected_vec.map Prod.fst) input
  rw [remaining, hs.input_eq, ← filter_coe]
  refine (add_le_add le_rfl ?_).trans_eq hsplit
  rw [le_filter]
  exact ⟨hs.sublist.subperm, fun tx htx => not_not.mpr (List.mem_map_of_mem htx)⟩

/-- A round keeps the ledger. -/
theorem Inv.selectTransactions (hs : s.Inv policy h) :
    (s.selectTransactions policy).Ends policy.Aborts fun r => r.1.Inv policy (h.select r.2) := by
  have hbooks := hs.books
  rw [← add_zero h.live] at hbooks
  refine (foldlM_visit_ends s.remaining ⟨rfl, rfl, .slnil, hbooks⟩).bind
    (fun _ => id) fun s' hs' => ?_
  have hselections : s'.selections = collect (s'.selected_vec.map Prod.snd) := by
    rw [selections, hs'.map_eq]
    rfl
  change Ledger _ _ _ _ _ _
  rw [hselections]
  refine Ledger.select hs'.books (nodup_of_le (map_le_map ?_) hs.distinct)
  rw [History.select, add_left_comm, ← map_coe, ← map_coe, ← map_coe, ← map_add, add_comm]
  exact add_le_add_left (map_le_map hs'.remaining_add_le) _

/-- A rejection keeps the ledger, and does not abort. -/
theorem Inv.rejectSelection (hs : s.Inv policy h) (hc : c ∈ h.round) :
    (s.rejectSelection c.id).Ends (fun _ => False) fun s' => s'.Inv policy (h.reject c) := by
  obtain ⟨hmass, hlanes⟩ := Ledger.reject hs hc
  simp only [SequenceSelector.rejectSelection, hs.selections_eq c hc, expect, sub, if_pos hmass,
    Except.ok_bind]
  exact hlanes.bind (fun _ => id) fun lanes' hl => hl

end SequenceSelector

namespace MutatingTreeSelector

variable {s : MutatingTreeSelector}

/-- The ledger as the selector keeps it; the mass charged is what the gap lacks. -/
def Inv (policy : Policy) (s : MutatingTreeSelector) (h : History) : Prop :=
  s.gap ≤ policy.max_block_mass ∧ Ledger policy s.lanes (policy.max_block_mass - s.gap) s.selections
    (s.tree ++ s.mass_deferred) h

/-- What the loop keeps. -/
structure Sampled (policy : Policy) (h : History) (s : MutatingTreeSelector) : Prop where
  gap_le : s.gap ≤ policy.max_block_mass
  map_eq : s.selected_map = none
  books : Books policy s.lanes (policy.max_block_mass - s.gap) (h.select s.selected_vec).live
  distinct : ((↑(s.tree ++ s.mass_deferred) + (h.select s.selected_vec).returned).map
    Candidate.id).Nodup

/-- A query takes one candidate out of a tree that has any. -/
theorem removeByQuery_ends {tree : List Candidate} (h : tree ≠ []) (query : ℕ) :
    (removeByQuery tree query).Ends (fun _ => False) fun r => tree.Perm (r.1 :: r.2) := by
  have hi : min query (tree.length - 1) < tree.length := by
    have := List.length_pos_iff.mpr h
    omega
  simp only [removeByQuery, List.getElem?_eq_getElem hi]
  exact (List.getElem_cons_eraseIdx_perm hi).symm

/-- The loop keeps its invariant, whatever is drawn. -/
theorem sample_ends (draws : ℕ → ℕ) (turns attempts : ℕ) (hs : Sampled policy h s) :
    (sample policy draws turns attempts s).Ends policy.Aborts (Sampled policy h) := by
  induction turns generalizing attempts s with
  | zero => exact hs
  | succ turns ih =>
    rw [sample]
    split_ifs with hstop
    · exact hs
    · rw [not_or, List.isEmpty_iff] at hstop
      refine (removeByQuery_ends hstop.1 _).bind (fun p => False.elim) ?_
      rintro ⟨candidate, tree⟩ hperm
      have htree : (s.tree : Multiset Candidate) = candidate ::ₘ ↑tree := coe_eq_coe.mpr hperm
      have hgap := hs.gap_le
      have hdistinct := hs.distinct
      rw [← coe_add, htree, ← singleton_add] at hdistinct
      dsimp only
      split_ifs with hmass
      · refine ih _ ⟨hgap, hs.map_eq, hs.books, nodup_of_le (map_le_map (le_of_eq ?_)) hdistinct⟩
        rw [← coe_add, ← coe_add, coe_singleton]
        abel
      · refine hs.books.trySelect.bind (fun _ => id) fun o ho => ?_
        cases o with
        | none =>
          refine ih _ ⟨hgap, hs.map_eq, hs.books, nodup_of_le (map_le_map ?_) hdistinct⟩
          exact add_le_add (add_le_add (le_add_left _ _) le_rfl) le_rfl
        | some lanes' =>
          have hbooks := ho lanes' rfl (by omega)
          have hselected : policy.max_block_mass - s.gap + candidate.mass =
              policy.max_block_mass - (s.gap - candidate.mass) := by omega
          rw [hselected, ← History.live_select_append] at hbooks
          simp only [sub, if_pos (not_lt.mp hmass), Except.ok_bind]
          refine ih _ ⟨(Nat.sub_le _ _).trans hgap, hs.map_eq, hbooks,
            nodup_of_le (map_le_map (le_of_eq ?_)) hdistinct⟩
          simp only [History.select, ← coe_add, coe_singleton]
          abel

/-- A round keeps the ledger. -/
theorem Inv.selectTransactions (draws : ℕ → ℕ) (hs : s.Inv policy h) :
    (s.selectTransactions policy draws).Ends policy.Aborts fun r =>
      r.1.Inv policy (h.select r.2) := by
  obtain ⟨hgap, hledger⟩ := hs
  have hbooks := hledger.books
  rw [← add_zero h.live] at hbooks
  refine Except.Ends.bind (sample_ends (h := h) draws _ 0 ?_) (fun _ => id) fun s' hs' =>
    ⟨hs'.gap_le, ?_⟩
  · refine ⟨hgap, rfl, hbooks, nodup_of_le (map_le_map ?_) hledger.distinct⟩
    refine add_le_add (coe_le.mpr (List.Sublist.subperm ?_)) (add_zero h.returned).le
    rw [List.append_nil]
    exact List.filter_sublist.append_left _
  · have hselections : s'.selections = collect s'.selected_vec := by
      rw [selections, hs'.map_eq]
      rfl
    rw [hselections]
    exact Ledger.select hs'.books hs'.distinct

/-- A rejection keeps the ledger, and does not abort. -/
theorem Inv.rejectSelection (hs : s.Inv policy h) (hc : c ∈ h.round) :
    (s.rejectSelection c.id).Ends (fun _ => False) fun s' => s'.Inv policy (h.reject c) := by
  obtain ⟨hgap, hledger⟩ := hs
  obtain ⟨hmass, hlanes⟩ := hledger.reject hc
  have hmax := policy.max_block_mass_le
  simp only [MutatingTreeSelector.rejectSelection, hledger.selections_eq c hc, expect, add,
    if_pos (show s.gap + c.mass ≤ U64_MAX by omega), Except.ok_bind]
  refine hlanes.bind (fun _ => id) fun lanes' hl => ⟨?_, ?_⟩
  · change s.gap + c.mass ≤ _
    omega
  · rwa [Nat.sub_sub] at hl

end MutatingTreeSelector

/-! ## Runs -/

section

variable {S : Type} (select : (ℕ → ℕ) → S → Except Panic (S × List Candidate))
  (reject : S → TransactionId → Except Panic S) (new : S)

/-- The states and histories that the two calls of a selector lead to: a round selects with any
random draws, and then some of its selections are rejected, each once. -/
inductive Runs : S → History → Prop
  | new : Runs new ⟨0, 0, 0⟩
  | select {s s' h draws txs} : Runs s h → select draws s = .ok (s', txs) → Runs s' (h.select txs)
  | reject {s s' h c} : Runs s h → c ∈ h.round → reject s c.id = .ok s' → Runs s' (h.reject c)

/-- Along every run the selections stay within the policy, no transaction is returned twice, and no
call aborts but for a sum that overflows. -/
def Sound (policy : Policy) : Prop :=
  ∀ s h, Runs select reject new s h → policy.Allows h.live ∧ (h.returned.map Candidate.id).Nodup ∧
    (∀ draws p, select draws s = .error p → policy.Aborts p) ∧
    ∀ c ∈ h.round, ∃ s', reject s c.id = .ok s'

variable {select reject new}

/-- A selector is sound when its calls keep an invariant that has a ledger. -/
theorem sound_of_inv (Inv : S → History → Prop)
    (hledger : ∀ {s h}, Inv s h → ∃ lanes mass selections supply,
      Ledger policy lanes mass selections supply h)
    (hnew : Inv new ⟨0, 0, 0⟩)
    (hselect : ∀ {s h} draws, Inv s h →
      (select draws s).Ends policy.Aborts fun r => Inv r.1 (h.select r.2))
    (hreject : ∀ {s h c}, Inv s h → c ∈ h.round →
      (reject s c.id).Ends (fun _ => False) fun s' => Inv s' (h.reject c)) :
    Sound select reject new policy := by
  intro s h hrun
  have hinv : Inv s h := by
    induction hrun with
    | new => exact hnew
    | @select s s' h draws txs _ hcall ih =>
      have := hselect draws ih
      rwa [hcall] at this
    | @reject s s' h c _ hc hcall ih =>
      have := hreject ih hc
      rwa [hcall] at this
  obtain ⟨lanes, mass, selections, supply, hl⟩ := hledger hinv
  refine ⟨hl.books.allows, nodup_of_le (map_le_map (le_add_left _ _)) hl.distinct,
    fun draws p hp => ?_, fun c hc => ?_⟩
  · have := hselect draws hinv
    rwa [hp] at this
  · have := hreject hinv hc
    cases hcall : reject s c.id with
    | error p => rw [hcall] at this; exact this.elim
    | ok s' => exact ⟨s', rfl⟩

end

/-- The ledger before the first round. -/
theorem Ledger.new (hsupply : (supply.map Candidate.id).Nodup) :
    Ledger policy ∅ 0 (collect []) supply ⟨0, 0, 0⟩ where
  books := ⟨fun lane => rfl, fun lane => Nat.zero_le _, Nat.zero_le _, rfl, Nat.zero_le _⟩
  round_le := le_rfl
  selections_eq c hc := absurd hc (notMem_zero c)
  distinct := by rwa [add_zero, map_coe, coe_nodup]

namespace Sample

/-- Transactions of one lane, of mass 4 and gas 3. -/
def candidate (n : UInt8) : Candidate := ⟨.replicate 32 n, .replicate 20 0, 3, 4⟩

/-- The sample's mass limit is a `u64`. -/
theorem mass_le : 10 ≤ U64_MAX := by decide

/-- Mass 10 in a single lane with gas 5. -/
def smallPolicy : Policy := ⟨10, 1, 5, mass_le⟩

end Sample

end Zkas.Mining
