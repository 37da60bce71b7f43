import Zkas.Lib.Checked

/-!
# The search for a mergeset

Model of `unordered_mergeset_without_selected_parent` in
`consensus/src/processes/ghostdag/mergeset.rs`: a breadth-first search from the parents of a block
towards the past that stops at blocks in the past of the selected parent. A hash set is a list
without duplicates here. The loop runs on a number of rounds that is always enough: every round
takes a block off the queue, and no block that is found is queued twice. -/

namespace Zkas.Dag

open List

variable {B : Type} [DecidableEq B]

/-- Where the code below can panic; `diverged` stands for a loop that does not end. -/
inductive Panic where
  /-- `genesis must be added via a call to init`. -/
  | noParents
  /-- The `unwrap` of a store error. -/
  | missing
  /-- An addition on `KType` overflows. -/
  | sizeOverflow
  /-- The addition on the blue score overflows. -/
  | scoreOverflow
  /-- `block is not in blue set of the given context`. -/
  | notInBlueSet
  /-- `found blue anticone larger than K`. -/
  | anticoneAboveK
  | diverged
  deriving DecidableEq, Repr

/-- The state of the search. -/
structure Search (B : Type) where
  queue : List B
  mergeset : List B
  past : List B

/-- One round of the loop over the parents of a block; `in_past` is the query whether a block is in
the past of the selected parent. -/
def visitParent (in_past : B → Bool) (s : Search B) (parent : B) : Search B :=
  if parent ∈ s.mergeset ∨ parent ∈ s.past then s
  else if in_past parent then { s with past := parent :: s.past }
  else { s with mergeset := s.mergeset ++ [parent], queue := s.queue ++ [parent] }

/-- The loop over the queue. -/
def searchLoop (get_parents : B → Option (List B)) (in_past : B → Bool) :
    ℕ → Search B → Except Panic (List B)
  | 0, _ => .error .diverged
  | fuel + 1, s =>
    match s.queue with
    | [] => .ok s.mergeset
    | current :: queue => do
      let current_parents ← (get_parents current).okOr .missing
      searchLoop get_parents in_past fuel
        (current_parents.foldl (visitParent in_past) { s with queue })

/-- The blocks that a block with given parents merges, without its selected parent. -/
def unorderedMergesetWithoutSelectedParent (fuel : ℕ) (get_parents : B → Option (List B))
    (is_dag_ancestor_of : B → B → Bool) (selected_parent : B) (parents : List B) :
    Except Panic (List B) :=
  let queue := parents.filter (· ≠ selected_parent)
  searchLoop get_parents (is_dag_ancestor_of · selected_parent) fuel ⟨queue, queue.dedup, []⟩

/-! ## What the search finds -/

section

variable (get_parents : B → Option (List B))

/-- One block is a parent of another. -/
def IsParent (a b : B) : Prop := ∃ ps, get_parents b = some ps ∧ a ∈ ps

/-- One block is another or in its past. -/
abbrev Reaches : B → B → Prop := Relation.ReflTransGen (IsParent get_parents)

/-- What the search needs: a finite set `U` of known blocks that holds the parents of its members,
those in the past of the selected parent apart, and a past that is closed under parents. -/
structure Searchable (in_past : B → Bool) (U : Finset B) : Prop where
  parents : ∀ b ∈ U, ∃ ps, get_parents b = some ps ∧ ∀ p ∈ ps, p ∈ U ∨ in_past p = true
  past : ∀ {a b}, in_past b = true → IsParent get_parents a b → in_past a = true

/-- What the search knows, from given blocks on. The parents of a block `pending` are still being
looked at. -/
structure SearchInv (in_past : B → Bool) (U : Finset B) (start : List B) (pending : Option B)
    (s : Search B) : Prop where
  start_mem : ∀ b ∈ start, b ∈ s.mergeset
  queue_mem : ∀ b ∈ s.queue, b ∈ s.mergeset
  known : ∀ b ∈ s.mergeset, b ∈ U
  reaches : ∀ b ∈ s.mergeset, ∃ q ∈ start, Reaches get_parents b q
  outside : ∀ b ∈ s.mergeset, in_past b = false
  past : ∀ b ∈ s.past, in_past b = true
  nodup : s.mergeset.Nodup
  closed : ∀ b ∈ s.mergeset, b ∉ s.queue → some b ≠ pending →
    ∀ p, IsParent get_parents p b → p ∈ s.mergeset ∨ in_past p = true

variable {get_parents} {in_past : B → Bool} {U : Finset B} {start : List B} {s : Search B}

/-- The work that is left: the blocks on the queue and those not found yet. -/
def Search.work (U : Finset B) (s : Search B) : ℕ := s.queue.length + (U \ s.mergeset.toFinset).card

/-- Looking at a parent keeps the invariant and the work that is left, and the parent is found or in
the past. -/
theorem SearchInv.visitParent {current p : B}
    (h : SearchInv get_parents in_past U start (some current) s)
    (hcurrent : current ∈ s.mergeset) (hp : IsParent get_parents p current)
    (hU : p ∈ U ∨ in_past p = true) :
    SearchInv get_parents in_past U start (some current) (visitParent in_past s p) ∧
      (visitParent in_past s p).work U = s.work U ∧
      (∀ b ∈ s.mergeset, b ∈ (visitParent in_past s p).mergeset) ∧
      (p ∈ (visitParent in_past s p).mergeset ∨ in_past p = true) := by
  unfold Dag.visitParent
  split_ifs with hseen hpast
  · exact ⟨h, rfl, fun _ hb => hb, hseen.imp_right (h.past p)⟩
  · refine ⟨{ h with past := ?_ }, rfl, fun _ hb => hb, .inr hpast⟩
    intro b hb
    obtain rfl | hb := mem_cons.mp hb
    · exact hpast
    · exact h.past b hb
  · have hnew : p ∉ s.mergeset := fun hmem => hseen (.inl hmem)
    have hpU : p ∈ U := hU.resolve_right hpast
    have hmono (b : B) (hb : b ∈ s.mergeset) : b ∈ s.mergeset ++ [p] := mem_append_left _ hb
    refine ⟨⟨fun b hb => hmono b (h.start_mem b hb), ?_, ?_, ?_, ?_, h.past, ?_, ?_⟩, ?_, hmono,
      .inl (mem_append_right _ (mem_singleton_self p))⟩
    · intro b hb
      obtain hb | hb := mem_append.mp hb
      · exact hmono b (h.queue_mem b hb)
      · exact mem_append_right _ hb
    · intro b hb
      obtain hb | hb := mem_append.mp hb
      · exact h.known b hb
      · exact mem_singleton.mp hb ▸ hpU
    · intro b hb
      obtain hb | hb := mem_append.mp hb
      · exact h.reaches b hb
      · obtain rfl := mem_singleton.mp hb
        obtain ⟨q, hq, hreach⟩ := h.reaches current hcurrent
        exact ⟨q, hq, .head hp hreach⟩
    · intro b hb
      obtain hb | hb := mem_append.mp hb
      · exact h.outside b hb
      · exact mem_singleton.mp hb ▸ Bool.eq_false_iff.mpr hpast
    · exact h.nodup.append (nodup_singleton p) (disjoint_singleton.mpr hnew)
    · intro b hb hqueue hpending q hq
      obtain ⟨hqueue, hne⟩ := not_or.mp (mt mem_append.mpr hqueue)
      have hb : b ∈ s.mergeset := (mem_append.mp hb).resolve_right hne
      exact (h.closed b hb hqueue hpending q hq).imp_left (hmono q)
    · have herase : U \ (s.mergeset ++ [p]).toFinset = (U \ s.mergeset.toFinset).erase p := by
        ext b
        simp only [Finset.mem_sdiff, mem_toFinset, mem_append, mem_singleton,
          Finset.mem_erase, not_or]
        tauto
      have hmem : p ∈ U \ s.mergeset.toFinset :=
        Finset.mem_sdiff.mpr ⟨hpU, fun hmem => hnew (mem_toFinset.mp hmem)⟩
      have hpos : 0 < (U \ s.mergeset.toFinset).card := Finset.card_pos.mpr ⟨p, hmem⟩
      change (s.queue ++ [p]).length + (U \ (s.mergeset ++ [p]).toFinset).card = s.work U
      rw [herase, Finset.card_erase_of_mem hmem, length_append, length_singleton, Search.work]
      omega

/-- Looking at all parents of a block keeps the invariant and the work that is left; every parent is
then found or in the past. -/
theorem SearchInv.visitParents {current : B} {ps : List B}
    (h : SearchInv get_parents in_past U start (some current) s)
    (hcurrent : current ∈ s.mergeset) (hps : ∀ p ∈ ps, IsParent get_parents p current)
    (hU : ∀ p ∈ ps, p ∈ U ∨ in_past p = true) :
    SearchInv get_parents in_past U start (some current) (ps.foldl (Dag.visitParent in_past) s) ∧
      (ps.foldl (Dag.visitParent in_past) s).work U = s.work U ∧
      (∀ b ∈ s.mergeset, b ∈ (ps.foldl (Dag.visitParent in_past) s).mergeset) ∧
      ∀ p ∈ ps, p ∈ (ps.foldl (Dag.visitParent in_past) s).mergeset ∨ in_past p = true := by
  induction ps generalizing s with
  | nil => exact ⟨h, rfl, fun _ hb => hb, fun _ hp => nomatch hp⟩
  | cons p ps ih =>
    obtain ⟨hinv, hwork, hmono, hfound⟩ := h.visitParent hcurrent (hps p mem_cons_self)
      (hU p mem_cons_self)
    obtain ⟨hinv', hwork', hmono', hfound'⟩ := ih hinv (hmono current hcurrent)
      (fun q hq => hps q (mem_cons_of_mem _ hq))
      (fun q hq => hU q (mem_cons_of_mem _ hq))
    refine ⟨hinv', hwork'.trans hwork, fun b hb => hmono' b (hmono b hb), fun q hq => ?_⟩
    obtain rfl | hq := mem_cons.mp hq
    · exact hfound.imp_left (hmono' q)
    · exact hfound' q hq

omit [DecidableEq B] in
/-- Walking down from a starting block one stays among the found blocks, or enters the past. -/
theorem SearchInv.found (hU : Searchable get_parents in_past U)
    (h : SearchInv get_parents in_past U start none s) (hqueue : s.queue = []) {b q : B}
    (hq : q ∈ start) (hreach : Reaches get_parents b q) : b ∈ s.mergeset ∨ in_past b = true := by
  induction hreach using Relation.ReflTransGen.head_induction_on with
  | refl => exact .inl (h.start_mem q hq)
  | head hstep _ ih =>
    obtain hmem | hpast := ih
    · exact h.closed _ hmem (hqueue ▸ not_mem_nil) (Option.some_ne_none _) _ hstep
    · exact .inr (hU.past hpast hstep)

/-- The search starts at the parents outside the past. -/
theorem searchInv_start {queue : List B} (h : ∀ b ∈ queue, b ∈ U ∧ in_past b = false) :
    SearchInv get_parents in_past U queue none ⟨queue, queue.dedup, []⟩ where
  start_mem _ hb := mem_dedup.mpr hb
  queue_mem _ hb := mem_dedup.mpr hb
  known b hb := (h b (mem_dedup.mp hb)).1
  reaches b hb := ⟨b, mem_dedup.mp hb, .refl⟩
  outside b hb := (h b (mem_dedup.mp hb)).2
  past _ hb := absurd hb not_mem_nil
  nodup := nodup_dedup _
  closed _ hb hnot := absurd (mem_dedup.mp hb) hnot

/-- The search ends, with the blocks that a starting block reaches and that are not in the past. -/
theorem searchLoop_spec (hU : Searchable get_parents in_past U) {fuel : ℕ}
    (h : SearchInv get_parents in_past U start none s) (hfuel : s.work U < fuel) :
    ∃ mergeset, searchLoop get_parents in_past fuel s = .ok mergeset ∧ mergeset.Nodup ∧
      ∀ b, b ∈ mergeset ↔ (∃ q ∈ start, Reaches get_parents b q) ∧ in_past b = false := by
  induction fuel generalizing s with
  | zero => exact absurd hfuel (Nat.not_lt_zero _)
  | succ fuel ih =>
    rw [searchLoop]
    cases hqueue : s.queue with
    | nil =>
      refine ⟨s.mergeset, rfl, h.nodup, fun b => ⟨fun hb => ⟨h.reaches b hb, h.outside b hb⟩, ?_⟩⟩
      rintro ⟨⟨q, hq, hreach⟩, houtside⟩
      exact (h.found hU hqueue hq hreach).resolve_right (Bool.eq_false_iff.mp houtside)
    | cons current queue =>
      have hcurrent : current ∈ s.mergeset := h.queue_mem current (hqueue ▸ mem_cons_self)
      obtain ⟨ps, hps, hmem⟩ := hU.parents current (h.known current hcurrent)
      dsimp only
      rw [hps]
      have hstart : SearchInv get_parents in_past U start (some current) { s with queue } := by
        refine { h with queue_mem := fun b hb => ?_, closed := fun b hb hnot hne => ?_ }
        · exact h.queue_mem b (hqueue ▸ mem_cons_of_mem _ hb)
        · refine h.closed b hb (fun hmem => ?_) (Option.some_ne_none b)
          rw [hqueue] at hmem
          obtain rfl | hmem := mem_cons.mp hmem
          · exact hne rfl
          · exact hnot hmem
      have hparent (p : B) (hp : p ∈ ps) : IsParent get_parents p current := ⟨ps, hps, hp⟩
      obtain ⟨hinv, hwork, -, hfound⟩ := hstart.visitParents hcurrent hparent hmem
      refine ih { hinv with closed := fun b hb hnot _ p hp => ?_ } ?_
      · by_cases heq : b = current
        · subst heq
          obtain ⟨ps', hps', hp'⟩ := hp
          obtain rfl := Option.mem_unique hps hps'
          exact hfound p hp'
        · exact hinv.closed b hb hnot (fun h => heq (Option.some.inj h)) p hp
      · have hold : s.work U = queue.length + 1 + (U \ s.mergeset.toFinset).card := by
          rw [Search.work, hqueue, length_cons]
        have hrest : (Search.work U { s with queue }) =
            queue.length + (U \ s.mergeset.toFinset).card := rfl
        omega

/-- The mergeset without the selected parent: what the other parents reach and the selected parent
does not, provided that no other parent is in its past. -/
theorem unorderedMergeset_spec {is_dag_ancestor_of : B → B → Bool} {selected_parent : B}
    {parents : List B} {fuel : ℕ}
    (hU : Searchable get_parents (is_dag_ancestor_of · selected_parent) U)
    (hparents : ∀ p ∈ parents, p ≠ selected_parent →
      p ∈ U ∧ is_dag_ancestor_of p selected_parent = false)
    (hfuel : parents.length + U.card < fuel) :
    ∃ mergeset, unorderedMergesetWithoutSelectedParent fuel get_parents is_dag_ancestor_of
        selected_parent parents = .ok mergeset ∧ mergeset.Nodup ∧
      ∀ b, b ∈ mergeset ↔ (∃ p ∈ parents, p ≠ selected_parent ∧ Reaches get_parents b p) ∧
          is_dag_ancestor_of b selected_parent = false := by
  have hmem {b : B} :
      b ∈ parents.filter (· ≠ selected_parent) ↔ b ∈ parents ∧ b ≠ selected_parent := by
    rw [mem_filter, decide_eq_true_iff]
  have hinv : SearchInv get_parents (is_dag_ancestor_of · selected_parent) U
      (parents.filter (· ≠ selected_parent)) none
      ⟨parents.filter (· ≠ selected_parent), (parents.filter (· ≠ selected_parent)).dedup, []⟩ :=
    searchInv_start fun b hb => hparents b (hmem.mp hb).1 (hmem.mp hb).2
  have hwork : Search.work U ⟨parents.filter (· ≠ selected_parent),
      (parents.filter (· ≠ selected_parent)).dedup, []⟩ < fuel := by
    have hlen : (parents.filter (· ≠ selected_parent)).length ≤ parents.length :=
      length_filter_le _ _
    have hcard : (U \ (parents.filter (· ≠ selected_parent)).dedup.toFinset).card ≤ U.card :=
      Finset.card_le_card Finset.sdiff_subset
    rw [Search.work]
    dsimp only
    omega
  obtain ⟨mergeset, hok, hnodup, hiff⟩ := searchLoop_spec hU hinv hwork
  refine ⟨mergeset, hok, hnodup, fun b => (hiff b).trans (and_congr_left fun _ => ?_)⟩
  constructor
  · rintro ⟨q, hq, hreach⟩
    obtain ⟨hq, hne⟩ := hmem.mp hq
    exact ⟨q, hq, hne, hreach⟩
  · rintro ⟨q, hq, hne, hreach⟩
    exact ⟨q, hmem.mpr ⟨hq, hne⟩, hreach⟩

end

end Zkas.Dag
