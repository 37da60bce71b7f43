import Zkas.Utxo.Diff

/-!
# The algebra of UTXO diffs

An entry is determined by its outpoint and its DAA score (`GenuineEntries`). Then a diff that is
valid on a UTXO set is, at each outpoint, the difference between the entries before and after it
(`Valid.delta_eq`), and the operations on diffs are those on differences: their checks pass, and
`with_diff` is `Delta.merge`, `diff_from` is `Delta.relate`. -/

namespace Zkas.Utxo

open List Option AList UtxoDiff Delta

open Zkas.Pow (Hash TransactionOutpoint)

/-- A UTXO set: at most one entry for an outpoint. -/
abbrev UtxoSet := TransactionOutpoint → Option UtxoEntry

/-- What a diff removes and adds at an outpoint. -/
def UtxoDiff.delta (d : UtxoDiff) (o : TransactionOutpoint) : Option UtxoEntry × Option UtxoEntry :=
  (d.remove.lookup o, d.add.lookup o)

/-- A UTXO set with a diff. -/
def UtxoSet.apply (U : UtxoSet) (d : UtxoDiff) : UtxoSet := fun o => Delta.apply (U o) (d.delta o)

variable (entry : TransactionOutpoint → BitVec 64 → UtxoEntry)

/-- The entries are those that the outpoint and the DAA score determine. -/
def GenuineEntries (U : UtxoSet) : Prop := ∀ o e, U o = some e → e = entry o e.block_daa_score

/-- The entries of a diff are. -/
structure UtxoDiff.Genuine (d : UtxoDiff) : Prop where
  add : GenuineEntries entry fun o => d.add.lookup o
  remove : GenuineEntries entry fun o => d.remove.lookup o

/-- A diff is valid on a UTXO set: what is removed is in it, no added outpoint is present after
removing, and no entry is both removed and added. -/
structure UtxoDiff.Valid (U : UtxoSet) (d : UtxoDiff) : Prop where
  removed : ∀ o e, d.remove.lookup o = some e → U o = some e
  fresh : ∀ o a, d.add.lookup o = some a → remaining (U o) (d.remove.lookup o) = none
  distinct : ∀ o e a, d.remove.lookup o = some e → d.add.lookup o = some a →
    e.block_daa_score ≠ a.block_daa_score

variable {entry} {U V : UtxoSet} {d d₁ d₂ : UtxoDiff} {o : TransactionOutpoint} {e f a : UtxoEntry}

theorem GenuineEntries.eq (hU : GenuineEntries entry U) (hV : GenuineEntries entry V)
    (he : U o = some e) (hf : V o = some f) (hdaa : e.block_daa_score = f.block_daa_score) :
    e = f := by
  rw [hU o e he, hV o f hf, hdaa]

/-! ## Diffs as differences -/

theorem UtxoDiff.Valid.delta (hvalid : d.Valid U) (o : TransactionOutpoint) :
    Delta.Valid (U o) (d.delta o) where
  removed hne := by
    obtain ⟨e, he⟩ := ne_none_iff_exists'.mp hne
    exact he.trans (hvalid.removed o e he).symm
  fresh hne := by
    obtain ⟨a, ha⟩ := ne_none_iff_exists'.mp hne
    exact hvalid.fresh o a ha
  distinct hne heq := by
    obtain ⟨e, he⟩ := ne_none_iff_exists'.mp hne
    exact hvalid.distinct o e e he (heq.symm.trans he) rfl

theorem UtxoDiff.Valid.delta_eq (hvalid : d.Valid U) (o : TransactionOutpoint) :
    d.delta o = Delta.between (U o) (U.apply d o) :=
  (hvalid.delta o).eq_between

theorem UtxoDiff.apply_of_add (ha : d.add.lookup o = some a) : U.apply d o = some a := by
  rw [UtxoSet.apply, Delta.apply, show (d.delta o).2 = some a from ha]
  rfl

/-- A diff that is the difference between two sets is valid on the first and gives the second. -/
theorem UtxoDiff.valid_of_between (hU : GenuineEntries entry U) (hV : GenuineEntries entry V)
    (h : ∀ o, d.delta o = Delta.between (U o) (V o)) : d.Valid U ∧ U.apply d = V := by
  have hdelta (o : TransactionOutpoint) : Delta.Valid (U o) (d.delta o) :=
    (h o) ▸ Delta.valid_between (U o) (V o)
  have happly : U.apply d = V := funext fun o => by rw [UtxoSet.apply, h o, apply_between]
  have hremoved {o : TransactionOutpoint} {e : UtxoEntry} (he : d.remove.lookup o = some e) :
      U o = some e := by
    rw [← (hdelta o).removed (by simp [delta, he])]
    exact he
  refine ⟨⟨fun o e => hremoved, fun o a ha => ?_, fun o e a he ha hdaa => ?_⟩, happly⟩
  · exact (hdelta o).fresh (by simp [delta, ha])
  · obtain rfl := hU.eq hV (hremoved he) (happly ▸ apply_of_add ha) hdaa
    exact (hdelta o).distinct (by simp [delta, he]) (he.trans ha.symm)

theorem GenuineEntries.apply (hU : GenuineEntries entry U) (hd : d.Genuine entry) :
    GenuineEntries entry (U.apply d) := by
  intro o e he
  unfold UtxoSet.apply Delta.apply remaining at he
  rcases or_eq_some_iff.mp he with hadd | ⟨-, hleft⟩
  · exact hd.add o e hadd
  · split_ifs at hleft
    exact hU o e hleft

/-! ## Collections at an outpoint -/

namespace UtxoCollection

variable {c this other init : UtxoCollection}

theorem containsWithDaaScore_iff (hc : GenuineEntries entry fun o => c.lookup o)
    (hthis : GenuineEntries entry fun o => this.lookup o) (he : this.lookup o = some e) :
    c.containsWithDaaScore o e.block_daa_score = true ↔ c.lookup o = some e := by
  unfold containsWithDaaScore
  cases hf : c.lookup o with
  | none => simp
  | some f =>
    rw [decide_eq_true_eq, some.injEq]
    exact ⟨fun hdaa => hc.eq hthis hf he hdaa, fun heq => heq ▸ rfl⟩

section

variable (hthis : GenuineEntries entry fun o => this.lookup o)
  (hother : GenuineEntries entry fun o => other.lookup o) (o : TransactionOutpoint)
include hthis hother

theorem lookup_subtraction : (subtractionHavingDaaScore this other init).lookup o =
    Delta.overwrite (this.lookup o) (other.lookup o) (init.lookup o) := by
  rw [subtractionHavingDaaScore, lookup_insertWhere, Delta.overwrite]
  cases he : this.lookup o with
  | none => simp
  | some e =>
    have hiff := containsWithDaaScore_iff hother hthis he
    by_cases hcontains : other.lookup o = some e
    · simp [Option.filter, hiff.mpr hcontains, hcontains]
    · simp [Option.filter, Bool.eq_false_iff.mpr (mt hiff.mp hcontains), Ne.symm hcontains]

theorem lookup_intersection :
    (intersectionWithRemainderHavingDaaScore this other ∅ init).1.lookup o =
      common (this.lookup o) (other.lookup o) := by
  rw [intersectionWithRemainderHavingDaaScore, lookup_insertWhere, common]
  cases he : this.lookup o with
  | none => simp
  | some e =>
    have hiff := containsWithDaaScore_iff hother hthis he
    by_cases hcontains : other.lookup o = some e
    · simp [Option.filter, hiff.mpr hcontains, hcontains]
    · simp [Option.filter, Bool.eq_false_iff.mpr (mt hiff.mp hcontains), Ne.symm hcontains]

theorem lookup_remainder : (intersectionWithRemainderHavingDaaScore this other ∅ init).2.lookup o =
      Delta.overwrite (this.lookup o) (other.lookup o) (init.lookup o) :=
  lookup_subtraction hthis hother o

end

theorem lookup_removeCollection (o : TransactionOutpoint) :
    (removeCollection this other).lookup o = without (this.lookup o) (other.lookup o) :=
  lookup_eraseKeys other this o

theorem intersectsWithRule_eq_none {rule : TransactionOutpoint → UtxoEntry → UtxoEntry → Bool} :
    this.intersectsWithRule other rule = none ↔
      ∀ o v1 v2, this.lookup o = some v1 → other.lookup o = some v2 → rule o v1 v2 = false := by
  unfold intersectsWithRule
  split_ifs with hlen
  · rw [map_eq_none_iff, find?_eq_none]
    constructor
    · intro h o v1 v2 hv1 hv2
      have hnone := h ⟨o, v1⟩ (mem_lookup_iff.mp hv1)
      simpa [hv2] using hnone
    · rintro h ⟨o, v1⟩ hmem hany
      obtain ⟨v2, hv2, hrule⟩ := (any_eq_true _ _).mp hany
      exact absurd hrule (by simp [h o v1 v2 (mem_lookup_iff.mpr hmem) hv2])
  · rw [map_eq_none_iff, find?_eq_none]
    constructor
    · intro h o v1 v2 hv1 hv2
      have hnone := h ⟨o, v2⟩ (mem_lookup_iff.mp hv2)
      simpa [hv1] using hnone
    · rintro h ⟨o, v2⟩ hmem hany
      obtain ⟨v1, hv1, hrule⟩ := (any_eq_true _ _).mp hany
      exact absurd hrule (by simp [h o v1 v2 hv1 (mem_lookup_iff.mpr hmem)])

theorem intersects_iff : this.intersects other = true ↔
    ∃ o, (this.lookup o).isSome ∧ (other.lookup o).isSome := by
  unfold intersects
  split_ifs
  · rw [List.any_eq_true]
    refine exists_congr fun o => ?_
    rw [decide_eq_true_eq, lookup_isSome, lookup_isSome]
    rfl
  · rw [List.any_eq_true]
    refine exists_congr fun o => ?_
    rw [decide_eq_true_eq, lookup_isSome, lookup_isSome, and_comm]
    rfl

end UtxoCollection

/-! ## Composition -/

section

variable {this other init : UtxoSet}

theorem GenuineEntries.overwrite (hthis : GenuineEntries entry this)
    (hinit : GenuineEntries entry init) :
    GenuineEntries entry fun o => Delta.overwrite (this o) (other o) (init o) := by
  intro o e he
  dsimp only at he
  unfold Delta.overwrite at he
  split_ifs at he
  · exact hinit o e he
  · exact hthis o e he

end

open UtxoCollection

namespace UtxoDiff

theorem Valid.remove_of_add (hvalid : d.Valid U) (ha : d.add.lookup o = some a) :
    d.remove.lookup o = U o := by
  have h := hvalid.delta_eq o
  rw [show d.remove.lookup o = (d.delta o).1 from rfl, h]
  refine Delta.remove_of_add ?_
  rw [← h]
  exact fun hnone => nomatch ha.symm.trans hnone

theorem Valid.add_of_remove (hvalid : d.Valid U) (he : d.remove.lookup o = some e) :
    d.add.lookup o = U.apply d o := by
  have h := hvalid.delta_eq o
  rw [show d.add.lookup o = (d.delta o).2 from rfl, h]
  refine Delta.add_of_remove ?_
  rw [← h]
  exact fun hnone => nomatch he.symm.trans hnone

/-- The checks of `with_diff` pass if the second diff is valid after the first, and the diffs are
merged at each outpoint. -/
theorem exists_withDiff (hd₁ : d₁.Genuine entry) (hd₂ : d₂.Genuine entry)
    (hvalid₁ : d₁.Valid U) (hvalid₂ : d₂.Valid (U.apply d₁)) :
    ∃ r, d₁.withDiff d₂ = .ok r ∧ ∀ o, r.delta o = merge (d₁.delta o) (d₂.delta o) := by
  -- What is removed by both was added by the first in between.
  have hremove : d₂.remove.intersectsWithRule d₁.remove (fun outpoint entry_to_add _ =>
      !d₁.add.containsWithDaaScore outpoint entry_to_add.block_daa_score) = none := by
    refine intersectsWithRule_eq_none.mpr fun o e₂ e₁ he₂ he₁ => ?_
    rw [Bool.not_eq_false', containsWithDaaScore_iff hd₁.add hd₂.remove he₂,
      hvalid₁.add_of_remove he₁, hvalid₂.removed o e₂ he₂]
  -- What is added by both was removed by the second in between.
  have hadd : d₂.add.intersectsWithRule d₁.add (fun outpoint _ existing_entry =>
      !d₂.remove.containsWithDaaScore outpoint existing_entry.block_daa_score) = none := by
    refine intersectsWithRule_eq_none.mpr fun o a₂ a₁ ha₂ ha₁ => ?_
    rw [Bool.not_eq_false', containsWithDaaScore_iff hd₂.remove hd₁.add ha₁,
      hvalid₂.remove_of_add ha₂, apply_of_add ha₁]
  refine ⟨_, by rw [withDiff, hremove, hadd], fun o => ?_⟩
  have hrem : GenuineEntries entry fun o =>
      (intersectionWithRemainderHavingDaaScore d₂.remove d₁.add ∅ d₁.remove).2.lookup o := by
    simp only [lookup_remainder hd₂.remove hd₁.add]
    exact hd₂.remove.overwrite hd₁.remove
  refine Prod.ext ?_ ?_
  · change (removeCollection _ _).lookup o = _
    rw [lookup_removeCollection, lookup_intersection hd₂.add hrem,
      lookup_remainder hd₂.remove hd₁.add]
    rfl
  · change (intersectionWithRemainderHavingDaaScore d₂.add _ ∅ _).2.lookup o = _
    rw [lookup_remainder hd₂.add hrem, lookup_removeCollection,
      lookup_intersection hd₂.remove hd₁.add, lookup_remainder hd₂.remove hd₁.add]
    rfl

/-- The checks of `diff_from` pass if both diffs are valid on one set, and the diffs are related at
each outpoint. -/
theorem exists_diffFrom (hd₁ : d₁.Genuine entry) (hd₂ : d₂.Genuine entry)
    (hvalid₁ : d₁.Valid U) (hvalid₂ : d₂.Valid U) :
    ∃ r, d₁.diffFrom d₂ = .ok r ∧ ∀ o, r.delta o = relate (d₁.delta o) (d₂.delta o) := by
  -- Where one diff adds, both remove what is in the set or neither can remove.
  have hadd₂ : d₁.remove.intersectsWithRule d₂.add (fun outpoint this_entry other_entry =>
      !(other_entry.block_daa_score ≠ this_entry.block_daa_score &&
        (d₁.add.containsWithDaaScore outpoint other_entry.block_daa_score ||
          d₂.remove.containsWithDaaScore outpoint this_entry.block_daa_score))) = none := by
    refine intersectsWithRule_eq_none.mpr fun o e a he ha => ?_
    have hremove : d₂.remove.lookup o = some e :=
      (hvalid₂.remove_of_add ha).trans (hvalid₁.removed o e he)
    have hcontains := (containsWithDaaScore_iff hd₂.remove hd₁.remove he).mpr hremove
    simp [hcontains, (hvalid₂.distinct o e a hremove ha).symm]
  have hadd₁ : d₁.add.intersectsWithRule d₂.remove (fun outpoint this_entry other_entry =>
      !(other_entry.block_daa_score ≠ this_entry.block_daa_score &&
        (d₁.remove.containsWithDaaScore outpoint other_entry.block_daa_score ||
          d₂.add.containsWithDaaScore outpoint this_entry.block_daa_score))) = none := by
    refine intersectsWithRule_eq_none.mpr fun o a e ha he => ?_
    have hremove : d₁.remove.lookup o = some e :=
      (hvalid₁.remove_of_add ha).trans (hvalid₂.removed o e he)
    have hcontains := (containsWithDaaScore_iff hd₁.remove hd₂.remove he).mpr hremove
    simp [hcontains, hvalid₁.distinct o e a hremove ha]
  have hremove : d₁.remove.intersectsWithRule d₂.remove (fun _ this_entry other_entry =>
      other_entry.block_daa_score ≠ this_entry.block_daa_score) = none := by
    refine intersectsWithRule_eq_none.mpr fun o e₁ e₂ he₁ he₂ => ?_
    have heq : e₁ = e₂ := mem_unique (hvalid₁.removed o e₁ he₁) (hvalid₂.removed o e₂ he₂)
    simp [heq]
  have hboth : (subtractionWithRemainderHavingDaaScore d₁.add d₂.add ∅ ∅).2.intersects d₁.remove =
      (subtractionWithRemainderHavingDaaScore d₁.add d₂.add ∅ ∅).2.intersects d₂.remove := by
    rw [Bool.eq_iff_iff, intersects_iff, intersects_iff]
    refine exists_congr fun o => and_congr_right fun hsome => ?_
    obtain ⟨a, ha⟩ := isSome_iff_exists.mp hsome
    have hcommon : common (d₁.add.lookup o) (d₂.add.lookup o) = some a := by
      have hinter : (intersectionWithRemainderHavingDaaScore d₁.add d₂.add ∅ ∅).1.lookup o = _ :=
        lookup_intersection hd₁.add hd₂.add o
      exact hinter.symm.trans ha
    unfold common at hcommon
    split_ifs at hcommon with heq
    rw [hvalid₁.remove_of_add hcommon, hvalid₂.remove_of_add (heq ▸ hcommon)]
  have hok : d₁.diffFrom d₂ = .ok
      ⟨subtractionHavingDaaScore d₂.add d₁.add (subtractionHavingDaaScore d₁.remove d₂.remove ∅),
        subtractionHavingDaaScore d₂.remove d₁.remove
          (subtractionHavingDaaScore d₁.add d₂.add ∅)⟩ := by
    rw [diffFrom, hadd₂, hadd₁, hremove]
    dsimp only
    rw [if_neg (not_not.mpr hboth)]
    rfl
  refine ⟨_, hok, fun o => Prod.ext ?_ ?_⟩
  · change (subtractionHavingDaaScore _ _ _).lookup o = _
    rw [lookup_subtraction hd₂.remove hd₁.remove, lookup_subtraction hd₁.add hd₂.add]
    rfl
  · change (subtractionHavingDaaScore _ _ _).lookup o = _
    rw [lookup_subtraction hd₂.add hd₁.add, lookup_subtraction hd₁.remove hd₂.remove]
    rfl

/-! ## Transactions -/

/-- A diff with the entries of a list removed. -/
def ofEntries (removed added : List (TransactionOutpoint × UtxoEntry)) : UtxoDiff where
  add := added.foldl (fun c (outpoint, entry) => c.insert outpoint entry) ∅
  remove := removed.foldl (fun c (outpoint, entry) => c.insert outpoint entry) ∅

end UtxoDiff

/-- The diff of a transaction by itself: its input entries removed, its output entries added. -/
def VerifiableTransaction.ownDiff (tx : VerifiableTransaction) (txId : Pow.Transaction → Hash)
    (block_daa_score : BitVec 64) : UtxoDiff :=
  .ofEntries tx.inputEntries (tx.outputEntries txId block_daa_score)

namespace UtxoDiff

/-- What `remove_entry` does at its outpoint. -/
def removeAt (e : UtxoEntry) (delta : Option UtxoEntry × Option UtxoEntry) :
    Option (Option UtxoEntry × Option UtxoEntry) :=
  if delta.2.any (·.block_daa_score = e.block_daa_score) then some (delta.1, none)
  else if delta.1 = none then some (some e, delta.2)
  else none

/-- What `add_entry` does at its outpoint. -/
def addAt (a : UtxoEntry) (delta : Option UtxoEntry × Option UtxoEntry) :
    Option (Option UtxoEntry × Option UtxoEntry) :=
  if delta.1.any (·.block_daa_score = a.block_daa_score) then some (none, delta.2)
  else if delta.2 = none then some (delta.1, some a)
  else none

variable (c : UtxoCollection)

theorem containsWithDaaScore_eq_any (o : TransactionOutpoint) (daa_score : BitVec 64) :
    c.containsWithDaaScore o daa_score = (c.lookup o).any (·.block_daa_score = daa_score) := by
  unfold containsWithDaaScore
  cases c.lookup o with
  | none => rfl
  | some e => rfl

theorem lookup_erase_eq (o o' : TransactionOutpoint) :
    (c.erase o).lookup o' = if o' = o then none else c.lookup o' := by
  split_ifs with h
  · rw [h, lookup_erase]
  · exact lookup_erase_ne h

theorem lookup_insert_eq (o o' : TransactionOutpoint) (e : UtxoEntry) :
    (c.insert o e).lookup o' = if o' = o then some e else c.lookup o' := by
  split_ifs with h
  · rw [h, lookup_insert]
  · exact lookup_insert_ne h

theorem exists_removeEntry (d : UtxoDiff) (o : TransactionOutpoint) (e : UtxoEntry)
    (v : Option UtxoEntry × Option UtxoEntry) (h : removeAt e (d.delta o) = some v) :
    ∃ r, d.removeEntry o e = .ok r ∧ r.delta = Function.update d.delta o v := by
  unfold removeAt at h
  unfold removeEntry
  rw [containsWithDaaScore_eq_any]
  split_ifs at h with hadd hremove
  · refine ⟨_, if_pos hadd, funext fun o' => ?_⟩
    rw [← some.inj h, Function.update_apply]
    unfold delta
    rw [lookup_erase_eq]
    split_ifs with heq
    · rw [heq]
    · rfl
  · refine ⟨_, (if_neg hadd).trans (if_pos (lookup_eq_none.mp hremove)), funext fun o' => ?_⟩
    rw [← some.inj h, Function.update_apply]
    unfold delta
    rw [lookup_insert_eq]
    split_ifs with heq
    · rw [heq]
    · rfl

theorem delta_toReversed (d : UtxoDiff) (o : TransactionOutpoint) :
    d.toReversed.delta o = (d.delta o).swap := rfl

theorem removeAt_swap (a : UtxoEntry) (delta : Option UtxoEntry × Option UtxoEntry) :
    removeAt a delta.swap = (addAt a delta).map Prod.swap := by
  unfold removeAt addAt
  dsimp only [Prod.swap]
  split_ifs <;> rfl

/-- `add_entry` changes a diff at its outpoint, as `remove_entry` does the reversed one. -/
theorem exists_addEntry (d : UtxoDiff) (o : TransactionOutpoint) (a : UtxoEntry)
    (v : Option UtxoEntry × Option UtxoEntry) (h : addAt a (d.delta o) = some v) :
    ∃ r, d.addEntry o a = .ok r ∧ r.delta = Function.update d.delta o v := by
  obtain ⟨r, hr, hdelta⟩ := exists_removeEntry d.toReversed o a v.swap (by
    rw [delta_toReversed, removeAt_swap, h]
    rfl)
  refine ⟨r.toReversed, ?_, funext fun o' => ?_⟩
  · unfold removeEntry toReversed at hr
    unfold addEntry
    split_ifs at hr ⊢ <;> cases hr <;> rfl
  · rw [delta_toReversed, hdelta]
    by_cases heq : o' = o
    · subst heq
      simp
    · simp [heq, delta_toReversed]

/-- The entries of an outpoint in a difference are genuine. -/
def GenuineAt (entry : TransactionOutpoint → BitVec 64 → UtxoEntry) (o : TransactionOutpoint)
    (delta : Option UtxoEntry × Option UtxoEntry) : Prop :=
  (∀ e, delta.1 = some e → e = entry o e.block_daa_score) ∧
    ∀ a, delta.2 = some a → a = entry o a.block_daa_score

variable {delta delta' : Option UtxoEntry × Option UtxoEntry}

section

variable (hdelta : GenuineAt entry o delta)
include hdelta

theorem removeAt_eq (he : e = entry o e.block_daa_score) :
    removeAt e delta = Delta.removeStep e delta := by
  have hiff : delta.2.any (·.block_daa_score = e.block_daa_score) = true ↔ delta.2 = some e := by
    rw [Option.any_eq_true]
    constructor
    · rintro ⟨f, hf, hdaa⟩
      rw [hf, hdelta.2 f hf, of_decide_eq_true hdaa, ← he]
    · exact fun heq => ⟨e, heq, decide_eq_true rfl⟩
  unfold removeAt Delta.removeStep
  rw [if_congr hiff rfl rfl]

theorem addAt_eq (ha : a = entry o a.block_daa_score) :
    addAt a delta = addStep a delta := by
  have hgenuine : GenuineAt entry o delta.swap := ⟨hdelta.2, hdelta.1⟩
  have hswap := removeAt_eq hgenuine ha
  rw [removeAt_swap] at hswap
  refine map_injective Prod.swap_injective (hswap.trans ?_)
  unfold Delta.removeStep addStep
  dsimp only [Prod.swap]
  split_ifs <;> rfl

theorem GenuineAt.removeStep
    (he : e = entry o e.block_daa_score) (h : Delta.removeStep e delta = some delta') :
    GenuineAt entry o delta' := by
  unfold Delta.removeStep at h
  split_ifs at h
  · obtain rfl := some.inj h
    exact ⟨hdelta.1, nofun⟩
  · obtain rfl := some.inj h
    exact ⟨fun f hf => some.inj hf ▸ he, hdelta.2⟩

end

theorem lookup_foldl_insert {l : List (TransactionOutpoint × UtxoEntry)}
    (hnodup : (l.map Prod.fst).Nodup) (init : UtxoCollection) :
    (l.foldl (fun c (outpoint, entry) => c.insert outpoint entry) init).lookup o =
      (l.lookup o).or (init.lookup o) := by
  induction l generalizing init with
  | nil => rfl
  | cons e l ih =>
    rw [map_cons, nodup_cons] at hnodup
    rw [foldl_cons, ih hnodup.2, lookup_insert_eq]
    by_cases ho : o = e.1
    · subst ho
      rw [lookup_eq_none_of_notMem hnodup.1, lookup_cons_self, if_pos rfl]
      rfl
    · rw [if_neg ho, lookup_cons, beq_false_of_ne ho]

theorem nodup_outputEntries (txId : Pow.Transaction → Hash) {tx : VerifiableTransaction}
    (hout : tx.tx.outputs.val.length ≤ 2 ^ 32) (block_daa_score : BitVec 64) :
    ((tx.outputEntries txId block_daa_score).map Prod.fst).Nodup := by
  have hmap : (tx.outputEntries txId block_daa_score).map Prod.fst =
      (range' 0 tx.tx.outputs.val.length).map fun i => ⟨txId tx.tx, BitVec.ofNat 32 i⟩ := by
    rw [VerifiableTransaction.outputEntries, List.map_map, ← List.zipIdx_map_snd, List.map_map]
    rfl
  rw [hmap]
  refine List.Nodup.map_on (fun i hi j hj hij => ?_) nodup_range'
  rw [mem_range'_1] at hi hj
  have hnat := congrArg BitVec.toNat (TransactionOutpoint.mk.inj hij).2
  rwa [BitVec.toNat_ofNat, BitVec.toNat_ofNat, Nat.mod_eq_of_lt (by omega),
    Nat.mod_eq_of_lt (by omega)] at hnat

theorem exists_addTransaction {txId : Pow.Transaction → Hash} {tx : VerifiableTransaction}
    {block_daa_score : BitVec 64}
    (hd : d.Genuine entry) (hown : (tx.ownDiff txId block_daa_score).Genuine entry)
      (hvalid : d.Valid U)
    (hvalid' : (tx.ownDiff txId block_daa_score).Valid (U.apply d))
    (hin : (tx.inputEntries.map Prod.fst).Nodup) (hout : tx.tx.outputs.val.length ≤ 2 ^ 32) :
    ∃ r, d.addTransaction txId tx block_daa_score = .ok r ∧ ∀ o, r.delta o =
        Delta.between (U o) ((U.apply d).apply (tx.ownDiff txId block_daa_score) o) := by
  have hnodup := nodup_outputEntries txId hout block_daa_score
  have hremove (o : TransactionOutpoint) :
      tx.inputEntries.lookup o = (tx.ownDiff txId block_daa_score).remove.lookup o :=
    ((lookup_foldl_insert hin ∅).trans or_none).symm
  have hadd (o : TransactionOutpoint) :
      (tx.outputEntries txId block_daa_score).lookup o =
      (tx.ownDiff txId block_daa_score).add.lookup o :=
    ((lookup_foldl_insert hnodup ∅).trans or_none).symm
  have hgenuine (o : TransactionOutpoint) : GenuineAt entry o (d.delta o) := ⟨hd.remove o, hd.add o⟩
  generalize tx.ownDiff txId block_daa_score = own at hown hvalid' hremove hadd ⊢
  choose mid hmid hlast using fun o => steps_between (U o) (U.apply d o) ((U.apply d).apply own o)
  simp only [← hvalid.delta_eq, ← hvalid'.delta_eq] at hmid hlast
  have hgenuine_mid (o : TransactionOutpoint) : GenuineAt entry o (mid o) := by
    have hstep := hmid o
    cases hlookup : (own.delta o).1 with
    | none =>
      rw [hlookup] at hstep
      exact some.inj hstep ▸ hgenuine o
    | some e =>
      rw [hlookup] at hstep
      exact (hgenuine o).removeStep (hown.remove o e hlookup) hstep
  -- The inputs.
  obtain ⟨m, hm, rfl⟩ := foldlM_pointwise
    (fun d (outpoint, entry) => d.removeEntry outpoint entry) exists_removeEntry hin d
    (f := mid) fun o => by
      rw [hremove, ← hmid o]
      change (own.remove.lookup o).elim _ _ = (own.remove.lookup o).elim _ _
      cases hlookup : own.remove.lookup o with
      | none => rfl
      | some e => exact removeAt_eq (hgenuine o) (hown.remove o e hlookup)
  -- The outputs.
  obtain ⟨r, hr, hdelta⟩ := foldlM_pointwise
    (fun d (outpoint, entry) => d.addEntry outpoint entry) exists_addEntry hnodup m fun o => by
      rw [hadd, ← hlast o]
      change (own.add.lookup o).elim _ _ = (own.add.lookup o).elim _ _
      cases hlookup : own.add.lookup o with
      | none => rfl
      | some a => exact addAt_eq (hgenuine_mid o) (hown.add o a hlookup)
  refine ⟨r, ?_, fun o => congrFun hdelta o⟩
  rw [addTransaction, hm]
  exact hr

end UtxoDiff

/-- Diffs compose, relate the ends of diffs from one set, and are undone by their reversal, all
without an error; and a transaction that spends distinct outpoints, with no more outputs than there
are indices, is added to a diff as its own diff is. -/
theorem utxoDiff_algebra (entry : TransactionOutpoint → BitVec 64 → UtxoEntry)
    (txId : Pow.Transaction → Hash) :
    (∀ (U : UtxoSet) (d₁ d₂ : UtxoDiff), GenuineEntries entry U → d₁.Genuine entry →
      d₂.Genuine entry → d₁.Valid U → d₂.Valid (U.apply d₁) →
      ∃ r, d₁.withDiff d₂ = .ok r ∧ r.Valid U ∧ U.apply r = (U.apply d₁).apply d₂) ∧
    (∀ (U : UtxoSet) (d₁ d₂ : UtxoDiff), GenuineEntries entry U → d₁.Genuine entry →
      d₂.Genuine entry → d₁.Valid U → d₂.Valid U →
      ∃ r, d₁.diffFrom d₂ = .ok r ∧ r.Valid (U.apply d₁) ∧ (U.apply d₁).apply r = U.apply d₂) ∧
    (∀ (U : UtxoSet) (d : UtxoDiff), GenuineEntries entry U → d.Genuine entry → d.Valid U →
      d.toReversed.Valid (U.apply d) ∧ (U.apply d).apply d.toReversed = U) ∧
    (∀ (U : UtxoSet) (d : UtxoDiff) (tx : VerifiableTransaction) (block_daa_score : BitVec 64),
      GenuineEntries entry U → d.Genuine entry → (tx.ownDiff txId block_daa_score).Genuine entry →
      d.Valid U → (tx.ownDiff txId block_daa_score).Valid (U.apply d) →
      (tx.inputEntries.map Prod.fst).Nodup → tx.tx.outputs.val.length ≤ 2 ^ 32 →
      ∃ r r', d.addTransaction txId tx block_daa_score = .ok r ∧
        d.withDiff (tx.ownDiff txId block_daa_score) = .ok r' ∧
        ∀ o, r.add.lookup o = r'.add.lookup o ∧ r.remove.lookup o = r'.remove.lookup o) := by
  refine ⟨fun U d₁ d₂ hU hd₁ hd₂ hvalid₁ hvalid₂ => ?_,
    fun U d₁ d₂ hU hd₁ hd₂ hvalid₁ hvalid₂ => ?_, fun U d hU hd hvalid => ?_,
    fun U d tx daa hU hd hown hvalid hvalid' hin hout => ?_⟩
  · obtain ⟨r, hr, hdelta⟩ := exists_withDiff hd₁ hd₂ hvalid₁ hvalid₂
    refine ⟨r, hr, valid_of_between hU ((hU.apply hd₁).apply hd₂) fun o => ?_⟩
    rw [hdelta, hvalid₁.delta_eq, hvalid₂.delta_eq, merge_between]
  · obtain ⟨r, hr, hdelta⟩ := exists_diffFrom hd₁ hd₂ hvalid₁ hvalid₂
    refine ⟨r, hr, valid_of_between (hU.apply hd₁) (hU.apply hd₂) fun o => ?_⟩
    rw [hdelta, hvalid₁.delta_eq, hvalid₂.delta_eq, relate_between]
  · refine valid_of_between (hU.apply hd) hU fun o => ?_
    rw [delta_toReversed, hvalid.delta_eq, swap_between]
  · obtain ⟨r, hr, hdelta⟩ := exists_addTransaction hd hown hvalid hvalid' hin hout
    obtain ⟨r', hr', hdelta'⟩ := exists_withDiff hd hown hvalid hvalid'
    refine ⟨r, r', hr, hr', fun o => ?_⟩
    have hsame : r.delta o = r'.delta o := by
      rw [hdelta, hdelta', hvalid.delta_eq, hvalid'.delta_eq, merge_between]
    exact ⟨congrArg Prod.snd hsame, congrArg Prod.fst hsame⟩

namespace Sample

/-- The entry of an outpoint and a DAA score. -/
def standardEntry (_ : TransactionOutpoint) (daa_score : BitVec 64) : UtxoEntry where
  amount := 5
  script_public_key := { version := 0, script := .empty }
  block_daa_score := daa_score
  is_coinbase := false
  covenant_id := none

/-- An outpoint. -/
def outpoint : TransactionOutpoint := { transaction_id := List.Vector.replicate 32 0, index := 0 }

/-- A set with one entry. -/
def utxos : UtxoSet := fun o => if o = outpoint then some (standardEntry o 3) else none

/-- A diff that replaces it by one of a later DAA score. -/
def replaced : UtxoDiff where
  add := singleton outpoint (standardEntry outpoint 8)
  remove := singleton outpoint (standardEntry outpoint 3)

/-- All transactions have the id of the outpoint. -/
def txId (_ : Pow.Transaction) : Hash := outpoint.transaction_id

/-- An input that spends the entry. -/
def input : Pow.TransactionInput := ⟨outpoint, .empty, 0, .SigopCount 0⟩

/-- A transaction whose inputs all spend the entry. -/
def spending (inputs : Framing.Vec Pow.TransactionInput)
    (outputs : Framing.Vec Pow.TransactionOutput) : VerifiableTransaction where
  tx := ⟨0, inputs, outputs, 0, .replicate 20 0, 0, .empty, 0⟩
  entries := inputs.val.map fun _ => standardEntry outpoint 3
  length_eq := length_map _

/-- A transaction that spends the entry twice. -/
def spentTwice : VerifiableTransaction := spending ⟨[input, input], by decide⟩ .empty

/-- A transaction that replaces the entry. -/
def replacing : VerifiableTransaction :=
  spending ⟨[input], by decide⟩ ⟨[⟨5, ⟨0, .empty⟩, none⟩], by decide⟩

theorem genuine_utxos : GenuineEntries standardEntry utxos := by
  intro o e he
  unfold utxos at he
  split_ifs at he
  exact (some.inj he) ▸ rfl

theorem lookup_singleton_eq (e : UtxoEntry) (o : TransactionOutpoint) :
    (singleton outpoint e : UtxoCollection).lookup o = if o = outpoint then some e else none :=
  (lookup_insert_eq ∅ outpoint o e).trans (by rw [lookup_empty])

theorem genuine_replaced : replaced.Genuine standardEntry := by
  constructor
  · intro o e he
    change (singleton outpoint _ : UtxoCollection).lookup o = some e at he
    rw [lookup_singleton_eq] at he
    split_ifs at he
    exact (some.inj he) ▸ rfl
  · intro o e he
    change (singleton outpoint _ : UtxoCollection).lookup o = some e at he
    rw [lookup_singleton_eq] at he
    split_ifs at he
    exact (some.inj he) ▸ rfl

theorem valid_replaced : replaced.Valid utxos := by
  refine (valid_of_between (V := fun o => if o = outpoint then some (standardEntry o 8)
    else none) genuine_utxos (fun o e he => ?_) fun o => ?_).1
  · dsimp only at he
    split_ifs at he
    exact (some.inj he) ▸ rfl
  · unfold delta replaced utxos Delta.between
    rw [lookup_singleton_eq, lookup_singleton_eq]
    split_ifs with ho heq heq
    · exact absurd (congrArg UtxoEntry.block_daa_score (some.inj heq))
        (show ¬ (3 : BitVec 64) = 8 by decide)
    · rfl
    · rfl
    · rfl

theorem valid_empty (U : UtxoSet) : (⟨∅, ∅⟩ : UtxoDiff).Valid U := ⟨nofun, nofun, nofun⟩

theorem apply_empty (U : UtxoSet) : U.apply ⟨∅, ∅⟩ = U := by
  funext o
  change Delta.apply (U o) (none, none) = U o
  cases U o <;> rfl

/-- The replacement, composed with its reversal, related to it and undone by it; and the transaction
that replaces the entry, added to the empty diff. -/
theorem utxoDiff_algebra_replaced :
    (∃ r, replaced.withDiff replaced.toReversed = .ok r ∧ r.Valid utxos ∧
      utxos.apply r = (utxos.apply replaced).apply replaced.toReversed) ∧
    (∃ r, replaced.diffFrom ⟨∅, ∅⟩ = .ok r ∧ r.Valid (utxos.apply replaced) ∧
      (utxos.apply replaced).apply r = utxos.apply ⟨∅, ∅⟩) ∧
    (replaced.toReversed.Valid (utxos.apply replaced) ∧
      (utxos.apply replaced).apply replaced.toReversed = utxos) ∧
    ∃ r r', (⟨∅, ∅⟩ : UtxoDiff).addTransaction txId replacing 8 = .ok r ∧
      (⟨∅, ∅⟩ : UtxoDiff).withDiff (replacing.ownDiff txId 8) = .ok r' ∧
      ∀ o, r.add.lookup o = r'.add.lookup o ∧ r.remove.lookup o = r'.remove.lookup o := by
  obtain ⟨hcompose, hrelate, hundo, hadd⟩ := utxoDiff_algebra standardEntry txId
  have hback := hundo utxos replaced genuine_utxos genuine_replaced valid_replaced
  have hempty : (⟨∅, ∅⟩ : UtxoDiff).Genuine standardEntry := ⟨nofun, nofun⟩
  refine ⟨?_, ?_, hback, ?_⟩
  · exact hcompose utxos replaced replaced.toReversed genuine_utxos genuine_replaced
      ⟨genuine_replaced.remove, genuine_replaced.add⟩ valid_replaced hback.1
  · exact hrelate utxos replaced ⟨∅, ∅⟩ genuine_utxos genuine_replaced hempty valid_replaced
      (valid_empty utxos)
  · exact hadd utxos ⟨∅, ∅⟩ replacing 8 genuine_utxos hempty genuine_replaced (valid_empty utxos)
      ((apply_empty utxos).symm ▸ valid_replaced) (by decide) (by decide)

theorem lookup_spentTwice (o : TransactionOutpoint) : (spentTwice.ownDiff txId 9).remove.lookup o =
    if o = outpoint then some (standardEntry outpoint 3) else none := by
  change ((singleton outpoint _ : UtxoCollection).insert outpoint _).lookup o = _
  rw [lookup_insert_eq, lookup_singleton_eq]
  split_ifs with ho
  · rfl
  · rfl

/-- The diff of a transaction that spends an entry twice is valid, and it cannot be added. -/
theorem addTransaction_spentTwice :
    GenuineEntries standardEntry utxos ∧ (spentTwice.ownDiff txId 9).Genuine standardEntry ∧
      (⟨∅, ∅⟩ : UtxoDiff).Valid utxos ∧ (spentTwice.ownDiff txId 9).Valid (utxos.apply ⟨∅, ∅⟩) ∧
      (⟨∅, ∅⟩ : UtxoDiff).addTransaction txId spentTwice 9 =
        .error (.DoubleRemoveCall outpoint) := by
  refine ⟨genuine_utxos, ⟨nofun, fun o e he => ?_⟩, valid_empty utxos,
    ⟨fun o e he => ?_, nofun, nofun⟩, by decide +kernel⟩
  · dsimp only at he
    rw [lookup_spentTwice] at he
    split_ifs at he
    exact (some.inj he) ▸ rfl
  · rw [lookup_spentTwice] at he
    split_ifs at he with ho
    rw [← he, ho]
    rfl

end Sample

end Zkas.Utxo
