import Mathlib.Data.List.AList
import Mathlib.Logic.Function.Basic

/-!
# Differences of partial maps

At one key a difference removes a value, adds a value, or does both. `between x y` is the only valid
difference that takes the value `x` of a key to `y`. `merge` and `relate` combine the differences
from `x` to `y` and from `y` to `z`, or from `x` to `y` and from `x` to `z`. The rest is about loops
over the entries of a finite map, or over a list, that treat each key by itself. -/

namespace Delta

variable {α : Type*} [DecidableEq α] (x y : Option α)

/-- What is removed and what is added between two values of a key. -/
def between : Option α × Option α := if x = y then (none, none) else (x, y)

/-- What is left of a value after removing. -/
def remaining (x removed : Option α) : Option α := if removed = x then none else x

/-- The value of a key after a difference: what is added, or what is left. -/
def apply (x : Option α) (d : Option α × Option α) : Option α := d.2.or (remaining x d.1)

/-- A difference that can be made at a value: what is removed is there, what is added is not there
any more, and they are not the same. -/
structure Valid (x : Option α) (d : Option α × Option α) : Prop where
  removed : d.1 ≠ none → d.1 = x
  fresh : d.2 ≠ none → remaining x d.1 = none
  distinct : d.1 ≠ none → d.1 ≠ d.2

/-- The values of `this` that are not those of `other` take the place of what there is. -/
def overwrite (this other init : Option α) : Option α :=
  if this = none ∨ this = other then init else this

/-- The values of `this` that are those of `other`. -/
def common (this other : Option α) : Option α := if this = other then this else none

/-- What is left of the values of `this` after those that are in `other`. -/
def without (this other : Option α) : Option α := if other.isSome then none else this

/-- A difference, and then another one. -/
def merge (d e : Option α × Option α) : Option α × Option α :=
  let remove := overwrite e.1 d.2 d.1
  let add := without d.2 (common e.1 d.2)
  (without remove (common e.2 remove), overwrite e.2 remove add)

/-- From the end of one difference to the end of another. -/
def relate (d e : Option α × Option α) : Option α × Option α :=
  (overwrite e.1 d.1 (overwrite d.2 e.2 none), overwrite e.2 d.2 (overwrite d.1 e.1 none))

/-- Add the removal of a value to a difference. -/
def removeStep (e : α) (d : Option α × Option α) : Option (Option α × Option α) :=
  if d.2 = some e then some (d.1, none) else if d.1 = none then some (some e, d.2) else none

/-- Add the addition of a value to a difference. -/
def addStep (a : α) (d : Option α × Option α) : Option (Option α × Option α) :=
  if d.1 = some a then some (none, d.2) else if d.2 = none then some (d.1, some a) else none

@[simp] theorem apply_between : apply x (between x y) = y := by
  unfold apply between remaining
  split_ifs <;> simp_all

theorem valid_between : Valid x (between x y) := by
  unfold between
  split_ifs with heq
  · exact ⟨by simp, by simp, by simp⟩
  · exact ⟨fun _ => rfl, fun _ => if_pos rfl, fun _ => heq⟩

theorem remove_of_add {x y : Option α} (h : (between x y).2 ≠ none) : (between x y).1 = x := by
  unfold between at h ⊢
  split_ifs at h ⊢ with heq
  · exact absurd rfl h
  · rfl

theorem add_of_remove {x y : Option α} (h : (between x y).1 ≠ none) : (between x y).2 = y := by
  unfold between at h ⊢
  split_ifs at h ⊢ with heq
  · exact absurd rfl h
  · rfl

theorem Valid.eq_between {x : Option α} {d : Option α × Option α} (h : Valid x d) :
    d = between x (apply x d) := by
  obtain ⟨remove, add⟩ := d
  obtain ⟨hremoved, hfresh, hdistinct⟩ := h
  unfold apply between remaining at *
  rcases x with _ | x <;> rcases remove with _ | r <;> rcases add with _ | a <;> simp_all

theorem swap_between : (between x y).swap = between y x := by
  unfold between
  split_ifs <;> simp_all

variable (x y z : Option α)

theorem merge_between : merge (between x y) (between y z) = between x z := by
  -- By which of the values are there; then by which are equal.
  unfold merge between overwrite common without
  rcases x with _ | x <;> rcases y with _ | y <;> rcases z with _ | z <;> simp <;> grind

theorem steps_between : ∃ mid,
      (between y z).1.elim (some (between x y)) (fun e => removeStep e (between x y)) = some mid ∧
      (between y z).2.elim (some mid) (fun a => addStep a mid) = some (between x z) := by
  unfold between removeStep addStep
  rcases x with _ | x <;> rcases y with _ | y <;> rcases z with _ | z <;> simp <;> grind

theorem relate_between : relate (between x y) (between x z) = between y z := by
  unfold relate between overwrite
  rcases x with _ | x <;> rcases y with _ | y <;> rcases z with _ | z <;> simp <;> grind

end Delta

/-! ## Loops that treat each key by itself -/

theorem List.lookup_eq_none_of_notMem {κ β : Type*} [DecidableEq κ] {l : List (κ × β)} {k : κ}
    (h : k ∉ l.map Prod.fst) : l.lookup k = none := by
  rw [List.lookup_eq_none_iff]
  rintro ⟨k', b⟩ hmem
  exact bne_iff_ne.mpr fun heq => h (List.mem_map.mpr ⟨_, hmem, heq.symm⟩)

namespace AList

variable {κ α : Type*} [DecidableEq κ]

/-- The loop over the entries of a map that inserts some of them into another one. -/
def insertWhere (p : κ → α → Bool) (this init : AList fun _ : κ => α) : AList fun _ : κ => α :=
  this.entries.foldl (fun result e => if p e.1 e.2 then result.insert e.1 e.2 else result) init

variable (this init : AList fun _ : κ => α)

/-- The loop over the keys of a map that erases them from another one. -/
def eraseKeys : AList fun _ : κ => α := this.keys.foldl (fun result k => result.erase k) init

theorem lookup_insertWhere (p : κ → α → Bool) (this init : AList fun _ : κ => α) (k : κ) :
    (insertWhere p this init).lookup k = ((this.lookup k).filter (p k)).or (init.lookup k) := by
  have hloop : ∀ (entries : List (Sigma fun _ : κ => α)) (init : AList fun _ : κ => α),
      entries.NodupKeys →
      (entries.foldl (fun result e => if p e.1 e.2 then result.insert e.1 e.2 else result)
        init).lookup k = ((entries.dlookup k).filter (p k)).or (init.lookup k) := by
    intro entries
    induction entries with
    | nil => exact fun init _ => rfl
    | cons e entries ih =>
      intro init hnodup
      obtain ⟨k', v⟩ := e
      obtain ⟨hnew, hrest⟩ := List.nodupKeys_cons.mp hnodup
      rw [List.foldl_cons, ih _ hrest]
      by_cases hk : k = k'
      · subst hk
        have hnone : entries.dlookup k = none := List.dlookup_eq_none.mpr hnew
        cases hp : p k v <;> simp [hnone, hp, Option.filter]
      · rw [List.dlookup_cons_ne _ _ (show k ≠ (⟨k', v⟩ : Sigma fun _ : κ => α).1 from hk)]
        cases p k' v <;> simp [lookup_insert_ne hk]
  exact hloop this.entries init this.nodupKeys

theorem lookup_eraseKeys (k : κ) :
    (eraseKeys this init).lookup k = if (this.lookup k).isSome then none else init.lookup k := by
  have hloop : ∀ (keys : List κ) (init : AList fun _ : κ => α),
      (keys.foldl (fun result k => result.erase k) init).lookup k =
        if k ∈ keys then none else init.lookup k := by
    intro keys
    induction keys with
    | nil => simp
    | cons k' keys ih =>
      intro init
      rw [List.foldl_cons, ih]
      by_cases hk : k = k'
      · subst hk
        simp
      · simp [hk, lookup_erase_ne hk]
  rw [eraseKeys, hloop]
  refine if_congr ?_ rfl rfl
  rw [lookup_isSome]
  rfl

end AList

/-- A fallible loop over a list with distinct keys, whose rounds each change the state at their key:
it changes the state at each key as the round there does, made in the state before the loop. -/
theorem List.foldlM_pointwise {σ κ β ν ε : Type} [DecidableEq κ] {view : σ → κ → ν}
    {act : β → ν → Option ν} (step : σ → κ × β → Except ε σ)
    (hstep : ∀ s k b v, act b (view s k) = some v →
      ∃ s', step s (k, b) = .ok s' ∧ view s' = Function.update (view s) k v)
    {l : List (κ × β)} (hnodup : (l.map Prod.fst).Nodup) (s : σ) {f : κ → ν}
    (hact : ∀ k, (l.lookup k).elim (some (view s k)) (act · (view s k)) = some (f k)) :
    ∃ s', l.foldlM step s = .ok s' ∧ view s' = f := by
  induction l generalizing s with
  | nil => exact ⟨s, rfl, funext fun k => Option.some.inj (hact k)⟩
  | cons e l ih =>
    obtain ⟨k, b⟩ := e
    rw [List.map_cons, List.nodup_cons] at hnodup
    have hk := hact k
    rw [List.lookup_cons_self] at hk
    obtain ⟨mid, hmid, hview⟩ := hstep s k b _ hk
    obtain ⟨s', hs', hf⟩ := ih hnodup.2 mid fun k' => by
      by_cases heq : k' = k
      · subst heq
        rw [List.lookup_eq_none_of_notMem hnodup.1, hview, Function.update_self]
        rfl
      · rw [hview, Function.update_of_ne heq, ← hact k', List.lookup_cons, beq_false_of_ne heq]
    exact ⟨s', by rw [List.foldlM_cons, hmid]; exact hs', hf⟩
