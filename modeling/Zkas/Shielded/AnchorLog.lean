import Zkas.Lib.MountainRange
import Zkas.Shielded.Burn

/-!
# The anchor log

Model of `shielded-core/src/anchor_window.rs`: an append-only log of one entry per chain block, kept
as the entry count and the peaks of a mountain range, highest first. `append` uses the peaks as a
stack, so on the reversed list it is the `carry` of the mountain range; the `expect` on an empty
stack is a panic. Under injective hashes an append can be undone (`append_inj`). -/

namespace Zkas

open Framing Word MountainRange List Except Preimage

variable {H : Type}

def LEAF_PERSONAL : String := "zkas_anchorlog_l"

def NODE_PERSONAL : String := "zkas_anchorlog_n"

def ROOT_PERSONAL : String := "zkas_anchorlog_r"

/-- The most peaks a well-formed log can have. -/
def MAX_PEAKS : ℕ := 64

/-- One chain block's contribution to the log. -/
structure WindowEntry (H : Type) where
  block : H
  parent : H
  root : H
  blue_score : U64
  deriving DecidableEq

/-- The log after some number of entries: the count and the peaks, highest first. -/
structure AnchorLog (H : Type) where
  count : U64
  peaks : List H
  deriving DecidableEq

/-- The hash of a log entry. -/
def WindowEntry.hash (hf : HashFns H) (e : WindowEntry H) : H :=
  hf.blake2b LEAF_PERSONAL (digest e.block ++ (digest e.parent ++
    (digest e.root ++ word e.blue_score)))

/-- An entry can stand right after another one on a selected chain. -/
def WindowEntry.Follows (prev e : WindowEntry H) : Prop :=
  prev.blue_score.toNat < e.blue_score.toNat ∧ e.parent = prev.block

namespace AnchorLog

variable (hf : HashFns H)

/-- The empty log. -/
def default : AnchorLog H := { count := 0, peaks := [] }

variable (log : AnchorLog H)

/-- Whether the peaks match the count. -/
def isWellFormed : Bool :=
  log.peaks.length = popcount log.count.toNat && log.peaks.length ≤ MAX_PEAKS

/-- The hash of two nodes, the same at every level. -/
def node (left right : H) : H := hf.blake2b NODE_PERSONAL (digest left ++ digest right)

/-- The log after appending `entry`. -/
def append (entry : WindowEntry H) : Except (Fault String) (AnchorLog H) :=
  if log.isWellFormed then do
    let count ← (checkedAdd log.count 1).okOr (.err "anchor log is full")
    -- The loop pops a peak for each trailing one; a missing peak is the `expect`.
    let peaks ← (carry (fun _ => node hf) 0 log.count.toNat (entry.hash hf)
      log.peaks.reverse).okOr .panic
    return { count, peaks := peaks.reverse }
  else .error (.err "malformed anchor log")

/-- The shape check of `replay` on an entry and the one before it. -/
def checkFollows [DecidableEq H] (last : Option (WindowEntry H)) (e : WindowEntry H) :
    Except (Fault String) Unit :=
  match last with
  | none => .ok ()
  | some prev =>
    if e.blue_score.toNat ≤ prev.blue_score.toNat then
      .error (.err "anchor log entries are not strictly increasing in blue score")
    else if e.parent ≠ prev.block then
      .error (.err "anchor log entry does not name the previous entry as its parent")
    else .ok ()

/-- The loop of `replay`, with the entry before. -/
def replayFrom [DecidableEq H] (last : Option (WindowEntry H)) (log : AnchorLog H) :
    List (WindowEntry H) → Except (Fault String) (AnchorLog H)
  | [] => .ok log
  | e :: es => do
    checkFollows last e
    replayFrom (some e) (← log.append hf e) es

/-- Replay peer-supplied entries onto a log. -/
def replay [DecidableEq H] (entries : List (WindowEntry H)) :
    Except (Fault String) (AnchorLog H) := replayFrom hf none log entries

/-- The value folded into the state root. -/
def commitment : H := hf.blake2b ROOT_PERSONAL (word log.count ++ digests log.peaks)

/-- Append a list of entries in order. -/
def appendAll (entries : List (WindowEntry H)) :
    Except (Fault String) (AnchorLog H) := entries.foldlM (append hf) log

end AnchorLog

/-- The three hashes of the anchor log are injective on their preimages. -/
structure HashFns.AnchorLogInjective (hf : HashFns H) : Prop where
  leaf : Function.Injective (hf.blake2b LEAF_PERSONAL)
  node : Function.Injective (hf.blake2b NODE_PERSONAL)
  root : Function.Injective (hf.blake2b ROOT_PERSONAL)

theorem WindowEntry.hash_inj {hf : HashFns H} (hinj : hf.AnchorLogInjective) {e e' : WindowEntry H}
    (h : e.hash hf = e'.hash hf) : e = e' := by
  have hpre := hinj.leaf h
  rw [digest_append_inj, digest_append_inj, digest_append_inj, word_inj (by decide)] at hpre
  cases e
  simp_all

namespace AnchorLog

variable {hf : HashFns H} {log log' : AnchorLog H} {e : WindowEntry H} {es : List (WindowEntry H)}

theorem isWellFormed_iff : log.isWellFormed ↔ log.peaks.length = popcount log.count.toNat := by
  have hle : popcount log.count.toNat ≤ MAX_PEAKS := popcount_le log.count.isLt
  unfold isWellFormed
  simp only [Bool.and_eq_true, decide_eq_true_eq]
  constructor
  · exact fun h => h.1
  · intro h
    exact ⟨h, by omega⟩

theorem default_isWellFormed : (default : AnchorLog H).isWellFormed := rfl

/-- An append that returns started from a well-formed log, ends in one, counts one more, and
carried the entry's hash into the peaks. -/
theorem append_eq_ok (h : log.append hf e = .ok log') :
    log.isWellFormed ∧ log'.isWellFormed ∧ log'.count.toNat = log.count.toNat + 1 ∧
      carry (fun _ => node hf) 0 log.count.toNat (e.hash hf) log.peaks.reverse =
        some log'.peaks.reverse := by
  unfold append at h
  split_ifs at h with hwf
  simp only [bind_eq_ok_iff, Option.okOr_eq_ok, checkedAdd_eq_some] at h
  obtain ⟨count, hcount, ps, hps, heq⟩ := h
  obtain rfl := ok.inj heq
  have hone : (1 : U64).toNat = 1 := rfl
  rw [hone] at hcount
  have hlen : log.peaks.reverse.length = popcount log.count.toNat := by
    rw [length_reverse]
    exact isWellFormed_iff.mp hwf
  obtain ⟨qs, hqs, hqlen⟩ := carry_spec 0 log.count.toNat (e.hash hf) hlen
  obtain rfl : ps = qs := Option.mem_unique hps hqs
  refine ⟨hwf, isWellFormed_iff.mpr ?_, hcount, ?_⟩
  · simp only [length_reverse]
    rw [hqlen, hcount]
  · rw [reverse_reverse]
    exact hps

theorem append_of_isWellFormed (hwf : log.isWellFormed)
    (hroom : log.count.toNat + 1 < 2 ^ 64) (e : WindowEntry H) :
    ∃ log', log.append hf e = .ok log' := by
  have hcount : checkedAdd log.count 1 = some (log.count + 1) :=
    checkedAdd_eq_some.mpr (BitVec.toNat_add_of_lt hroom)
  have hlen : log.peaks.reverse.length = popcount log.count.toNat := by
    rw [length_reverse]
    exact isWellFormed_iff.mp hwf
  obtain ⟨qs, hqs, -⟩ := carry_spec 0 log.count.toNat (e.hash hf) hlen
  refine ⟨{ count := log.count + 1, peaks := qs.reverse }, ?_⟩
  unfold append
  rw [if_pos hwf, hcount, hqs]
  rfl

theorem append_ne_panic (hwf : log.isWellFormed) (e : WindowEntry H) :
    log.append hf e ≠ .error .panic := by
  by_cases hroom : log.count.toNat + 1 < 2 ^ 64
  · obtain ⟨log', h⟩ := append_of_isWellFormed hwf hroom e
    rw [h]
    exact fun h => by cases h
  · have hfull : checkedAdd log.count 1 = none := by
      rw [checkedAdd, if_neg]
      exact hroom
    unfold append
    rw [if_pos hwf, hfull]
    exact fun h => by cases h

/-- Under injective hashes a log determines the log and the entry before it. -/
theorem append_inj (hinj : hf.AnchorLogInjective) {r : AnchorLog H}
    {e' : WindowEntry H} (h : log.append hf e = .ok r) (h' : log'.append hf e' = .ok r) :
    log = log' ∧ e = e' := by
  obtain ⟨-, -, hc, hp⟩ := append_eq_ok h
  obtain ⟨-, -, hc', hp'⟩ := append_eq_ok h'
  have hcount : log.count = log'.count := BitVec.eq_of_toNat_eq (by omega)
  rw [← hcount] at hp'
  have hnode : ∀ _ : ℕ, Function.Injective2 (node hf) := by
    intro _ a b c d hn
    have hpre := hinj.node hn
    simpa [digest] using hpre
  obtain ⟨hhash, hpeaks⟩ := carry_inj hnode hp hp'
  refine ⟨?_, WindowEntry.hash_inj hinj hhash⟩
  cases log
  simp_all

theorem commitment_inj (hinj : hf.AnchorLogInjective)
    (h : log.commitment hf = log'.commitment hf) : log = log' := by
  have hpre := hinj.root h
  rw [word_append_inj (by decide), digests_inj] at hpre
  cases log
  simp_all

/-! ## Whole logs -/

theorem appendAll_append (log : AnchorLog H) (xs ys : List (WindowEntry H)) :
    log.appendAll hf (xs ++ ys) = (log.appendAll hf xs >>= fun l => l.appendAll hf ys) :=
  foldlM_append

theorem appendAll_concat_eq_ok : log.appendAll hf (es ++ [e]) = .ok log' ↔
      ∃ l, log.appendAll hf es = .ok l ∧ l.append hf e = .ok log' := by
  rw [appendAll_append, bind_eq_ok_iff]
  simp only [appendAll, foldlM_cons, foldlM_nil, bind_pure]

theorem appendAll_eq_ok (h : log.appendAll hf es = .ok log') :
    log'.count.toNat = log.count.toNat + es.length ∧ (log.isWellFormed → log'.isWellFormed) := by
  induction es using reverseRecOn generalizing log' with
  | nil =>
    obtain rfl := ok.inj h
    exact ⟨rfl, id⟩
  | append_singleton es e ih =>
    obtain ⟨l, hl, he⟩ := appendAll_concat_eq_ok.mp h
    obtain ⟨-, hwf, hc, -⟩ := append_eq_ok he
    obtain ⟨hcl, -⟩ := ih hl
    refine ⟨?_, fun _ => hwf⟩
    rw [length_append, length_singleton]
    omega

/-- Two runs of appends that reach one log, one of them from the empty log, agree on their last
entries, and the other one started from the log of the entries before. -/
theorem appendAll_inj (hinj : hf.AnchorLogInjective) {pfx L : AnchorLog H}
    {R : List (WindowEntry H)} (hes : pfx.appendAll hf es = .ok L)
    (hR : default.appendAll hf R = .ok L) :
    ∃ front, R = front ++ es ∧ default.appendAll hf front = .ok pfx := by
  -- Both runs are undone from the end, one entry at a time.
  induction es using reverseRecOn generalizing R L with
  | nil =>
    obtain rfl := ok.inj hes
    exact ⟨R, (append_nil R).symm, hR⟩
  | append_singleton es e ih =>
    obtain ⟨l, hl, he⟩ := appendAll_concat_eq_ok.mp hes
    rcases eq_nil_or_concat R with rfl | ⟨R', r, rfl⟩
    · obtain rfl := ok.inj hR
      obtain ⟨-, -, hc, -⟩ := append_eq_ok he
      exact absurd hc (Nat.succ_ne_zero _).symm
    · rw [concat_eq_append] at hR ⊢
      obtain ⟨l', hl', he'⟩ := appendAll_concat_eq_ok.mp hR
      obtain ⟨rfl, rfl⟩ := append_inj hinj he he'
      obtain ⟨front, rfl, hfront⟩ := ih hl hl'
      exact ⟨front, append_assoc _ _ _, hfront⟩

theorem appendAll_split {xs ys : List (WindowEntry H)}
    (h : log.appendAll hf (xs ++ ys) = .ok log') :
    ∃ l, log.appendAll hf xs = .ok l ∧ l.appendAll hf ys = .ok log' := by
  rwa [appendAll_append, bind_eq_ok_iff] at h

/-! ## Replay -/

section

variable [DecidableEq H]

theorem checkFollows_eq_ok {last : Option (WindowEntry H)} {e : WindowEntry H} :
    checkFollows last e = .ok () ↔ ∀ prev ∈ last, prev.Follows e := by
  rcases last with _ | prev
  · simp [checkFollows]
  · simp only [checkFollows, Option.mem_some_iff, forall_eq', WindowEntry.Follows]
    split_ifs with hs hp
    · simp [hs]
    · simp [hp]
    · simp only [true_iff]
      exact ⟨by omega, not_not.mp hp⟩

/-- `replay` succeeds exactly on a chain-shaped list that appends, with the same result. -/
theorem replayFrom_eq_ok {last : Option (WindowEntry H)} {log log' : AnchorLog H}
    {es : List (WindowEntry H)} :
    replayFrom hf last log es = .ok log' ↔
      List.IsChain WindowEntry.Follows (last.toList ++ es) ∧ log.appendAll hf es = .ok log' := by
  induction es generalizing last log with
  | nil =>
    rcases last with _ | prev <;> simp [replayFrom, appendAll]
  | cons e es ih =>
    have hchain : List.IsChain WindowEntry.Follows (last.toList ++ e :: es) ↔
        (∀ prev ∈ last, prev.Follows e) ∧ List.IsChain WindowEntry.Follows (e :: es) := by
      rcases last with _ | prev <;> simp [isChain_cons_cons]
    rw [replayFrom, hchain, bind_eq_ok_iff]
    simp only [ih, Option.toList_some, singleton_append, appendAll, foldlM_cons, bind_eq_ok_iff]
    constructor
    · rintro ⟨⟨⟩, hlast, l, hl, hes, hrest⟩
      exact ⟨⟨checkFollows_eq_ok.mp hlast, hes⟩, l, hl, hrest⟩
    · rintro ⟨⟨hlast, hes⟩, l, hl, hrest⟩
      exact ⟨(), checkFollows_eq_ok.mpr hlast, l, hl, hes, hrest⟩

/-- `replay` succeeds exactly on a chain-shaped list that appends, with the same result. -/
theorem replay_eq_ok {log log' : AnchorLog H} {es : List (WindowEntry H)} :
    log.replay hf es = .ok log' ↔
      List.IsChain WindowEntry.Follows es ∧ log.appendAll hf es = .ok log' :=
  replayFrom_eq_ok

/-- The log a replay commits to fixes the replay: the entries are the last ones of the committed
log and the start is the log of the earlier ones. Conversely each tail of a chain-shaped log
replays onto the log of the rest. Logs reached from the empty one are well formed, and no append to
a well-formed log meets a missing peak. -/
theorem replay_commitment_spec (hinj : hf.AnchorLogInjective) {R : List (WindowEntry H)}
    {L : AnchorLog H} (hL : default.appendAll hf R = .ok L) :
    (∀ (pfx log : AnchorLog H) (entries : List (WindowEntry H)), pfx.isWellFormed →
      pfx.replay hf entries = .ok log → log.commitment hf = L.commitment hf →
        entries.length ≤ R.length ∧ entries = R.drop (R.length - entries.length) ∧
          default.appendAll hf (R.take (R.length - entries.length)) = .ok pfx) ∧
      (List.IsChain WindowEntry.Follows R → ∀ k, ∃ pfx,
        default.appendAll hf (R.take k) = .ok pfx ∧ pfx.replay hf (R.drop k) = .ok L) ∧
      L.isWellFormed ∧
      ∀ (log : AnchorLog H) (e : WindowEntry H), log.isWellFormed →
        log.append hf e ≠ .error .panic := by
  refine ⟨?_, ?_, (appendAll_eq_ok hL).2 default_isWellFormed, fun log e hwf =>
    append_ne_panic hwf e⟩
  · intro pfx log entries _ hreplay hcommit
    obtain ⟨-, happend⟩ := replay_eq_ok.mp hreplay
    rw [commitment_inj hinj hcommit] at happend
    obtain ⟨front, rfl, hfront⟩ := appendAll_inj hinj happend hL
    have hlen : (front ++ entries).length - entries.length = front.length := by
      rw [length_append]
      omega
    rw [hlen, drop_left, take_left]
    refine ⟨?_, rfl, hfront⟩
    rw [length_append]
    omega
  · intro hchain k
    rw [← take_append_drop k R] at hL
    obtain ⟨pfx, hpfx, hrest⟩ := appendAll_split hL
    exact ⟨pfx, hpfx, replay_eq_ok.mpr ⟨hchain.drop k, hrest⟩⟩

end

theorem symbolic_injective : HashFns.symbolic.AnchorLogInjective :=
  ⟨Symbolic.hash_injective _, Symbolic.hash_injective _, Symbolic.hash_injective _⟩

/-- A chain-shaped entry for block `i` with parent block `i - 1`. -/
def sampleEntry (i : ℕ) : WindowEntry Symbolic.Term :=
  { block := .atom i, parent := .atom (i - 1), root := .atom (100 + i),
    blue_score := BitVec.ofNat 64 i }

/-- The log of three entries, and its last two replayed onto the log of the first. -/
theorem replay_commitment_spec_three :
    ∃ L, default.appendAll .symbolic [sampleEntry 1, sampleEntry 2, sampleEntry 3] = .ok L ∧
      ∃ pfx, default.appendAll .symbolic [sampleEntry 1] = .ok pfx ∧
        pfx.replay .symbolic [sampleEntry 2, sampleEntry 3] = .ok L := by
  have hL : ∃ L, default.appendAll .symbolic [sampleEntry 1, sampleEntry 2, sampleEntry 3] =
      .ok L := ⟨_, rfl⟩
  obtain ⟨L, hL⟩ := hL
  have hchain : List.IsChain WindowEntry.Follows [sampleEntry 1, sampleEntry 2, sampleEntry 3] := by
    simp only [isChain_cons_cons, isChain_singleton, WindowEntry.Follows]
    decide
  exact ⟨L, hL, (replay_commitment_spec symbolic_injective hL).2.1 hchain 1⟩

end AnchorLog

end Zkas
