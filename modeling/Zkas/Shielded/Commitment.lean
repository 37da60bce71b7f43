import Zkas.Shielded.Burn

/-!
# Shielded state roots

Model of `shielded-core/src/commitment.rs`: the digests that bind the shielded state into the
coinbase, before the security fork (`shieldedStateRoot`) and from it on (`shieldedStateRootV1`).
Under injective hashes each root determines every value it binds. -/

namespace Zkas

open Framing Preimage

variable {H : Type}

def STATE_ROOT_PERSONAL : String := "zkas_state_root0"

def STATE_ROOT_V1_PERSONAL : String := "zkas_state_root1"

/-- The miner-reward slot as committed in the post-fork root. -/
structure MinerAccrualRef where
  script_version : BitVec 16
  script : List UInt8
  amount : U64
  deriving DecidableEq

variable (hf : HashFns H)

/-- The canonical shielded state root. -/
def shieldedStateRoot (anchor nullifier_root : H) (cumulative_coinbase cumulative_fees : U128)
    (burn_root : H) : H :=
  hf.blake2b STATE_ROOT_PERSONAL (digest anchor ++ (digest nullifier_root ++
    (word cumulative_coinbase ++ (word cumulative_fees ++ digest burn_root))))

/-- The shielded state root from the security fork on. -/
def shieldedStateRootV1 (root_v0 : H) (dev_accrued : U64) (anchor_window_commitment : H)
    (miner_accrual : MinerAccrualRef) : H :=
  hf.blake2b STATE_ROOT_V1_PERSONAL (digest root_v0 ++ (word dev_accrued ++
    (digest anchor_window_commitment ++ (word miner_accrual.script_version ++
      (word (BitVec.ofNat 32 miner_accrual.script.length) ++
        (bytes miner_accrual.script ++ word miner_accrual.amount))))))

/-- The two state-root hashes are injective on their preimages. -/
structure HashFns.StateRootInjective : Prop where
  v0 : Function.Injective (hf.blake2b STATE_ROOT_PERSONAL)
  v1 : Function.Injective (hf.blake2b STATE_ROOT_V1_PERSONAL)

variable {hf}

theorem shieldedStateRoot_inj (hinj : hf.StateRootInjective) {a a' n n' : H} {c c' f f' : U128}
    {b b' : H} (h : shieldedStateRoot hf a n c f b = shieldedStateRoot hf a' n' c' f' b') :
    a = a' ∧ n = n' ∧ c = c' ∧ f = f' ∧ b = b' := by
  have hpre := hinj.v0 h
  rw [digest_append_inj, digest_append_inj, word_append_inj (by decide),
    word_append_inj (by decide)] at hpre
  obtain ⟨ha, hn, hc, hfe, hb⟩ := hpre
  refine ⟨ha, hn, hc, hfe, ?_⟩
  simpa [digest] using hb

theorem shieldedStateRootV1_inj (hinj : hf.StateRootInjective) {r r' : H} {d d' : U64} {w w' : H}
    {s s' : MinerAccrualRef}
    (h : shieldedStateRootV1 hf r d w s = shieldedStateRootV1 hf r' d' w' s') :
    r = r' ∧ d = d' ∧ w = w' ∧ s = s' := by
  have hpre := hinj.v1 h
  rw [digest_append_inj, word_append_inj (by decide), digest_append_inj,
    word_append_inj (by decide), word_append_inj (by decide)] at hpre
  obtain ⟨hr, hd, hw, hv, -, hrest⟩ := hpre
  -- The script is what lies before the last eight bytes.
  have hlen : s.script.length = s'.script.length := by
    have := congrArg List.length hrest
    simpa [word] using this
  rw [bytes_append_inj hlen, word_inj (by decide)] at hrest
  obtain ⟨hscript, hamount⟩ := hrest
  refine ⟨hr, hd, hw, ?_⟩
  cases s
  cases s'
  simp_all

theorem symbolic_stateRootInjective : HashFns.symbolic.StateRootInjective :=
  ⟨Symbolic.hash_injective _, Symbolic.hash_injective _⟩

end Zkas
