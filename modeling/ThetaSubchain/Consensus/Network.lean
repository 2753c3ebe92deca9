/-
Honest nodes on a network.

The network delivers blocks and votes in any order, any number of times or never, and the other
validators may send anything they can sign.
-/
import ThetaSubchain.Consensus.Equivocation
import ThetaSubchain.Lib.VoteLog

namespace ThetaSubchain

open Durable EngineConf

/-- Honest nodes over one chain and one validator set.  Validators that are no honest
node may behave arbitrarily; they hold less than a third of the stake. -/
structure Network (ι : Type) where
  cfg : ChainConfig
  verify : Verifier
  trieRoot : TrieContent → Hash
  sign : ι → Bytes → Signature
  addr : ι → Address
  validators : ValidatorSet
  addr_injective : Function.Injective addr
  nonNeg : validators.NonNeg
  byzantine : 3 * Quorum.weight validators.members validators.stakeOf (Set.range addr)ᶜ <
    validators.totalStake

namespace Network

variable {ι : Type} (N : Network ι)

def node (i : ι) : Node := ⟨N.cfg, N.verify, N.sign i, N.addr i, N.trieRoot⟩

abbrev World (ι : Type) := ι → Machine Engine Store Output

/-- Every node starts on a store that has never been used.  The parent of a block that
is stored at the start, where it occurs, is below that block. -/
def Start (occ : Set BlockHeader) (w : World ι) : Prop :=
  ∀ i, ∃ d, w i = ⟨some (Engine.new N.cfg d), d, []⟩ ∧ Fresh (N.node i) d ∧
    ∀ h eb, d.block h = some eb → eb.header ∈ occ ∧
      ∀ q ∈ occ, N.cfg.hash q = eb.header.parent → q.height < eb.header.height

/-- What the network may do to the node `i`: the validator set is fixed, votes of honest
nodes are not forged, and only blocks with headers that occur are added. -/
structure Admissible (occ : Set BlockHeader) (w : World ι) (i : ι) (s : EngineConf) (a : Answers)
    (act : Engine.Action) : Prop where
  fixed : ∀ h vs, a.getValidatorSet h = some vs → vs = N.validators
  unforged : ∀ v ∈ act.delivered (N.node i) s.disk, (v.validate N.verify).isError = false →
    ∀ j, v.id = N.addr j → ∃ u ∈ castVotes (w j).outs, u.signBytes = v.signBytes
  occurs : ∀ b ∈ act.added (N.node i) a s, b.header ∈ occ

inductive Step [DecidableEq ι] (occ : Set BlockHeader) (w : World ι) : World ι → Prop where
  | run (i : ι) (s s' : EngineConf) (a : Answers) (act : Engine.Action)
      (hw : w i = ⟨some s.mem, s.disk, s.outs⟩) (hadm : N.Admissible occ w i s a act)
      (hr : (Engine.step (N.node i) a act).run s = (some (), s')) :
      Step occ w (Function.update w i ⟨some s'.mem, s'.disk, s'.outs⟩)
  | stop (i : ι) (s c : EngineConf) (a : Answers) (act : Engine.Action)
      (hw : w i = ⟨some s.mem, s.disk, s.outs⟩) (hadm : N.Admissible occ w i s a act)
      (hc : c ∈ s :: (Engine.step (N.node i) a act).points s) :
      Step occ w (Function.update w i ⟨none, c.disk, c.outs⟩)

section Tree

variable {N} {occ : Set BlockHeader}

open Classical in
noncomputable def headerAt (cfg : ChainConfig) (occ : Set BlockHeader) (x : Hash) :
    Option BlockHeader :=
  if h : ∃ hd ∈ occ, cfg.hash hd = x then some h.choose else none

variable {cfg : ChainConfig} {hd : BlockHeader}

theorem headerAt_hash (hocc : Set.InjOn cfg.hash occ) (h : hd ∈ occ) :
    headerAt cfg occ (cfg.hash hd) = some hd := by
  have hex : ∃ x ∈ occ, cfg.hash x = cfg.hash hd := ⟨hd, h, rfl⟩
  rw [headerAt, dif_pos hex]
  exact congrArg some (hocc hex.choose_spec.1 h hex.choose_spec.2)

noncomputable def heightAt (cfg : ChainConfig) (occ : Set BlockHeader) (x : Hash) : ℕ :=
  ((headerAt cfg occ x).map fun hd => hd.height.toNat).getD 0

noncomputable def lockAt (cfg : ChainConfig) (occ : Set BlockHeader) (x : Hash) : Hash :=
  ((headerAt cfg occ x).map fun hd => hd.hcc.blockHash).getD 0

theorem heightAt_hash (hocc : Set.InjOn cfg.hash occ) (h : hd ∈ occ) :
    heightAt cfg occ (cfg.hash hd) = hd.height.toNat := by
  rw [heightAt, headerAt_hash hocc h]
  rfl

theorem lockAt_hash (hocc : Set.InjOn cfg.hash occ) (h : hd ∈ occ) :
    lockAt cfg occ (cfg.hash hd) = hd.hcc.blockHash := by
  rw [lockAt, headerAt_hash hocc h]
  rfl

/-- The blocks that occur, with the votes of a quorum of the stake. -/
noncomputable def tree (N : Network ι) (hocc : Set.InjOn N.cfg.hash occ) :
    VoteLog.Chain Address Hash where
  link p c := ∃ hd ∈ occ, N.cfg.hash hd = c ∧ hd.parent = p ∧
    heightAt N.cfg occ c = heightAt N.cfg occ p + 1
  height := heightAt N.cfg occ
  lock := lockAt N.cfg occ
  root := N.cfg.root
  honest v := v ∈ Set.range N.addr
  quorum s := Quorum.IsQuorum N.validators.members N.validators.stakeOf N.validators.totalStake s
  link_unique := by
    rintro p q c ⟨x, hx, hxc, rfl, -⟩ ⟨y, hy, hyc, rfl, -⟩
    rw [hocc hx hy (hxc.trans hyc.symm)]
  link_height := by
    rintro p c ⟨hd, -, -, -, hh⟩
    exact hh
  quorum_mono h hs := hs.mono (fun v _ => ValidatorSet.stakeOf_nonneg N.nonNeg v) h
  quorum_inter := by
    intro s t hs ht
    obtain ⟨v, -, hv, hvs, hvt⟩ := hs.exists_honest
      (fun v _ => ValidatorSet.stakeOf_nonneg N.nonNeg v) (ValidatorSet.sum_stakeOf_le N.nonNeg)
      N.byzantine ht
    exact ⟨v, by simpa using hv, hvs, hvt⟩

end Tree

end Network

end ThetaSubchain
