/-
The synchronisation status (consensus/engine.go, `checkSyncStatus`).

The heights are unsigned, and both differences wrap around: one if the highest vote is for height
zero, the other if the node is ahead of the votes.
-/
import ThetaSubchain.Consensus.EpochVotes

namespace ThetaSubchain

open Durable

namespace Engine

def epochEntries (d : Store) : List Vote := (d.epochVotes.map VoteSet.entries).getD []

def topHeight (votes : List Vote) : Nat := (votes.map fun v => v.height.toNat).foldl max 0

def bestFinalizedHeight (votes : List Vote) : Int :=
  if votes.isEmpty then 0 else topHeight votes - 1

def FallenBehind (now timestamp : Nat) (height : UInt64) (votes : List Vote) : Prop :=
  timestamp + 30 < now ∧ 5 < bestFinalizedHeight votes - height.toNat

/-- Some vote is above the last finalized block, or the block is so high that the difference is
less than six below `2 ^ 64`. -/
def NotAhead (height : UInt64) (votes : List Vote) : Prop :=
  height.toNat < topHeight votes ∨ topHeight votes + 2 ^ 64 ≤ height.toNat + 6

instance (height : UInt64) (votes : List Vote) : Decidable (NotAhead height votes) :=
  inferInstanceAs (Decidable (_ ∨ _))

theorem toNat_maxVoteHeight (vs : VoteSet) (ord : MapOrder) :
    (maxVoteHeight (vs.votes ord)).toNat = topHeight vs.entries := by
  have hperm := (vs.votes_perm ord).map fun v => v.height.toNat
  rw [maxVoteHeight, maxVoteHeight_foldl]
  exact hperm.foldl_eq _

theorem five_lt_difference_iff (m h : UInt64) :
    m - 1 - h > 5 ↔ h.toNat + 6 < m.toNat ∨
      (m.toNat ≤ h.toNat ∧ h.toNat + 6 < m.toNat + 2 ^ 64) := by
  have hm := m.toNat_lt
  have hh := h.toNat_lt
  rw [gt_iff_lt, UInt64.lt_iff_toNat_lt, UInt64.toNat_sub, UInt64.toNat_sub]
  show 5 < (2 ^ 64 - h.toNat + (2 ^ 64 - 1 + m.toNat) % 2 ^ 64) % 2 ^ 64 ↔ _
  omega

theorem isSyncing_iff (now timestamp : Nat) (h m : UInt64) :
    isSyncing now timestamp h (m - 1) = true ↔ timestamp + 30 < now ∧
      (h.toNat + 6 < m.toNat ∨ (m.toNat ≤ h.toNat ∧ h.toNat + 6 < m.toNat + 2 ^ 64)) := by
  unfold isSyncing
  by_cases hold : (timestamp : Int) < (now : Int) - 30
  · rw [if_pos hold, decide_eq_true_iff, five_lt_difference_iff]
    exact ⟨fun hdiff => ⟨by omega, hdiff⟩, fun hdiff => hdiff.2⟩
  · rw [if_neg hold]
    constructor
    · intro hfalse
      cases hfalse
    · intro hdiff
      exact absurd hdiff.1 (by omega)

theorem five_lt_best_iff (votes : List Vote) (h : UInt64) :
    5 < bestFinalizedHeight votes - h.toNat ↔ h.toNat + 6 < topHeight votes := by
  unfold bestFinalizedHeight
  cases votes with
  | nil =>
    show (5 : Int) < 0 - h.toNat ↔ h.toNat + 6 < 0
    omega
  | cons v votes =>
    show (5 : Int) < topHeight (v :: votes) - 1 - h.toNat ↔ _
    omega

section Status

variable {a : Answers} {s : EngineConf} {lfb : ExtendedBlock} {timestamp : Nat}

theorem run_checkSyncStatus (hlfb : s.disk.block s.mem.state.lastFinalizedBlock = some lfb)
    (htime : lfb.header.timestamp = some timestamp) :
    (checkSyncStatus a).run s = (some (), { s with
      mem := { s.mem with
        hasSynced := match s.disk.epochVotes with
          | none => s.mem.hasSynced
          | some votes =>
            !isSyncing a.now timestamp lfb.header.height
              (maxVoteHeight (votes.votes a.order) - 1) } }) := by
  unfold checkSyncStatus
  rw [Proc.run_bind, Proc.run_disk]
  dsimp only
  cases s.disk.epochVotes with
  | none => rfl
  | some votes =>
    have hget : State.getLastFinalizedBlock.run s = (some lfb, s) := by
      show Proc.run (Proc.orDie (s.disk.block s.mem.state.lastFinalizedBlock)) s = _
      rw [hlfb]
      rfl
    dsimp only
    rw [Proc.run_bind, hget]
    dsimp only
    rw [htime]
    rfl

/-- Checking the status returns, and the node is then reported as syncing only if it has fallen
behind, provided that the node is not ahead of the votes if the last finalized block is old, and
that it was synced before if no votes are stored. -/
theorem syncing_only_behind_iff (hlfb : s.disk.block s.mem.state.lastFinalizedBlock = some lfb)
    (htime : lfb.header.timestamp = some timestamp) :
    ∃ s', (checkSyncStatus a).run s = (some (), s') ∧
      ((s'.mem.hasSynced = false →
          FallenBehind a.now timestamp lfb.header.height (epochEntries s.disk)) ↔
        if s.disk.epochVotes.isNone then s.mem.hasSynced = true
        else a.now ≤ timestamp + 30 ∨ NotAhead lfb.header.height (epochEntries s.disk)) := by
  refine ⟨_, run_checkSyncStatus hlfb htime, ?_⟩
  dsimp only
  unfold FallenBehind
  rw [five_lt_best_iff]
  cases hvotes : s.disk.epochVotes with
  | none =>
    have hnone : epochEntries s.disk = [] := by rw [epochEntries, hvotes]; rfl
    rw [hnone]
    show (s.mem.hasSynced = false → _ ∧ lfb.header.height.toNat + 6 < 0) ↔ s.mem.hasSynced = true
    cases s.mem.hasSynced <;> simp
  | some votes =>
    have hsome : epochEntries s.disk = votes.entries := by rw [epochEntries, hvotes]; rfl
    show ((!isSyncing _ _ _ _) = false → _) ↔ (a.now ≤ timestamp + 30 ∨ _)
    rw [Bool.not_eq_false', isSyncing_iff, toNat_maxVoteHeight, hsome, NotAhead]
    omega

end Status

theorem syncing_only_behind_iff_voted :
    ∃ lfb s', sampleEpoch.disk.block sampleEpoch.mem.state.lastFinalizedBlock = some lfb ∧
      (checkSyncStatus (sampleAnswers 100)).run sampleEpoch = (some (), s') ∧
      ((s'.mem.hasSynced = false →
          FallenBehind 100 5 lfb.header.height (epochEntries sampleEpoch.disk)) ↔
        if sampleEpoch.disk.epochVotes.isNone then sampleEpoch.mem.hasSynced = true
        else 100 ≤ 5 + 30 ∨ NotAhead lfb.header.height (epochEntries sampleEpoch.disk)) := by
  have hroot : (sampleEpoch.disk.block sampleEpoch.mem.state.lastFinalizedBlock).map
      (fun eb => eb.header.timestamp) = some (some 5) := by decide
  obtain ⟨lfb, hlfb, htime⟩ := Option.map_eq_some_iff.1 hroot
  obtain ⟨s', hrun, hiff⟩ := syncing_only_behind_iff (a := sampleAnswers 100) hlfb htime
  exact ⟨lfb, s', hlfb, hrun, hiff⟩

/-- The sample node votes for its root, which is at height zero: the highest vote shows a finalized
height below zero, and once the root is more than thirty seconds old the node is reported as
syncing. -/
theorem vote_at_height_zero_is_syncing :
    let s := sampleStep sampleStart 100 (.vote sampleVote)
    epochEntries s.disk = [sampleVote] ∧
    (s.disk.block s.mem.state.lastFinalizedBlock).map ExtendedBlock.block = some sampleRoot ∧
    s.mem.hasSynced = false ∧
    ¬FallenBehind 100 5 sampleRoot.header.height [sampleVote] ∧
    (sampleStep sampleStart 10 (.vote sampleVote)).mem.hasSynced = true := by
  refine ⟨by decide, by decide +kernel, by decide, ?_, by decide⟩
  rintro ⟨-, hbest⟩
  rw [five_lt_best_iff] at hbest
  revert hbest
  decide

end Engine

end ThetaSubchain
