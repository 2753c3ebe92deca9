/-
The starts of an inventory request (buildInventoryRequest of netsync/request.go).

The request names the blocks at heights below the tip: ten heights one after the other, then heights
at a distance that doubles, down to the last finalized block.  The blocks come from the store, so
each is named by a hash that is computed again.
-/
import Mathlib.Data.UInt
import ThetaSubchain.Blockchain.Links

namespace ThetaSubchain

open Durable List
open Rlp (Item)

/-- The rounds of the loop that look for blocks: the height, and the step that is then taken from
it.  The step of the source is a signed integer, here given by its bits. -/
def inventoryRounds (tip lfb : UInt64) : ℕ → UInt64 → UInt64 → Option (List (UInt64 × UInt64))
  | 0, _, _ => none
  | n + 1, index, step =>
    if index ≤ lfb then some []
    else
      let step := if 10 ≤ tip - index then step * 2 else step
      -- a step of 2 ^ 63 or more is negative
      if index < step ∨ step = 0 ∨ 2 ^ 63 ≤ step then some []
      else (inventoryRounds tip lfb n (index - step) step).map ((index, step) :: ·)

def inventoryStarts (d : Store) (tip lfb : ExtendedBlock) (n : ℕ) : Option (List ExtendedBlock) :=
  (inventoryRounds tip.header.height lfb.header.height n tip.header.height 1).map fun rounds =>
    rounds.flatMap (fun r => (Chain.findBlocksByHeight d r.1).filter
      fun b => b.status ≠ .pending ∧ b.status ≠ .invalid) ++ [lfb]

def buildInventoryRequest (hash : BlockHeader → Hash) (d : Store) (tip lfb : ExtendedBlock)
    (n : ℕ) : Option (List Hash) :=
  (inventoryStarts d tip lfb n).map (map fun b => hash b.header)

/-- The loop is `dist` below the tip and has at most `left` rounds before it is `total` below:
ten rounds go down by one, and each of the others takes twice the step of the one before. -/
def Paced (total dist step left : ℕ) : Prop :=
  (dist < 10 ∧ step = 1 ∧ left = 10 - dist + Nat.log 2 total) ∨
    ∃ j, dist = 8 + 2 ^ (j + 1) ∧ step = 2 ^ j ∧ left = Nat.log 2 total - j

theorem Paced.next {total dist step left : ℕ} (h : Paced total dist step left)
    (hlt : dist < total) {step' : ℕ} (hstep : step' = if 10 ≤ dist then step * 2 else step) :
    0 < left ∧ 0 < step' ∧ step' ≤ total ∧ Paced total (dist + step') step' (left - 1) := by
  obtain ⟨hdist, rfl, rfl⟩ | ⟨j, rfl, rfl, rfl⟩ := h
  · rw [if_neg (by omega)] at hstep
    subst hstep
    refine ⟨by omega, by omega, by omega, ?_⟩
    by_cases hten : dist + 1 < 10
    · exact .inl ⟨hten, rfl, by omega⟩
    · exact .inr ⟨0, by omega, rfl, by omega⟩
  · have hpos : 0 < 2 ^ j := by positivity
    have hlog : j + 1 ≤ Nat.log 2 total := Nat.le_log_of_pow_le (by norm_num) (by omega)
    rw [pow_succ] at hlt
    rw [if_pos (by rw [pow_succ]; omega), ← pow_succ] at hstep
    subst hstep
    refine ⟨by omega, by positivity, by rw [pow_succ]; omega, .inr ⟨j + 1, ?_, rfl, by omega⟩⟩
    rw [pow_succ 2 (j + 1)]
    omega

theorem inventoryRounds_spec {tip lfb : UInt64} {n : ℕ} {index step : UInt64} {left : ℕ}
    (hle : index ≤ tip) (hpace : Paced (tip.toNat - lfb.toNat) (tip.toNat - index.toNat) step.toNat
      left) (hn : left < n) :
    ∃ rounds, inventoryRounds tip lfb n index step = some rounds ∧ rounds.length ≤ left ∧
      (∀ r ∈ rounds, lfb < r.1 ∧ r.1 ≤ index ∧ r.2 ≤ r.1) ∧
      rounds.Pairwise fun r s => s.1 ≤ r.1 := by
  induction n generalizing index step left with
  | zero => exact absurd hn (Nat.not_lt_zero _)
  | succ n ih =>
    rw [inventoryRounds]
    by_cases hdone : index ≤ lfb
    · exact ⟨[], by rw [if_pos hdone], by simp, by simp, .nil⟩
    rw [if_neg hdone]
    rw [UInt64.le_iff_toNat_le] at hle hdone
    have hdist : (tip - index).toNat = tip.toNat - index.toNat :=
      UInt64.toNat_sub_of_le _ _ (UInt64.le_iff_toNat_le.2 hle)
    have htip := tip.toNat_lt
    set step' := if 10 ≤ tip - index then step * 2 else step with hset
    have hstep : step'.toNat =
        if 10 ≤ tip.toNat - index.toNat then step.toNat * 2 else step.toNat := by
      have hten : 10 ≤ tip - index ↔ 10 ≤ tip.toNat - index.toNat := by
        rw [UInt64.le_iff_toNat_le, hdist]
        rfl
      rw [hset]
      by_cases hfar : 10 ≤ tip.toNat - index.toNat
      · rw [if_pos (hten.2 hfar), if_pos hfar, UInt64.toNat_mul]
        obtain ⟨-, -, hsmall, -⟩ := hpace.next (by omega) (if_pos hfar).symm
        exact Nat.mod_eq_of_lt (by show step.toNat * 2 < _; omega)
      · rw [if_neg (mt hten.1 hfar), if_neg hfar]
    obtain ⟨hleft, -, -, hnext⟩ := hpace.next (by omega) hstep
    by_cases hbreak : index < step' ∨ step' = 0 ∨ 2 ^ 63 ≤ step'
    · exact ⟨[], by rw [if_pos hbreak], by simp, by simp, .nil⟩
    rw [if_neg hbreak]
    have hstep_le : step' ≤ index := UInt64.not_lt.1 fun hlt => hbreak (.inl hlt)
    have hindex : (index - step').toNat = index.toNat - step'.toNat :=
      UInt64.toNat_sub_of_le _ _ hstep_le
    rw [UInt64.le_iff_toNat_le] at hstep_le
    have hpace' : Paced (tip.toNat - lfb.toNat) (tip.toNat - (index - step').toNat) step'.toNat
        (left - 1) := by
      rwa [hindex, show tip.toNat - (index.toNat - step'.toNat) =
        tip.toNat - index.toNat + step'.toNat by omega]
    obtain ⟨rounds, hrounds, hlength, hall, hsorted⟩ :=
      ih (UInt64.le_iff_toNat_le.2 (by omega)) hpace' (by omega)
    refine ⟨(index, step') :: rounds, by rw [hrounds]; rfl, by rw [length_cons]; omega, ?_,
      .cons (fun r hr => ?_) hsorted⟩
    · intro r hr
      obtain rfl | hr := mem_cons.1 hr
      · exact ⟨UInt64.not_le.1 (mt UInt64.le_iff_toNat_le.1 hdone), UInt64.le_refl _,
          UInt64.le_iff_toNat_le.2 hstep_le⟩
      · obtain ⟨hlow, hhigh, hsub⟩ := hall r hr
        rw [UInt64.le_iff_toNat_le, hindex] at hhigh
        exact ⟨hlow, UInt64.le_iff_toNat_le.2 (hhigh.trans (Nat.sub_le _ _)), hsub⟩
    · have hhigh := (hall r hr).2.1
      rw [UInt64.le_iff_toNat_le, hindex] at hhigh
      exact UInt64.le_iff_toNat_le.2 (hhigh.trans (Nat.sub_le _ _))

variable {digest : Item → Hash} {d : Store}

/-- Every block is stored under a hash that it had when it was written, and the height index lists
blocks of the height. -/
structure HeightIndexed (digest : Item → Hash) (d : Store) : Prop where
  filed : ∀ h b, Chain.findBlock d h = some b → ∃ ord, headerHash digest ord b.header = h
  height : ∀ height, ∀ b ∈ Chain.findBlocksByHeight d height, b.header.height = height

namespace HeightIndexed

theorem of_linked {cfg : ChainConfig} {ord : MapOrder}
    (hd : Chain.Linked (cfg.under (headerHash digest) ord) d) : HeightIndexed digest d :=
  ⟨fun h b hb => ⟨ord, hd.key h b hb⟩,
    fun height b hb => ((hd.mem_findBlocksByHeight height b).1 hb).2⟩

theorem findBlock_headerHash (hd : HeightIndexed digest d) {height : UInt64} {b : ExtendedBlock}
    (hb : b ∈ Chain.findBlocksByHeight d height) (hvoters : b.header.DistinctVoters)
    (ord : MapOrder) : Chain.findBlock d (headerHash digest ord b.header) = some b := by
  obtain ⟨h, -, hfind⟩ := mem_filterMap.1 hb
  obtain ⟨o, rfl⟩ := hd.filed h b hfind
  rwa [headerHash_eq hvoters o ord]

end HeightIndexed

/-- What `MarkBlockValid` leaves in the store. -/
def markedValid (digest : Item → Hash) (ord : MapOrder) (d : Store) (h : Hash) : Store :=
  ((Chain.markBlockValid (Chain.linkedChain.under (headerHash digest) ord) h :
    Proc Unit Store Unit Unit).run ⟨(), d, []⟩).2.disk

theorem markedValid_block {ord : MapOrder} {h : Hash}
    (hkey : ∀ b, d.block h = some b → headerHash digest ord b.header = h) (x : Hash) :
    ((markedValid digest ord d h).block x).map ExtendedBlock.block =
      (d.block x).map ExtendedBlock.block := by
  rw [markedValid, Chain.markBlockValid, Chain.updateBlock, Proc.run_bind, Proc.run_disk]
  show ((((Proc.orDie (d.block h) : Proc Unit Store Unit _) >>= _).run _).2.disk.block x).map _ = _
  cases hb : d.block h with
  | none => rfl
  | some b =>
    show (Function.update d.block (headerHash digest ord b.header) _ x).map _ = _
    rw [hkey b hb]
    by_cases hx : x = h
    · rw [hx, Function.update_self, hb]
      rfl
    · rw [Function.update_of_ne hx]

theorem markedValid_blocksByHeight (ord : MapOrder) (h : Hash) :
    (markedValid digest ord d h).blocksByHeight = d.blocksByHeight := by
  rw [markedValid, Chain.markBlockValid, Chain.updateBlock, Proc.run_bind, Proc.run_disk]
  show (((Proc.orDie (d.block h) : Proc Unit Store Unit _) >>= _).run _).2.disk.blocksByHeight = _
  cases d.block h <;> rfl

theorem heightIndexed_markedValid (hd : HeightIndexed digest d) {ord : MapOrder} {h : Hash}
    (hkey : ∀ b, d.block h = some b → headerHash digest ord b.header = h) :
    HeightIndexed digest (markedValid digest ord d h) ∧
      (d.DistinctVoters → (markedValid digest ord d h).DistinctVoters) := by
  have hsame : ∀ x b, (markedValid digest ord d h).block x = some b →
      ∃ b', d.block x = some b' ∧ b'.header = b.header := by
    intro x b hb
    have hmap := markedValid_block hkey x
    rw [hb, Option.map_some, eq_comm, Option.map_eq_some_iff] at hmap
    obtain ⟨b', hb', heq⟩ := hmap
    exact ⟨b', hb', congrArg Block.header heq⟩
  refine ⟨⟨fun x b hb => ?_, fun height b hb => ?_⟩, fun hv x b hb => ?_⟩
  · obtain ⟨b', hb', heq⟩ := hsame x b hb
    exact heq ▸ hd.filed x b' hb'
  · obtain ⟨x, hx, hb⟩ := mem_filterMap.1 hb
    rw [markedValid_blocksByHeight] at hx
    obtain ⟨b', hb', heq⟩ := hsame x b hb
    exact heq ▸ hd.height height b' (mem_filterMap.2 ⟨x, hx, hb'⟩)
  · obtain ⟨b', hb', heq⟩ := hsame x b hb
    exact heq ▸ hv x b' hb'

/-- Sixteen blocks, each the parent of the next. -/
def tallBlock (i : ℕ) : Block :=
  ⟨{ chainID := [1], epoch := (i + 1).toUInt64, height := i.toUInt64, parent := BitVec.ofNat 256 i
     hcc := ⟨none, 0⟩, txHash := 0, receiptHash := 0, bloom := 0, stateHash := 0
     timestamp := none, proposer := 0, signature := none }, []⟩

def tallCalls : List (MapOrder × Block) := (range 16).map fun i => (.id, tallBlock i)

/-- The store with these blocks, all but the last valid. -/
def tallStore : Store :=
  ((range 15).map fun i => BitVec.ofNat 256 (i + 1)).foldl (markedValid Chain.epochDigest .reverse)
    ((Chain.addBlocks Chain.linkedChain Chain.epochDigest tallCalls :
      Proc Unit Store Unit Unit).run ⟨(), Store.empty, []⟩).2.disk

theorem heightIndexed_tallStore :
    HeightIndexed Chain.epochDigest tallStore ∧ tallStore.DistinctVoters := by
  have hmarks : ∀ (hashes : List Hash) (d : Store), HeightIndexed Chain.epochDigest d →
      d.DistinctVoters →
      HeightIndexed Chain.epochDigest (hashes.foldl (markedValid Chain.epochDigest .reverse) d) ∧
      (hashes.foldl (markedValid Chain.epochDigest .reverse) d).DistinctVoters := by
    intro hashes
    induction hashes with
    | nil => exact fun d hd hv => ⟨hd, hv⟩
    | cons h hashes ih =>
      intro d hd hv
      have hkey : ∀ b, d.block h = some b →
          headerHash Chain.epochDigest .reverse b.header = h := by
        intro b hb
        obtain ⟨o, ho⟩ := hd.filed h b hb
        rw [headerHash_eq (hv h b hb) o .reverse, ho]
      obtain ⟨hd', hv'⟩ := heightIndexed_markedValid hd hkey
      exact ih _ hd' (hv' hv)
  have hvoters : ∀ b ∈ tallCalls.map Prod.snd, b.header.DistinctVoters := by
    intro b hb s hs
    obtain ⟨c, hc, rfl⟩ := mem_map.1 hb
    obtain ⟨i, -, rfl⟩ := mem_map.1 hc
    cases hs
  have hg : Chain.Graded (Chain.linkedChain.under (headerHash Chain.epochDigest) .id)
      {b | b ∈ tallCalls.map Prod.snd} := by
    constructor
    · show ∀ b ∈ tallCalls.map Prod.snd, _
      decide
    · show ∀ b ∈ tallCalls.map Prod.snd, ∀ p ∈ tallCalls.map Prod.snd, _
      decide +kernel
  have hhashes : ((tallCalls.map Prod.snd).map fun b =>
      headerHash Chain.epochDigest .id b.header).Nodup := by
    decide
  have hchain : ∀ b ∈ tallCalls.map Prod.snd, b.header.chainID = Chain.linkedChain.chainID := by
    decide
  obtain ⟨d, hrun, hd, hw, -⟩ := Chain.run_addBlocks (μ := Unit) (ο := Unit) hvoters
    (Chain.linked_empty _) hg (fun h eb heb => nomatch heb) hchain
    (inj_on_of_nodup_map hhashes) tallCalls (fun c hc => mem_map_of_mem hc) () []
  rw [tallStore, hrun]
  exact hmarks _ d (.of_linked hd) fun h eb heb => hvoters _ (hw h eb heb)

def revotedStart : Store :=
  markedValid firstVoteDigest .id
    ((Chain.addBlocks Chain.revotedChain firstVoteDigest [(.id, Chain.revotedBlock)] :
      Proc Unit Store Unit Unit).run ⟨(), Store.empty, []⟩).2.disk
    (headerHash firstVoteDigest .id Chain.revotedBlock.header)

end ThetaSubchain
