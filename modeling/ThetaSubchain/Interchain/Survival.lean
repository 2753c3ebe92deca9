/-
Panics of a witness (interchain/witness/metachain_witness.go).

An update reads the mainchain height, the topics of every log and the texts of the logs of known
events without looking whether they are there.
-/
import ThetaSubchain.Interchain.ScanCoverage

namespace ThetaSubchain

open InterChainMessageEvent List Option

def BigInt.Unsigned (n : BigInt) : Prop := 0 ≤ n.getD 0

instance (n : BigInt) : Decidable n.Unsigned := inferInstanceAs (Decidable (0 ≤ n.getD 0))

structure LogData.Extractable (r : LogReader) (log : LogData) : Prop where
  data : 2 ≤ log.data.length
  blockNumber : 2 ≤ log.blockNumber.length
  height : (BigInt.setString 16 (log.blockNumber.drop 2)).Unsigned
  unpacked : ∀ bank name,
    let tma := r.unpackIntoInterface bank name (hexDecodeString (log.data.drop 2))
    tma.targetChainID.Unsigned ∧ tma.nonce.Unsigned ∧
      (extractOriginatedChainIDFromDenom tma.denom).Unsigned

def LogData.Readable (r : LogReader) (log : LogData) : Prop :=
  ∃ topic, log.topics.head? = some topic ∧
    ((∃ c ∈ eventExtractors r none log, r.keccak256Hex c.1 = topic) → log.Extractable r)

theorem BigInt.Unsigned.encodes {n : BigInt} (h : n.Unsigned) : ∃ item, n.encodeRLP = .ok item := by
  match n, h with
  | none, _ => exact ⟨_, rfl⟩
  | some (.ofNat n), _ => exact ⟨_, rfl⟩
  | some (.negSucc n), h => exact absurd h (by show ¬ 0 ≤ Int.negSucc n; omega)

def InterChainMessageEvent.Encodes (c : InterChainMessageEvent) : Prop :=
  ∃ item, c.encodeRLP = .ok item

theorem InterChainMessageEvent.encodes {c : InterChainMessageEvent}
    (hsource : c.sourceChainID.Unsigned) (htarget : c.targetChainID.Unsigned)
    (hnonce : c.nonce.Unsigned) (hheight : c.blockHeight.Unsigned) : c.Encodes := by
  obtain ⟨source, hsource⟩ := hsource.encodes
  obtain ⟨target, htarget⟩ := htarget.encodes
  obtain ⟨nonce, hnonce⟩ := hnonce.encodes
  obtain ⟨height, hheight⟩ := hheight.encodes
  rw [Encodes, encodeRLP, hsource, htarget, hnonce, hheight]
  exact ⟨_, rfl⟩

namespace LogData.Extractable

variable {r : LogReader} {log : LogData} {chainID : BigInt}

theorem fromTwo_eq {s : Bytes} (h : 2 ≤ s.length) : fromTwo s = some (s.drop 2) := by
  match s, h with
  | _ :: _ :: rest, _ => rfl

theorem unpackLog_eq (h : log.Extractable r) (bank : TokenBank) (name : String) :
    unpackLog r log bank name =
      some (r.unpackIntoInterface bank name (hexDecodeString (log.data.drop 2)),
        hexDecodeString (log.data.drop 2), BigInt.setString 16 (log.blockNumber.drop 2)) := by
  rw [unpackLog, fromTwo_eq h.data, fromTwo_eq h.blockNumber]
  rfl

variable (h : log.Extractable r) (hchain : chainID.Unsigned)
include h hchain

variable (type : InterChainMessageEventType) (bank : TokenBank) (name : String)

theorem locked :
    ∃ e, extractTokenLockedEvent r chainID log type bank name = some e ∧ e.Encodes := by
  obtain ⟨htarget, hnonce, -⟩ := h.unpacked bank name
  rw [extractTokenLockedEvent, h.unpackLog_eq bank name]
  exact ⟨_, rfl, encodes hchain htarget hnonce h.height⟩

theorem minted :
    ∃ e, extractVoucherMintedEvent r chainID log type bank name = some e ∧ e.Encodes := by
  obtain ⟨-, hnonce, hsource⟩ := h.unpacked bank name
  rw [extractVoucherMintedEvent, h.unpackLog_eq bank name]
  exact ⟨_, rfl, encodes hsource hchain hnonce h.height⟩

theorem burned :
    ∃ e, extractVoucherBurnedEvent r chainID log type bank name = some e ∧ e.Encodes := by
  obtain ⟨-, hnonce, htarget⟩ := h.unpacked bank name
  rw [extractVoucherBurnedEvent, h.unpackLog_eq bank name]
  exact ⟨_, rfl, encodes hchain htarget hnonce h.height⟩

theorem unlocked :
    ∃ e, extractTokenUnlockedEvent r chainID log type bank name = some e ∧ e.Encodes := by
  obtain ⟨-, hnonce, -⟩ := h.unpacked bank name
  rw [extractTokenUnlockedEvent, h.unpackLog_eq bank name]
  exact ⟨_, rfl, encodes (le_refl (0 : Int)) hchain hnonce h.height⟩

theorem extracts : ∀ c ∈ eventExtractors r chainID log, ∃ e, c.2 = some e ∧ e.Encodes := by
  simp only [eventExtractors, forall_mem_cons]
  have locked := h.locked hchain
  have minted := h.minted hchain
  have burned := h.burned hchain
  have unlocked := h.unlocked hchain
  exact ⟨locked _ _ _, locked _ _ _, locked _ _ _, locked _ _ _, minted _ _ _, minted _ _ _,
    minted _ _ _, minted _ _ _, burned _ _ _, burned _ _ _, burned _ _ _, burned _ _ _,
    unlocked _ _ _, unlocked _ _ _, unlocked _ _ _, unlocked _ _ _, by simp⟩

end LogData.Extractable

theorem queryInterChainEventLog_readable {r : LogReader} {chainID : BigInt} {logs : List LogData}
    (hchain : chainID.Unsigned) (h : ∀ log ∈ logs, log.Readable r) :
    ∃ events, queryInterChainEventLog r chainID logs = some events ∧ ∀ e ∈ events, e.Encodes := by
  induction logs with
  | nil => exact ⟨[], rfl, fun e he => by cases he⟩
  | cons log logs ih =>
    obtain ⟨events, hevents, hall⟩ := ih fun l hl => h l (mem_cons_of_mem log hl)
    obtain ⟨topic, htopic, hread⟩ := h log mem_cons_self
    rw [queryInterChainEventLog, htopic, hevents]
    cases hfind : (eventExtractors r chainID log).find? fun c => r.keccak256Hex c.1 == topic with
    | none =>
      simp only [bind_eq_bind, bind_some, hfind]
      exact ⟨events, rfl, hall⟩
    | some c =>
      have hknown : ∃ c' ∈ eventExtractors r none log, r.keccak256Hex c'.1 = topic := by
        have hmem : c.1 ∈ (eventExtractors r chainID log).map Prod.fst :=
          mem_map_of_mem (mem_of_find?_eq_some hfind)
        change c.1 ∈ (eventExtractors r none log).map Prod.fst at hmem
        obtain ⟨c', hc', heq⟩ := mem_map.1 hmem
        have htopic' := find?_some hfind
        rw [← heq] at htopic'
        exact ⟨c', hc', eq_of_beq htopic'⟩
      obtain ⟨e, he, hencodes⟩ :=
        (hread hknown).extracts hchain c (mem_of_find?_eq_some hfind)
      simp only [bind_eq_bind, bind_some, hfind, he]
      exact ⟨e :: events, rfl, forall_mem_cons.2 ⟨hencodes, hall⟩⟩

namespace Witness

variable {cfg : WitnessConfig} {r : LogReader} {w : Witness} {side : ChainSide}

theorem setLastQueryedHeightForType_fields (w : Witness) (chainID height : Int) :
    (w.setLastQueryedHeightForType chainID height).running = w.running ∧
      (w.setLastQueryedHeightForType chainID height).mainchainBlockHeight =
        w.mainchainBlockHeight := by
  unfold setLastQueryedHeightForType
  split <;> exact ⟨rfl, rfl⟩

theorem running_collect {ans : CollectAnswers} (hchain : 0 ≤ cfg.chainID side)
    (hlogs : ∀ log ∈ ans.logs, log.Readable r) :
    (w.collectInterChainMessageEventsOnChain cfg r side ans).running = w.running ∧
      (w.collectInterChainMessageEventsOnChain cfg r side ans).mainchainBlockHeight =
        w.mainchainBlockHeight := by
  obtain ⟨fromBlock, first, hfrom, -, -⟩ := exists_fromBlock cfg w side ans
  have hunsigned : BigInt.Unsigned (some (cfg.chainID side)) := hchain
  obtain ⟨events, hevents, hall⟩ := queryInterChainEventLog_readable hunsigned hlogs
  have hset := fun v : Witness => v.setLastQueryedHeightForType_fields (cfg.chainID side)
  unfold collectInterChainMessageEventsOnChain
  simp only [hfrom, hevents, InterChainEventCache.insertList_ok hall, isSome_none,
    Bool.false_eq_true, if_false, (hset _ _).1, (hset _ _).2]
  split
  · exact hset w fromBlock
  · exact ⟨rfl, rfl⟩

theorem running_update {ans : UpdateAnswers} (hids : ∀ side, 0 ≤ cfg.chainID side)
    (hheight : (w.updateMainchainBlockHeight ans.mainchainHeight).mainchainBlockHeight.isSome)
    (hlogs : ∀ side, ∀ log ∈ (collectAnswers ans side).logs, log.Readable r)
    (hrunning : w.running = true) :
    (w.update cfg r ans).running = true ∧ (w.update cfg r ans).mainchainBlockHeight.isSome := by
  obtain ⟨height, hheight⟩ := isSome_iff_exists.1 hheight
  obtain ⟨-, -, hblock, hrunning'⟩ := beforeScan_fields w ans height
  have hblock' : (w.beforeScan ans height).mainchainBlockHeight = some height := by
    rw [← hheight]
    exact congrFun hblock .mainchain
  obtain ⟨hmain, hmain'⟩ := running_collect (w := w.beforeScan ans height) (hids .mainchain)
    (hlogs .mainchain)
  generalize hw1 : (w.beforeScan ans height).collectInterChainMessageEventsOnChain cfg r
    .mainchain (collectAnswers ans .mainchain) = w1 at hmain hmain'
  obtain ⟨hsub, hsub'⟩ := running_collect (w := w1) (hids .subchain) (hlogs .subchain)
  generalize hw2 : w1.collectInterChainMessageEventsOnChain cfg r .subchain
    (collectAnswers ans .subchain) = w2 at hsub hsub'
  rw [hrunning', hrunning] at hmain
  rw [hmain] at hsub
  have hupdate : w.update cfg r ans = w2.updateSubchainBlockHeight ans.subchainHeight := by
    unfold update
    simp only [hheight]
    rw [show (if calculateDynasty height >
        (w.updateMainchainBlockHeight ans.mainchainHeight).witnessedDynasty then _ else _) =
      w.beforeScan ans height from rfl, show ans.mainchain = collectAnswers ans .mainchain from rfl,
      show ans.subchain = collectAnswers ans .subchain from rfl, hw1, hmain, hw2, hsub]
    rfl
  have hsome : w2.mainchainBlockHeight.isSome := by
    rw [hsub', hmain', hblock']
    rfl
  rw [hupdate]
  unfold updateSubchainBlockHeight
  split
  · exact ⟨hsub, hsome⟩
  · exact ⟨hsub, hsome⟩

def updates (cfg : WitnessConfig) (r : LogReader) (w : Witness) (answers : List UpdateAnswers) :
    Witness :=
  answers.foldl (fun w ans => w.step cfg r (.update ans)) w

theorem updates_stopped (answers : List UpdateAnswers) (h : w.running = false) :
    updates cfg r w answers = w := by
  induction answers with
  | nil => rfl
  | cons ans answers ih =>
    have hstep : w.step cfg r (.update ans) = w := if_neg (by rw [h]; decide)
    rw [updates, foldl_cons, hstep]
    exact ih

theorem running_updates (hids : ∀ side, 0 ≤ cfg.chainID side) {answers : List UpdateAnswers}
    (hlogs : ∀ ans ∈ answers, ∀ side, ∀ log ∈ (collectAnswers ans side).logs, log.Readable r)
    (hrunning : w.running = true) (hknown : w.mainchainBlockHeight.isSome) :
    (updates cfg r w answers).running = true := by
  induction answers generalizing w with
  | nil => exact hrunning
  | cons ans answers ih =>
    have hheight : (w.updateMainchainBlockHeight ans.mainchainHeight).mainchainBlockHeight.isSome := by
      unfold updateMainchainBlockHeight
      split
      · exact hknown
      · rfl
    obtain ⟨hrunning', hknown'⟩ :=
      running_update hids hheight (hlogs ans mem_cons_self) hrunning
    have hstep : w.step cfg r (.update ans) = w.update cfg r ans := if_pos hrunning
    rw [updates, foldl_cons, hstep]
    exact ih (fun a ha => hlogs a (mem_cons_of_mem ans ha)) hrunning' hknown'

/-- A new process survives its updates if the logs of every response are readable and the first
request for the mainchain height is answered; without that answer it does not survive the first
update. -/
theorem updates_return_iff (w : Witness) (hids : ∀ side, 0 ≤ cfg.chainID side)
    {answers : List UpdateAnswers}
    (hlogs : ∀ ans ∈ answers, ∀ side, ∀ log ∈ (collectAnswers ans side).logs, log.Readable r) :
    (updates cfg r w.restart answers).running = true ↔
      ∀ ans ∈ answers.head?, ans.mainchainHeight.isSome := by
  cases answers with
  | nil => simp [updates, restart]
  | cons first answers =>
    have hstep : w.restart.step cfg r (.update first) = w.restart.update cfg r first := rfl
    rw [updates, foldl_cons, hstep]
    cases hfirst : first.mainchainHeight with
    | none =>
      have hstop : (w.restart.update cfg r first).running = false := by
        rw [update, hfirst]
        rfl
      constructor
      · intro h
        have heq : updates cfg r (w.restart.update cfg r first) answers = _ :=
          updates_stopped answers hstop
        rw [show foldl _ _ _ = _ from heq, hstop] at h
        cases h
      · intro h
        have hsome := h first rfl
        rw [hfirst] at hsome
        cases hsome
    | some height =>
      have hheight : (w.restart.updateMainchainBlockHeight
          first.mainchainHeight).mainchainBlockHeight.isSome := by
        rw [hfirst]
        rfl
      obtain ⟨hrunning, hknown⟩ := running_update hids hheight
        (hlogs first mem_cons_self) rfl
      constructor
      · intro _ ans hans
        rw [← some.inj hans, hfirst]
        rfl
      · intro _
        exact running_updates hids (fun a ha => hlogs a (mem_cons_of_mem first ha)) hrunning
          hknown

open InterChainEventCache (sampleReader sampleLog abiString)

theorem sampleLog_readable : (sampleLog 7).Readable sampleReader := by
  refine ⟨_, rfl, fun _ => ⟨by decide +kernel, by decide, by decide, ?_⟩⟩
  intro bank name
  have hdenom : (extractOriginatedChainIDFromDenom
      (abiString (hexDecodeString ((sampleLog 7).data.drop 2)) 0)).Unsigned := by decide
  dsimp only [sampleReader]
  split
  · decide
  · split
    · exact ⟨Int.natCast_nonneg _, Int.natCast_nonneg _, hdenom⟩
    · exact ⟨le_rfl, Int.natCast_nonneg _, hdenom⟩

theorem updates_return_iff_lock :
    (updates startConfig sampleReader fresh.restart
      [coverageAnswers [sampleLog 7], { coverageAnswers [] with mainchainHeight := none }]).running
      = true := by
  refine (updates_return_iff fresh (by intro side; cases side <;> decide) ?_).2 ?_
  · intro ans hans side log hlog
    rcases mem_pair.1 hans with rfl | rfl <;> cases side <;> cases hlog
    · exact sampleLog_readable
    · contradiction
  · intro ans hans
    rw [← some.inj hans]
    rfl

/-- The panics of a first update: the height cannot be read; a log has no topic, texts that are too
short, or a negative block number. -/
theorem update_panics :
    (updates startConfig sampleReader fresh.restart
      [{ coverageAnswers [] with mainchainHeight := none }]).running = false ∧
    (coverageRun [{ sampleLog 7 with topics := [] }]).running = false ∧
    (coverageRun [{ sampleLog 7 with data := [] }]).running = false ∧
    (coverageRun [{ sampleLog 7 with blockNumber := [48] }]).running = false ∧
    (coverageRun [{ sampleLog 7 with blockNumber := [48, 120, 45, 53] }]).running = false := by
  decide +kernel

end Witness

end ThetaSubchain
