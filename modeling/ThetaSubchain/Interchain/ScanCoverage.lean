/-
What a witness has seen of a chain (interchain/witness/metachain_witness.go).

The stored height moves to the end of the range that was asked for, also if the request failed or
its response could not be decoded.
-/
import ThetaSubchain.Interchain.ScanStart
import ThetaSubchain.Lib.Cursor

namespace ThetaSubchain

open Cursor (Covered)
open InterChainEventCache Option InterChainEventCache.Call

structure ChainLog where
  height : Int
  log : LogData

def EventOf (r : LogReader) (chainID : Int) (log : LogData) (event : InterChainMessageEvent) :
    Prop :=
  queryInterChainEventLog r (some chainID) [log] = some [event]

variable {events : List InterChainMessageEvent}

theorem mem_of_eventOf {r : LogReader} {chainID : Int} {logs : List LogData} {log : LogData}
    {event : InterChainMessageEvent}
    (hevents : queryInterChainEventLog r (some chainID) logs = some events) (hlog : log ∈ logs)
    (hevent : EventOf r chainID log event) : event ∈ events := by
  induction logs generalizing events with
  | nil => cases hlog
  | cons l logs ih =>
    rw [queryInterChainEventLog] at hevents
    obtain ⟨topic, htopic, hevents⟩ := bind_eq_some_iff.1 hevents
    split at hevents
    next c hfind =>
      obtain ⟨first, hfirst, hevents⟩ := bind_eq_some_iff.1 hevents
      obtain ⟨rest, hrest, hevents⟩ := bind_eq_some_iff.1 hevents
      rw [← some.inj hevents]
      rcases List.mem_cons.1 hlog with rfl | hlog
      · rw [EventOf, queryInterChainEventLog, htopic] at hevent
        simp only [bind_eq_bind, bind_some, hfind, hfirst,
          queryInterChainEventLog, pure_def, some.injEq, List.cons.injEq] at hevent
        rw [hevent.1]
        exact .head _
      · exact .tail _ (ih hrest hlog)
    next hfind =>
      rcases List.mem_cons.1 hlog with rfl | hlog
      · rw [EventOf, queryInterChainEventLog, htopic] at hevent
        simp [hfind, queryInterChainEventLog] at hevent
      · exact ih hevents hlog

theorem InterChainEventCache.encodable_eq (h : ∀ e ∈ events, ∃ item, e.encodeRLP = .ok item) :
    encodable events = events := by
  induction events with
  | nil => rfl
  | cons e events ih =>
    obtain ⟨item, hitem⟩ := h e List.mem_cons_self
    rw [encodable, hitem, ih fun x hx => h x (List.mem_cons_of_mem e hx)]

theorem InterChainEventCache.insertList_ok (h : ∀ e ∈ events, ∃ item, e.encodeRLP = .ok item)
    (db : EventDB) : (insertList db events).2 = none := by
  induction events generalizing db with
  | nil => rfl
  | cons e events ih =>
    obtain ⟨item, hitem⟩ := h e List.mem_cons_self
    rw [insertList, put, hitem]
    exact ih (fun x hx => h x (List.mem_cons_of_mem e hx)) _

namespace Witness

variable {cfg : WitnessConfig} {r : LogReader} {chain : ChainSide → List ChainLog}
  {w : Witness} {side : ChainSide}

def seen (cfg : WitnessConfig) (r : LogReader) (side : ChainSide) (w : Witness) : Set ChainLog :=
  { x | ∀ event, EventOf r (cfg.chainID side) x.log event →
    .put event ∈ InterChainEventCache.history w.calls }

def items (chain : ChainSide → List ChainLog) (side : ChainSide) : Set ChainLog :=
  { x | x ∈ chain side }

/-- The request for the events of a chain is answered with all logs of the range, and they are
read without a panic. -/
structure Answered (cfg : WitnessConfig) (r : LogReader) (chain : ChainSide → List ChainLog)
    (w : Witness) (side : ChainSide) (ans : CollectAnswers) : Prop where
  complete : ∀ first fromBlock, w.fromBlock cfg side ans = some (fromBlock, first) →
    ∀ x ∈ chain side, fromBlock ≤ x.height → x.height ≤ w.calculateToBlock side fromBlock →
      x.log ∈ ans.logs
  decoded : ∃ events, queryInterChainEventLog r (some (cfg.chainID side)) ans.logs = some events ∧
    ∀ e ∈ events, ∃ item, e.encodeRLP = .ok item

/-- The heights that the RPC services report are at least two, and both requests for events are
answered. -/
structure UpdateAnswered (cfg : WitnessConfig) (r : LogReader)
    (chain : ChainSide → List ChainLog) (w : Witness) (ans : UpdateAnswers) : Prop where
  mainchainHeight : ∀ h, ans.mainchainHeight = some h → 2 ≤ blockHeight (some h)
  subchainHeight : ∀ h, ans.subchainHeight = some h → 2 ≤ blockHeight (some h)
  mainchain : Answered cfg r chain (w.updateMainchainBlockHeight ans.mainchainHeight) .mainchain
    ans.mainchain
  subchain : Answered cfg r chain (w.updateMainchainBlockHeight ans.mainchainHeight) .subchain
    ans.subchain

theorem setLastQueryedHeightForType_eq {chainID height : Int} (h : 0 ≤ height) :
    w.setLastQueryedHeightForType chainID height =
      { w with lastQueryedHeight :=
          Function.update w.lastQueryedHeight chainID (some height) } :=
  if_neg (by omega)

theorem blockHeightOf_set (chainID height : Int) (sd : ChainSide) :
    (w.setLastQueryedHeightForType chainID height).blockHeightOf sd = w.blockHeightOf sd := by
  unfold setLastQueryedHeightForType
  split <;> rfl

theorem calculateToBlock_set (chainID height : Int) (sd : ChainSide) (fromBlock : Int) :
    (w.setLastQueryedHeightForType chainID height).calculateToBlock sd fromBlock =
      w.calculateToBlock sd fromBlock := by
  rw [calculateToBlock, calculateToBlock, blockHeightOf_set]

theorem startingHeight_nonneg {main sub : ChainRpc} {chainID s : Int}
    (h : getBlockScanStartingHeight cfg main sub chainID = some s) : 0 ≤ s := by
  obtain ⟨m, -, hs⟩ := bind_eq_some_iff.1 h
  rw [← some.inj hs]
  split <;> omega

theorem exists_fromBlock (cfg : WitnessConfig) (w : Witness) (side : ChainSide)
    (ans : CollectAnswers) :
    ∃ fromBlock first, w.fromBlock cfg side ans = some (fromBlock, first) ∧
      ((∀ c, w.lastQueryedHeight (cfg.chainID side) = some c → 0 ≤ c) → 0 ≤ fromBlock) ∧
      (fromBlock = 0 ∨ w.lastQueryedHeight (cfg.chainID side) = some fromBlock ∨
        w.lastQueryedHeight (cfg.chainID side) = none) := by
  unfold Witness.fromBlock
  by_cases hfail : ans.readFailed
  · rw [if_pos hfail]
    exact ⟨0, false, rfl, fun _ => le_rfl, .inl rfl⟩
  · rw [if_neg hfail]
    cases hc : w.lastQueryedHeight (cfg.chainID side) with
    | some c => exact ⟨c, false, rfl, fun hcursor => hcursor c rfl, .inr (.inl rfl)⟩
    | none =>
      obtain ⟨m, hs, -⟩ := exists_startingHeight cfg
        (fun sd => if sd = .mainchain then ans.main else ans.sub) side
      have hs' : getBlockScanStartingHeight cfg ans.main ans.sub (cfg.chainID side) = some _ := hs
      refine ⟨_, true, ?_, fun _ => startingHeight_nonneg hs', .inr (.inr rfl)⟩
      dsimp only
      rw [hs']
      rfl

theorem fromBlock_congr {w w' : Witness} (ans : CollectAnswers)
    (hcursor : w'.lastQueryedHeight (cfg.chainID side) = w.lastQueryedHeight (cfg.chainID side)) :
    w'.fromBlock cfg side ans = w.fromBlock cfg side ans := by
  rw [Witness.fromBlock, Witness.fromBlock, hcursor]

theorem seen_mono {w w' : Witness} (side : ChainSide) (h : history w.calls ⊆ history w'.calls) :
    seen cfg r side w ⊆ seen cfg r side w' :=
  fun _ hx event hevent => h (hx event hevent)

theorem history_append (calls calls' : List InterChainEventCache.Call) :
    history calls ⊆ history (calls ++ calls') := by
  intro c hc
  rw [history, List.flatMap_append]
  exact List.mem_append_left _ hc

structure Scanned (cfg : WitnessConfig) (r : LogReader) (chain : ChainSide → List ChainLog)
    (w w' : Witness) (side : ChainSide) (ans : CollectAnswers) (fromBlock c : Int) : Prop where
  start : ∃ first, w.fromBlock cfg side ans = some (fromBlock, first)
  start_nonneg : 0 ≤ fromBlock
  end_nonneg : 0 ≤ c
  which : fromBlock = 0 ∨ w.lastQueryedHeight (cfg.chainID side) = some fromBlock ∨
    w.lastQueryedHeight (cfg.chainID side) = none
  stored : w'.lastQueryedHeight (cfg.chainID side) = some c
  covered : Covered (items chain side) ChainLog.height (seen cfg r side w') fromBlock c

theorem Scanned.frame {w w' v v' : Witness} {ans : CollectAnswers} {a c : Int}
    (h : Scanned cfg r chain w w' side ans a c)
    (hstart : v.lastQueryedHeight (cfg.chainID side) = w.lastQueryedHeight (cfg.chainID side))
    (hend : v'.lastQueryedHeight (cfg.chainID side) = w'.lastQueryedHeight (cfg.chainID side))
    (hcalls : history w'.calls ⊆ history v'.calls) : Scanned cfg r chain v v' side ans a c where
  start := fromBlock_congr ans hstart ▸ h.start
  start_nonneg := h.start_nonneg
  end_nonneg := h.end_nonneg
  which := hstart ▸ h.which
  stored := hend.trans h.stored
  covered := h.covered.mono (seen_mono side hcalls) le_rfl

structure Collected (cfg : WitnessConfig) (r : LogReader) (chain : ChainSide → List ChainLog)
    (w w' : Witness) (side : ChainSide) (ans : CollectAnswers) : Prop where
  scanned : ∃ a c, Scanned cfg r chain w w' side ans a c
  heights : w'.blockHeightOf = w.blockHeightOf
  running : w'.running = w.running
  calls : history w.calls ⊆ history w'.calls
  others : ∀ id ≠ cfg.chainID side, w'.lastQueryedHeight id = w.lastQueryedHeight id

theorem collect_spec (side : ChainSide) {ans : CollectAnswers}
    (hans : Answered cfg r chain w side ans) (hheight : ∀ h, w.blockHeightOf side = some h → 2 ≤ h)
    (hcursor : ∀ c, w.lastQueryedHeight (cfg.chainID side) = some c → 0 ≤ c) :
    Collected cfg r chain w (w.collectInterChainMessageEventsOnChain cfg r side ans) side ans := by
  obtain ⟨fromBlock, first, hfrom, hstart, hwhich⟩ := exists_fromBlock cfg w side ans
  have hnonneg := hstart hcursor
  obtain ⟨events, hevents, hitems⟩ := hans.decoded
  have hto : 0 ≤ w.calculateToBlock side fromBlock := by
    unfold calculateToBlock
    cases hh : w.blockHeightOf side with
    | none => exact hnonneg
    | some h =>
      have htwo := hheight h hh
      dsimp only
      split <;> omega
  have heq : w.collectInterChainMessageEventsOnChain cfg r side ans =
      { w with
        lastQueryedHeight := Function.update w.lastQueryedHeight (cfg.chainID side)
          (some (w.calculateToBlock side fromBlock))
        calls := w.calls ++ [.insertList events] } := by
    unfold collectInterChainMessageEventsOnChain
    rw [hfrom]
    dsimp only
    rw [hevents]
    dsimp only
    rw [insertList_ok hitems]
    cases first with
    | false =>
      rw [if_neg (by decide), if_neg (by decide), setLastQueryedHeightForType_eq hto]
    | true =>
      rw [if_pos rfl, if_neg (by decide), calculateToBlock_set,
        setLastQueryedHeightForType_eq hnonneg, setLastQueryedHeightForType_eq hto]
      simp only [Function.update_idem]
  rw [heq]
  refine ⟨⟨fromBlock, _, ⟨first, hfrom⟩, hnonneg, hto, hwhich, Function.update_self .., ?_⟩, ?_, rfl,
    history_append _ _, fun id hid => Function.update_of_ne hid _ _⟩
  · intro x hx hlow hhigh event hevent
    have hlog := hans.complete first fromBlock hfrom x hx hlow hhigh
    have hmem := mem_of_eventOf hevents hlog hevent
    show .put event ∈ history (w.calls ++ [.insertList events])
    rw [history, List.flatMap_append, List.mem_append]
    right
    show .put event ∈ (insertList events).changes ++ []
    rw [List.append_nil, changes, encodable_eq hitems]
    exact List.mem_map_of_mem hmem
  · funext sd
    cases sd <;> rfl

theorem Answered.congr {w w' : Witness} {ans : CollectAnswers} (h : Answered cfg r chain w side ans)
    (hcursor : w'.lastQueryedHeight (cfg.chainID side) = w.lastQueryedHeight (cfg.chainID side))
    (hheight : w'.blockHeightOf side = w.blockHeightOf side) :
    Answered cfg r chain w' side ans := by
  refine ⟨?_, h.decoded⟩
  intro first fromBlock hfrom x hx hlow hhigh
  rw [fromBlock_congr ans hcursor] at hfrom
  rw [calculateToBlock, hheight] at hhigh
  exact h.complete first fromBlock hfrom x hx hlow hhigh

def beforeScan (w : Witness) (ans : UpdateAnswers) (height : Int) : Witness :=
  let w := w.updateMainchainBlockHeight ans.mainchainHeight
  if calculateDynasty height > w.witnessedDynasty then
    { (w.updateValidatorSetCache (calculateDynasty height) ans.validatorSet).1 with
      witnessedDynasty := calculateDynasty height }
  else w

theorem updateMainchainBlockHeight_fields (w : Witness) (h : Option UInt64) :
    (w.updateMainchainBlockHeight h).lastQueryedHeight = w.lastQueryedHeight ∧
      (w.updateMainchainBlockHeight h).calls = w.calls ∧
      (w.updateMainchainBlockHeight h).subchainBlockHeight = w.subchainBlockHeight ∧
      (w.updateMainchainBlockHeight h).running = w.running := by
  cases h with
  | none => exact ⟨rfl, rfl, rfl, rfl⟩
  | some h => exact ⟨rfl, rfl, rfl, rfl⟩

theorem updateValidatorSetCache_fields (w : Witness) (dynasty : Int)
    (ans : Option (List Address × List Int)) :
    (w.updateValidatorSetCache dynasty ans).1.lastQueryedHeight = w.lastQueryedHeight ∧
      (w.updateValidatorSetCache dynasty ans).1.calls = w.calls ∧
      (w.updateValidatorSetCache dynasty ans).1.blockHeightOf = w.blockHeightOf ∧
      (w.updateValidatorSetCache dynasty ans).1.running = w.running := by
  unfold updateValidatorSetCache
  split
  · exact ⟨rfl, rfl, rfl, rfl⟩
  · split
    · exact ⟨rfl, rfl, rfl, rfl⟩
    · refine ⟨rfl, rfl, ?_, rfl⟩
      funext sd
      cases sd <;> rfl

theorem beforeScan_fields (w : Witness) (ans : UpdateAnswers) (height : Int) :
    (w.beforeScan ans height).lastQueryedHeight = w.lastQueryedHeight ∧
      (w.beforeScan ans height).calls = w.calls ∧
      (w.beforeScan ans height).blockHeightOf =
        (w.updateMainchainBlockHeight ans.mainchainHeight).blockHeightOf ∧
      (w.beforeScan ans height).running = w.running := by
  obtain ⟨hcursor, hcalls, -, hrunning⟩ := updateMainchainBlockHeight_fields w ans.mainchainHeight
  unfold beforeScan
  dsimp only
  split
  · obtain ⟨hcursor', hcalls', hheights', hrunning'⟩ := updateValidatorSetCache_fields
      (w.updateMainchainBlockHeight ans.mainchainHeight) (calculateDynasty height)
      ans.validatorSet
    refine ⟨hcursor'.trans hcursor, hcalls'.trans hcalls, ?_, hrunning'.trans hrunning⟩
    rw [← hheights']
    funext sd
    cases sd <;> rfl
  · exact ⟨hcursor, hcalls, rfl, hrunning⟩

variable {ans : UpdateAnswers}

theorem two_le_blockHeightOf {w : Witness} (hans : UpdateAnswered cfg r chain w ans)
    (hheights : ∀ sd h, w.blockHeightOf sd = some h → 2 ≤ h) (sd : ChainSide) (h : Int)
    (hh : (w.updateMainchainBlockHeight ans.mainchainHeight).blockHeightOf sd = some h) :
    2 ≤ h := by
  unfold updateMainchainBlockHeight at hh
  split at hh
  next => exact hheights sd h hh
  next x hx =>
    cases sd with
    | mainchain =>
      have heq : blockHeight ans.mainchainHeight = h := some.inj hh
      rw [← heq, hx]
      exact hans.mainchainHeight x hx
    | subchain => exact hheights .subchain h hh

theorem update_spec {w : Witness} (hans : UpdateAnswered cfg r chain w ans)
    (hrunning : w.running = true) (hheights : ∀ sd h, w.blockHeightOf sd = some h → 2 ≤ h)
    (hnonneg : ∀ sd c, w.lastQueryedHeight (cfg.chainID sd) = some c → 0 ≤ c) :
    w.update cfg r ans = (w.updateMainchainBlockHeight ans.mainchainHeight).stop ∨
    ((∃ a c, Scanned cfg r chain w (w.update cfg r ans) .mainchain ans.mainchain a c) ∧
      (∃ a c, Scanned cfg r chain w (w.update cfg r ans) .subchain ans.subchain a c) ∧
      history w.calls ⊆
        history (w.update cfg r ans).calls ∧
      ∀ sd h, (w.update cfg r ans).blockHeightOf sd = some h → 2 ≤ h) := by
  cases hheight : (w.updateMainchainBlockHeight ans.mainchainHeight).mainchainBlockHeight with
  | none =>
    left
    unfold update
    dsimp only
    rw [hheight]
  | some height =>
  right
  have htwo := two_le_blockHeightOf hans hheights
  obtain ⟨hcursor1, -, -, -⟩ := updateMainchainBlockHeight_fields w ans.mainchainHeight
  obtain ⟨hcursor2, hcalls2, hblock2, hrunning2⟩ := beforeScan_fields w ans height
  -- the mainchain
  have hmain := collect_spec (w := w.beforeScan ans height) .mainchain
    (hans.mainchain.congr (by rw [hcursor2, hcursor1]) (by rw [hblock2]))
    (fun h hh => htwo .mainchain h (by rw [← hblock2]; exact hh))
    (fun c hc => hnonneg .mainchain c (by rw [← hcursor2]; exact hc))
  generalize hw3 : (w.beforeScan ans height).collectInterChainMessageEventsOnChain cfg r
    .mainchain ans.mainchain = w3 at hmain
  have hcursor3 : w3.lastQueryedHeight (cfg.chainID .subchain) =
      w.lastQueryedHeight (cfg.chainID .subchain) :=
    (hmain.others _ cfg.distinct.symm).trans (congrFun hcursor2 _)
  have hblock3 := hmain.heights.trans hblock2
  -- the subchain
  have hsub := collect_spec (w := w3) .subchain
    (hans.subchain.congr (by rw [hcursor3, hcursor1]) (by rw [hblock3]))
    (fun h hh => htwo .subchain h (by rw [← hblock3]; exact hh))
    (fun c hc => hnonneg .subchain c (by rw [← hcursor3]; exact hc))
  generalize hw4 : w3.collectInterChainMessageEventsOnChain cfg r .subchain ans.subchain = w4
    at hsub
  have hrunning3 : w3.running = true := hmain.running.trans (hrunning2.trans hrunning)
  have hrunning4 : w4.running = true := hsub.running.trans hrunning3
  have hupdate : w.update cfg r ans = w4.updateSubchainBlockHeight ans.subchainHeight := by
    unfold update
    dsimp only
    rw [hheight]
    dsimp only
    rw [show (if calculateDynasty height >
        (w.updateMainchainBlockHeight ans.mainchainHeight).witnessedDynasty then _ else _) =
      w.beforeScan ans height from rfl, hw3, hrunning3, hw4, hrunning4]
    rfl
  obtain ⟨hcalls, hcursor⟩ : (w.update cfg r ans).calls = w4.calls ∧
      (w.update cfg r ans).lastQueryedHeight = w4.lastQueryedHeight := by
    rw [hupdate]
    unfold updateSubchainBlockHeight
    split <;> exact ⟨rfl, rfl⟩
  obtain ⟨a, c, hscan⟩ := hmain.scanned
  obtain ⟨a', c', hscan'⟩ := hsub.scanned
  refine ⟨⟨a, c, hscan.frame (by rw [hcursor2]) ?_ ?_⟩, ⟨a', c', hscan'.frame hcursor3.symm ?_ ?_⟩,
    ?_, ?_⟩
  · rw [hcursor]
    exact hsub.others _ cfg.distinct
  · rw [hcalls]
    exact hsub.calls
  · rw [hcursor]
  · rw [hcalls]
    exact List.Subset.refl _
  · rw [hcalls, ← hcalls2]
    exact List.Subset.trans hmain.calls hsub.calls
  · intro sd h hh
    rw [hupdate] at hh
    have hblock4 := hsub.heights.trans hblock3
    unfold updateSubchainBlockHeight at hh
    split at hh
    next => exact htwo sd h (by rw [← hblock4]; exact hh)
    next x hx =>
      cases sd with
      | mainchain =>
        refine htwo .mainchain h ?_
        rw [← hblock4]
        exact hh
      | subchain =>
        have hval : blockHeight ans.subchainHeight = h := some.inj hh
        rw [← hval, hx]
        exact hans.subchainHeight x hx

def fresh : Witness where
  mainchainBlockHeight := none
  subchainBlockHeight := none
  witnessedDynasty := 0
  validatorSetCache := fun _ => none
  lastQueryedHeight := fun _ => none
  calls := []
  running := true

def collectAnswers (ans : UpdateAnswers) : ChainSide → CollectAnswers
  | .mainchain => ans.mainchain
  | .subchain => ans.subchain

/-- The height at which the scan of a chain has started, after one more update: an update that
stores the first height of the chain starts the scan. -/
def initialHeight (cfg : WitnessConfig) (r : LogReader) (side : ChainSide) (s : Option Int)
    (w : Witness) (ans : UpdateAnswers) : Option Int :=
  match s with
  | some s => some s
  | none =>
    if ((w.step cfg r (.update ans)).lastQueryedHeight (cfg.chainID side)).isSome then
      (w.fromBlock cfg side (collectAnswers ans side)).map Prod.fst
    else none

/-- The runs of a witness in which every request for events is answered, with the height at
which the scan of a chain has started. -/
inductive ScanRun (cfg : WitnessConfig) (r : LogReader) (chain : ChainSide → List ChainLog)
    (side : ChainSide) : Option Int → Witness → Prop where
  | fresh : ScanRun cfg r chain side none fresh
  | update {s : Option Int} {w : Witness} (ans : UpdateAnswers) :
      ScanRun cfg r chain side s w → UpdateAnswered cfg r chain w ans →
      ScanRun cfg r chain side (initialHeight cfg r side s w ans) (w.step cfg r (.update ans))
  | cache {s : Option Int} {w : Witness} (call : InterChainEventCache.Call) :
      ScanRun cfg r chain side s w → ScanRun cfg r chain side s (w.step cfg r (.cache call))
  | restart {s : Option Int} {w : Witness} :
      ScanRun cfg r chain side s w → ScanRun cfg r chain side s (w.step cfg r .restart)

structure ScanInv (cfg : WitnessConfig) (r : LogReader) (chain : ChainSide → List ChainLog)
    (side : ChainSide) (s : Option Int) (w : Witness) : Prop where
  heights : ∀ sd h, w.blockHeightOf sd = some h → 2 ≤ h
  nonneg : ∀ sd c, w.lastQueryedHeight (cfg.chainID sd) = some c → 0 ≤ c
  started : s.isSome = (w.lastQueryedHeight (cfg.chainID side)).isSome
  covered : ∀ a c, s = some a → w.lastQueryedHeight (cfg.chainID side) = some c →
    0 ≤ a ∧ Covered (items chain side) ChainLog.height (seen cfg r side w) a c

theorem scanInv_fresh (cfg : WitnessConfig) (r : LogReader) (chain : ChainSide → List ChainLog)
    (side : ChainSide) : ScanInv cfg r chain side none fresh where
  heights sd h hh := by cases sd <;> cases hh
  nonneg sd c hc := by cases hc
  started := rfl
  covered a c ha := by cases ha

variable {s : Option Int}

theorem ScanInv.frame {w w' : Witness} (h : ScanInv cfg r chain side s w)
    (hheights : ∀ sd h, w'.blockHeightOf sd = some h → 2 ≤ h)
    (hcursor : w'.lastQueryedHeight = w.lastQueryedHeight)
    (hcalls : history w.calls ⊆ history w'.calls) : ScanInv cfg r chain side s w' where
  heights := hheights
  nonneg sd c hc := h.nonneg sd c (by rw [← hcursor]; exact hc)
  started := by rw [hcursor]; exact h.started
  covered a c ha hc := by
    obtain ⟨hnonneg, hcovered⟩ := h.covered a c ha (by rw [← hcursor]; exact hc)
    exact ⟨hnonneg, hcovered.mono (seen_mono side hcalls) le_rfl⟩

theorem ScanInv.scanned {w w' : Witness} {ans : CollectAnswers} {a c : Int}
    (h : ScanInv cfg r chain side s w) (hscan : Scanned cfg r chain w w' side ans a c)
    (hcalls : history w.calls ⊆ history w'.calls)
    {s' : Int} (hs' : s = some s' ∨ s = none ∧ s' = a) :
    0 ≤ s' ∧ Covered (items chain side) ChainLog.height (seen cfg r side w') s' c := by
  rcases hs' with hs | ⟨-, rfl⟩
  · have hsome : (w.lastQueryedHeight (cfg.chainID side)).isSome := by
      rw [← h.started, hs]
      rfl
    obtain ⟨old, hold⟩ := isSome_iff_exists.1 hsome
    obtain ⟨hnonneg, hcovered⟩ := h.covered s' old hs hold
    refine ⟨hnonneg, hcovered.extend (seen_mono side hcalls) hscan.covered ?_⟩
    rcases hscan.which with hzero | hcur | hnone
    · exact .inr (by omega)
    · rw [hold, some.injEq] at hcur
      exact .inl (by omega)
    · rw [hold] at hnone
      cases hnone
  · exact ⟨hscan.start_nonneg, hscan.covered⟩

theorem ScanInv.initialHeight_eq {w : Witness} (h : ScanInv cfg r chain side s w)
    (hkept : (w.step cfg r (.update ans)).lastQueryedHeight = w.lastQueryedHeight) :
    initialHeight cfg r side s w ans = s := by
  unfold initialHeight
  cases hs : s with
  | some a => rfl
  | none =>
    have hnone := h.started
    rw [hs, isSome_none] at hnone
    dsimp only
    rw [hkept, ← hnone]
    rfl

theorem ScanInv.update {w : Witness} (h : ScanInv cfg r chain side s w)
    (hans : UpdateAnswered cfg r chain w ans) :
    ScanInv cfg r chain side (initialHeight cfg r side s w ans) (w.step cfg r (.update ans)) := by
  by_cases hrunning : w.running = true
  · have hstep : w.step cfg r (.update ans) = w.update cfg r ans := if_pos hrunning
    rcases update_spec hans hrunning h.heights h.nonneg with
      hstop | ⟨hmain, hsub, hcalls, hheights⟩
    · obtain ⟨hcursor, hcallsEq, -, -⟩ := updateMainchainBlockHeight_fields w ans.mainchainHeight
      have hkept : (w.step cfg r (.update ans)).lastQueryedHeight = w.lastQueryedHeight := by
        rw [hstep, hstop]
        exact hcursor
      rw [h.initialHeight_eq hkept, hstep, hstop]
      refine h.frame ?_ hcursor ?_
      · intro sd x hx
        refine two_le_blockHeightOf hans h.heights sd x ?_
        cases sd <;> exact hx
      · show _ ⊆ history (w.updateMainchainBlockHeight _).calls
        rw [hcallsEq]
        exact List.Subset.refl _
    · have hscan : ∃ a c, Scanned cfg r chain w (w.update cfg r ans) side
          (collectAnswers ans side) a c := by
        cases side with
        | mainchain => exact hmain
        | subchain => exact hsub
      obtain ⟨a, c, hscan⟩ := hscan
      obtain ⟨first, hfrom⟩ := hscan.start
      have hinit : ∃ s', initialHeight cfg r side s w ans = some s' ∧
          (s = some s' ∨ s = none ∧ s' = a) := by
        unfold initialHeight
        cases hs : s with
        | some s' => exact ⟨s', rfl, .inl rfl⟩
        | none =>
          refine ⟨a, ?_, .inr ⟨rfl, rfl⟩⟩
          dsimp only
          rw [hstep, hscan.stored, hfrom]
          rfl
      obtain ⟨s', hs', hwhich⟩ := hinit
      rw [hs', hstep]
      refine ⟨hheights, ?_, ?_, ?_⟩
      · intro sd x hx
        cases sd with
        | mainchain =>
          obtain ⟨_, y, hy⟩ := hmain
          rw [hy.stored, some.injEq] at hx
          rw [← hx]
          exact hy.end_nonneg
        | subchain =>
          obtain ⟨_, y, hy⟩ := hsub
          rw [hy.stored, some.injEq] at hx
          rw [← hx]
          exact hy.end_nonneg
      · rw [hscan.stored]
        rfl
      · intro b d hb hd
        rw [some.injEq] at hb
        rw [hscan.stored, some.injEq] at hd
        rw [← hb, ← hd]
        exact h.scanned hscan hcalls hwhich
  · have hstep : w.step cfg r (.update ans) = w := if_neg hrunning
    rw [h.initialHeight_eq (by rw [hstep]), hstep]
    exact h

theorem ScanRun.inv {w : Witness} (h : ScanRun cfg r chain side s w) :
    ScanInv cfg r chain side s w := by
  induction h with
  | fresh => exact scanInv_fresh cfg r chain side
  | update ans _ hans ih => exact ih.update hans
  | cache call _ ih => exact ih.frame ih.heights rfl (history_append _ _)
  | restart _ ih =>
    refine ih.frame ?_ rfl (List.Subset.refl _)
    intro sd h hh
    cases sd <;> cases hh

/-- In every run in which the requests are answered, the lock and burn events from the initial
height to the stored one have been inserted into the cache. -/
theorem scan_covers {s c : Int} {w : Witness} (hrun : ScanRun cfg r chain side (some s) w)
    (hc : w.lastQueryedHeight (cfg.chainID side) = some c) :
    ∀ x ∈ chain side, s ≤ x.height → x.height ≤ c →
      ∀ event, EventOf r (cfg.chainID side) x.log event →
        .put event ∈ InterChainEventCache.history w.calls :=
  fun x hx hlow hhigh event hevent => (hrun.inv.covered s c rfl hc).2 x hx hlow hhigh event hevent

def silentRpc : ChainRpc where
  getMaxProcessedTokenLockNonce _ _ := none
  getTokenLockEventHeight _ _ _ := none
  getMaxProcessedVoucherBurnNonce _ _ := none
  getVoucherBurnEventHeight _ _ _ := none
  blockNumber _ _ := none

def answersAt (height : Option UInt64) (logs : List LogData) : UpdateAnswers where
  mainchainHeight := height
  validatorSet := none
  mainchain := ⟨false, silentRpc, silentRpc, logs⟩
  subchain := ⟨false, silentRpc, silentRpc, []⟩
  subchainHeight := none

def coverageAnswers (logs : List LogData) : UpdateAnswers := answersAt (some 10) logs

def laterLog : LogData := { sampleLog 8 with blockNumber := [48, 120, 99] }

def laterLock : InterChainMessageEvent := { sampleLock 8 with blockHeight := some 12 }

def coverageChain : ChainSide → List ChainLog
  | .mainchain => [⟨5, sampleLog 7⟩, ⟨12, laterLog⟩]
  | .subchain => []

abbrev coverageStep (w : Witness) (height : Option UInt64) (logs : List LogData) : Witness :=
  w.step startConfig sampleReader (.update (answersAt height logs))

def coverageRun (logs : List LogData) : Witness := coverageStep fresh (some 10) logs

theorem coverage_answered {w : Witness} (height : Option UInt64) (logs : List LogData)
    (events : List InterChainMessageEvent) (a : Int) (first : Bool)
    (hheight : ∀ h, height = some h → 2 ≤ blockHeight (some h))
    (hfrom : (w.updateMainchainBlockHeight height).fromBlock startConfig .mainchain
      (answersAt height logs).mainchain = some (a, first))
    (hlogs : ((coverageChain .mainchain).filter fun x => a ≤ x.height &&
      x.height ≤ (w.updateMainchainBlockHeight height).calculateToBlock .mainchain a).map (·.log) =
        logs)
    (hevents : queryInterChainEventLog sampleReader (some 366) logs = some events)
    (hlocks : ∀ e ∈ events, e = sampleLock 7 ∨ e = laterLock) :
    UpdateAnswered startConfig sampleReader coverageChain w (answersAt height logs) where
  mainchainHeight := hheight
  subchainHeight h hh := by cases hh
  mainchain := by
    refine ⟨?_, events, hevents, ?_⟩
    · intro first' fromBlock hfrom' x hx hlow hhigh
      obtain ⟨rfl, -⟩ := Prod.mk.inj (some.inj (hfrom'.symm.trans hfrom))
      rw [← hlogs]
      refine List.mem_map.mpr ⟨x, List.mem_filter.mpr ⟨hx, ?_⟩, rfl⟩
      rw [Bool.and_eq_true, decide_eq_true_iff, decide_eq_true_iff]
      exact ⟨hlow, hhigh⟩
    · intro e he
      rcases hlocks e he with rfl | rfl
      · exact ⟨_, rfl⟩
      · exact ⟨_, rfl⟩
  subchain := by
    refine ⟨?_, [], rfl, ?_⟩
    · intro first fromBlock _ x hx _ _
      cases hx
    · intro e he
      cases he

/-- The height cannot be read before the second update. -/
theorem scan_covers_lock :
    let w := coverageStep (coverageStep (coverageStep fresh (some 10) [sampleLog 7]) none [])
      (some 20) [laterLog]
    ScanRun startConfig sampleReader coverageChain .mainchain (some 0) w ∧
      w.lastQueryedHeight (startConfig.chainID .mainchain) = some 18 ∧
      .put (sampleLock 7) ∈ history w.calls ∧ .put laterLock ∈ history w.calls := by
  intro w
  have hfirst : ScanRun startConfig sampleReader coverageChain .mainchain
      (initialHeight startConfig sampleReader .mainchain none fresh
        (answersAt (some 10) [sampleLog 7])) (coverageStep fresh (some 10) [sampleLog 7]) := by
    refine ScanRun.update (answersAt (some 10) [sampleLog 7]) .fresh
      (coverage_answered (some 10) [sampleLog 7] [sampleLock 7] 0 true ?_ rfl rfl
        (by decide +kernel) ?_)
    · intro h hh
      rw [← hh]
      decide
    · intro e he
      exact .inl (List.mem_singleton.mp he)
  rw [show initialHeight startConfig sampleReader .mainchain none fresh
    (answersAt (some 10) [sampleLog 7]) = some 0 by decide +kernel] at hfirst
  have hsecond := ScanRun.update (answersAt none []) hfirst
    (coverage_answered none [] [] 8 false nofun (by decide +kernel) (by decide +kernel) rfl nofun)
  have hrun : ScanRun startConfig sampleReader coverageChain .mainchain (some 0) w := by
    refine ScanRun.update (answersAt (some 20) [laterLog]) hsecond
      (coverage_answered (some 20) [laterLog] [laterLock] 8 false ?_ (by decide +kernel)
        (by decide +kernel) (by decide +kernel) ?_)
    · intro h hh
      rw [← hh]
      decide
    · intro e he
      exact .inr (List.mem_singleton.mp he)
  have hc : w.lastQueryedHeight (startConfig.chainID .mainchain) = some 18 := by decide +kernel
  have hcovers := scan_covers hrun hc
  refine ⟨hrun, hc, ?_, ?_⟩
  · exact hcovers _ List.mem_cons_self (by decide) (by decide) _
      (show queryInterChainEventLog _ _ _ = _ by decide +kernel)
  · exact hcovers _ (List.mem_cons_of_mem _ List.mem_cons_self) (by decide) (by decide) _
      (show queryInterChainEventLog _ _ _ = _ by decide +kernel)

/-- The request for the blocks 0 to 8 fails, the stored height is 8, and the lock event at
height 5 has not been inserted. -/
theorem failed_request_loses_event :
    let w := coverageRun []
    initialHeight startConfig sampleReader .mainchain none fresh
        (coverageAnswers []) = some 0 ∧
      w.running = true ∧ w.lastQueryedHeight 366 = some 8 ∧
      ⟨5, sampleLog 7⟩ ∈ coverageChain .mainchain ∧
      EventOf sampleReader 366 (sampleLog 7)
        (sampleLock 7) ∧
      .put (sampleLock 7) ∉ history w.calls := by
  intro w
  have hnone : history w.calls = [] := rfl
  refine ⟨by decide, by decide, by decide, .head _,
    show queryInterChainEventLog _ _ _ = _ by decide +kernel, ?_⟩
  rw [hnone]
  exact List.not_mem_nil

/-- A scan that starts at a stored height asks for at most 300 blocks, and for none less than two
blocks below the height that was read, unless the two heights are 301 apart: then the catch-up phase
takes 300 blocks and leaves one. -/
theorem scanRange_iff (cfg : WitnessConfig) (w : Witness) (side : ChainSide) (ans : CollectAnswers)
    {fromBlock height : Int} (hread : ans.readFailed = false)
    (hstored : w.lastQueryedHeight (cfg.chainID side) = some fromBlock)
    (hheight : w.blockHeightOf side = some height) (hle : fromBlock ≤ height) :
    w.fromBlock cfg side ans = some (fromBlock, false) ∧
      (w.calculateToBlock side fromBlock - fromBlock ≤ 300 ∧
          w.calculateToBlock side fromBlock ≤ height - 2 ↔ height - fromBlock ≠ 301) := by
  refine ⟨by simp [Witness.fromBlock, hread, hstored], ?_⟩
  simp only [calculateToBlock, hheight]
  split <;> omega

def scannedTo (height : Int) : Witness :=
  { fresh with mainchainBlockHeight := some height, lastQueryedHeight := fun _ => some 1000 }

theorem scanRange_too_close :
    (scannedTo 1301).fromBlock startConfig .mainchain (coverageAnswers []).mainchain =
        some (1000, false) ∧
      (scannedTo 1301).blockHeightOf .mainchain = some 1301 ∧
      ¬ (scannedTo 1301).calculateToBlock .mainchain 1000 ≤ 1301 - 2 := by
  decide

theorem scanRange_iff_behind :
    (scannedTo 1302).calculateToBlock .mainchain 1000 - 1000 ≤ 300 ∧
      (scannedTo 1302).calculateToBlock .mainchain 1000 ≤ 1302 - 2 :=
  (scanRange_iff startConfig (scannedTo 1302) .mainchain (coverageAnswers []).mainchain rfl rfl rfl
    (by decide)).2.mpr (by decide)

end Witness

end ThetaSubchain
