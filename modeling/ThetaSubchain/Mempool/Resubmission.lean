/-
Transactions that are submitted again (mempool/mempool.go, mempool/tx_bookkeeper.go).

`InsertTransaction` refuses a transaction that has a record.  `markAbandoned` keeps the record of a
transaction that `UpdateUnsafe` drops, while one that expires has none.
-/
import Mathlib.Data.Set.Function
import ThetaSubchain.Mempool.Bookkeeping

namespace ThetaSubchain

namespace Mempool

/-- A call, with the transactions that Reap has handed out or Update has seen committed since they
were last inserted. -/
def track (cfg : MempoolConfig) (mp : Mempool) (gone : List Bytes) :
    Op → Option (Mempool × List Bytes)
  | .insertTransaction clock hasSynced screenTx rawTx =>
    (mp.insertTransaction cfg clock hasSynced screenTx rawTx).map fun
      | (.ok (), mp) => (mp, gone.filter fun raw => raw ≠ rawTx)
      | (.error _, mp) => (mp, gone)
  | .reap clock maxNumTxs =>
    (mp.reapUnsafe cfg clock maxNumTxs).map fun (txs, mp) => (mp, txs ++ gone)
  | .update clock screened committedRawTxs =>
    some (mp.updateUnsafe cfg clock screened committedRawTxs, committedRawTxs ++ gone)
  | .flush => some (mp.flush, gone)

inductive Tracked (cfg : MempoolConfig) (meets : Mempool → Op → Prop) :
    Mempool → List Bytes → Prop where
  | start : Tracked cfg meets create []
  | step {mp mp' : Mempool} {gone gone' : List Bytes} {op : Op} (h : Tracked cfg meets mp gone)
    (hmeets : meets mp op) (hstep : mp.track cfg gone op = some (mp', gone')) :
    Tracked cfg meets mp' gone'

/-- The transactions are among those of a set, no update refuses one that is queued, and only an
empty pool is flushed. -/
def Accepting (sent : Set Bytes) (mp : Mempool) : Op → Prop
  | .insertTransaction _ _ _ rawTx => rawTx ∈ sent
  | .reap .. => True
  | .update _ screened _ => ∀ i, screened i = true
  | .flush => mp.candidateTxs = []

variable {cfg : MempoolConfig} {mp mp' : Mempool} {gone gone' : List Bytes} {sent : Set Bytes}

def Queued (mp : Mempool) (raw : Bytes) : Prop := ∃ mt ∈ mp.queued, mt.rawTransaction = raw

section Records

variable {tb : TransactionBookkeeper} {hash : Hash}

theorem isSome_of_dropOutdated {now : Int} {rs : List TxRecord} {txMap : Hash → Option TxStatus}
    (h : ((TransactionBookkeeper.dropOutdated now rs txMap).2 hash).isSome) :
    (txMap hash).isSome := by
  induction rs generalizing txMap with
  | nil => exact h
  | cons r rs ih =>
    unfold TransactionBookkeeper.dropOutdated at h
    split at h
    · have hlater := ih h
      by_cases heq : hash = r.hash
      · rw [heq, Function.update_self] at hlater
        cases hlater
      · rw [Function.update_of_ne heq] at hlater
        exact hlater
    · exact h

theorem isSome_of_removeOutdated (now : Int)
    (h : ((tb.removeOutdatedTxsUnsafe now).txMap hash).isSome) : (tb.txMap hash).isSome :=
  isSome_of_dropOutdated h

theorem isSome_of_record {now createdAt : Int} {hash' : Hash}
    (h : ((tb.record now createdAt hash').2.txMap hash).isSome) :
    hash = hash' ∨ (tb.txMap hash).isSome := by
  by_cases heq : hash = hash'
  · exact .inl heq
  · refine .inr (isSome_of_removeOutdated now ?_)
    unfold TransactionBookkeeper.record at h
    generalize tb.removeOutdatedTxsUnsafe now = tb₁ at h ⊢
    dsimp only at h
    split at h
    · exact h
    · dsimp only at h
      rw [Function.update_of_ne heq] at h
      split at h
      · split at h
        · exact h
        · next popped _ _ =>
          by_cases hpopped : hash = popped.hash
          · simp [hpopped] at h
          · simpa [Function.update_of_ne hpopped] using h
      · exact h

end Records

theorem foldl_screenQueued (cfg : MempoolConfig) (clock : Nat → Int)
    {screened : Nat → Bool} (hscreened : ∀ i, screened i = true) (mts : List MempoolTransaction)
    (k : Nat)
    (tb : TransactionBookkeeper) (invalidTxs : List Bytes) :
    let out := (mts.zipIdx k).foldl (screenQueued cfg clock screened) (tb, invalidTxs)
    (∀ hash, (out.1.txMap hash).isSome → (tb.txMap hash).isSome) ∧
      ∀ raw ∈ out.2, raw ∈ invalidTxs ∨ ¬(out.1.txMap (cfg.keccak256Hash raw)).isSome := by
  induction mts generalizing k tb invalidTxs with
  | nil => exact ⟨fun _ h => h, fun raw h => .inl h⟩
  | cons mt mts ih =>
    obtain ⟨status, hstatus⟩ := tb.getStatus_eq (clock k) (cfg.keccak256Hash mt.rawTransaction)
    let tb₁ := tb.removeOutdatedTxsUnsafe (clock k)
    have hstep : screenQueued cfg clock screened (tb, invalidTxs) (mt, k) =
        (tb₁, if onRecord cfg tb₁ mt then invalidTxs else invalidTxs ++ [mt.rawTransaction]) := by
      unfold screenQueued
      dsimp only
      rw [hstatus, hscreened, TransactionBookkeeper.hasSeen, ← onRecord]
      cases onRecord cfg tb₁ mt <;> rfl
    rw [List.zipIdx_cons, List.foldl_cons, hstep]
    obtain ⟨hmap, hinvalid⟩ := ih (k + 1) tb₁
      (if onRecord cfg tb₁ mt then invalidTxs else invalidTxs ++ [mt.rawTransaction])
    refine ⟨fun hash h => isSome_of_removeOutdated _ (hmap hash h), fun raw hraw => ?_⟩
    obtain hraw | hnone := hinvalid raw hraw
    · split at hraw
      · exact .inl hraw
      · next hrecord =>
        obtain hraw | hraw := List.mem_append.mp hraw
        · exact .inl hraw
        · obtain rfl := List.mem_singleton.mp hraw
          exact .inr fun h => hrecord (hmap _ h)
    · exact .inr hnone

/-- A transaction with a record is queued, or gone since it was inserted. -/
structure Traced (cfg : MempoolConfig) (sent : Set Bytes) (mp : Mempool) (gone : List Bytes) :
    Prop where
  kept : Kept mp
  seen : ∀ raw ∈ sent, (mp.txBookkeeper.txMap (cfg.keccak256Hash raw)).isSome →
    mp.Queued raw ∨ raw ∈ gone

theorem Traced.forget (h : Traced cfg sent mp gone) (tb : TransactionBookkeeper)
    (htb : ∀ hash, (tb.txMap hash).isSome → (mp.txBookkeeper.txMap hash).isSome) :
    Traced cfg sent { mp with txBookkeeper := tb } gone :=
  ⟨h.kept.withRest tb mp.size, fun raw hraw hsome => h.seen raw hraw (htb _ hsome)⟩

section Steps

variable (hH : cfg.heap.Lawful)

include hH

theorem traced_insertTransaction (hcol : sent.InjOn cfg.keccak256Hash)
    (h : Traced cfg sent mp gone) {clock : Nat → Int} {hasSynced : Bool}
    {screenTx : Bytes → Except String TxInfo} {rawTx : Bytes} (hraw : rawTx ∈ sent)
    (hstep : mp.track cfg gone (.insertTransaction clock hasSynced screenTx rawTx) =
      some (mp', gone')) : Traced cfg sent mp' gone' := by
  have hforget := h.forget _ fun hash => isSome_of_removeOutdated (clock 0)
  have hkept : Kept mp' := by
    obtain ⟨result, mp₁, hins, hkept, -⟩ :=
      kept_insertTransaction hH clock hasSynced screenTx rawTx h.kept
    rw [track, hins] at hstep
    cases result <;> cases hstep <;> exact hkept
  unfold track insertTransaction at hstep
  dsimp only at hstep
  split at hstep
  · cases hstep
    exact hforget
  split at hstep
  · split at hstep
    · cases hstep
      exact hforget
    · next txInfo _ =>
      rw [Option.map_map] at hstep
      obtain ⟨mp₁, hins, hout⟩ := Option.map_eq_some_iff.mp hstep
      cases hout
      obtain ⟨-, hqueued, hbook, -⟩ := insertTx_spec hH (h.kept.withRest _ _).toFiled hins
      refine ⟨hkept, fun raw hmem hsome => ?_⟩
      rw [hbook] at hsome
      by_cases heq : raw = rawTx
      · exact .inl ⟨_, hqueued.mem_iff.mpr (.head _), heq.symm⟩
      obtain hhash | hold := isSome_of_record hsome
      · exact absurd (hcol hmem hraw hhash) heq
      obtain ⟨mt, hmt, hmtraw⟩ | hgone := hforget.seen raw hmem hold
      · exact .inl ⟨mt, hqueued.mem_iff.mpr (.tail _ hmt), hmtraw⟩
      · exact .inr (List.mem_filter.mpr ⟨hgone, decide_eq_true heq⟩)
  · cases hstep
    exact hforget

theorem traced_reapUnsafe (h : Traced cfg sent mp gone) {clock : Nat → Int} {maxNumTxs : Int}
    {txs : List Bytes} (hreap : mp.reapUnsafe cfg clock maxNumTxs = some (txs, mp')) :
    Traced cfg sent mp' (txs ++ gone) := by
  have hP : ReapInvariant cfg clock fun _ txs mp => Traced cfg sent mp (txs ++ gone) := by
    refine ⟨fun _ _ _ h => h.kept.toFiled, ?_⟩
    intro i txs mp g q mt rest h htop htxs
    have hqueued : mp.queued.Perm (mt :: (reapTop cfg (clock i) mp g (mt :: rest)).queued) :=
      queued_reapTop hH h.kept.toFiled htop htxs
    refine ⟨kept_reapTop hH h.kept htop htxs, fun raw hraw hsome => ?_⟩
    obtain ⟨mt', hmt', rfl⟩ | hgone := h.seen raw hraw (isSome_of_removeOutdated _ hsome)
    · obtain rfl | hmt' := List.mem_cons.mp (hqueued.mem_iff.mp hmt')
      · rw [if_pos (show onRecord cfg _ mt' = true from hsome)]
        exact .inr (by simp)
      · exact .inl ⟨mt', hmt', rfl⟩
    · refine .inr ?_
      split
      · rw [List.append_assoc]
        simp only [List.mem_append] at hgone ⊢
        tauto
      · exact hgone
  have hstart : Traced cfg sent mp ([] ++ gone) := h
  obtain ⟨_, txs₁, mp₁, hout, htraced, -⟩ := hP.loop (i := 0) (mp.reapBound maxNumTxs).toNat hstart
  unfold reapUnsafe at hreap
  rw [hout] at hreap
  cases hreap
  exact ⟨htraced.kept.withRest _ _, htraced.seen⟩

theorem traced_removeTxs (h : Traced cfg sent mp gone) (raws : List Bytes)
    (hgone : ∀ raw ∈ raws, (mp.txBookkeeper.txMap (cfg.keccak256Hash raw)).isSome → raw ∈ gone) :
    Traced cfg sent (mp.removeTxs cfg raws) gone := by
  have hr := regrouped_removeTxs hH mp raws
  refine ⟨kept_removeTxs hH raws h.kept, fun raw hraw hsome => ?_⟩
  rw [hr.txBookkeeper] at hsome
  obtain ⟨mt, hmt, rfl⟩ | hg := h.seen raw hraw hsome
  · by_cases hmem : mt.rawTransaction ∈ raws
    · exact .inr (hgone _ hmem hsome)
    · refine .inl ⟨mt, (queued_removeTxs hH mp raws).mem_iff.mpr ?_, rfl⟩
      exact List.mem_filter.mpr ⟨hmt, by simpa using hmem⟩
  · exact .inr hg

theorem traced_updateUnsafe (h : Traced cfg sent mp gone) {clock : Nat → Int}
    {screened : Nat → Bool} (hscreened : ∀ i, screened i = true) (committedRawTxs : List Bytes) :
    Traced cfg sent (mp.updateUnsafe cfg clock screened committedRawTxs)
      (committedRawTxs ++ gone) := by
  have hmore : Traced cfg sent mp (committedRawTxs ++ gone) :=
    ⟨h.kept, fun raw hraw hsome => (h.seen raw hraw hsome).imp_right (List.mem_append_right _)⟩
  have hleft := traced_removeTxs hH hmore committedRawTxs fun raw hraw _ =>
    List.mem_append_left _ hraw
  obtain ⟨hmap, hinvalid⟩ := foldl_screenQueued cfg clock hscreened
    (mp.removeTxs cfg committedRawTxs).queued 0 (mp.removeTxs cfg committedRawTxs).txBookkeeper []
  refine traced_removeTxs hH (hleft.forget _ hmap) _ fun raw hraw hsome => ?_
  obtain hnil | hnone := hinvalid raw hraw
  · cases hnil
  · exact absurd hsome hnone

theorem traced_run (hcol : sent.InjOn cfg.keccak256Hash)
    (h : Tracked cfg (Accepting sent) mp gone) : Traced cfg sent mp gone := by
  induction h with
  | start => exact ⟨kept_create, nofun⟩
  | @step mp mp' gone gone' op _ hmeets hstep ih =>
    cases op with
    | insertTransaction clock hasSynced screenTx rawTx =>
      exact traced_insertTransaction hH hcol ih hmeets hstep
    | reap clock maxNumTxs =>
      obtain ⟨⟨txs, mp₁⟩, hreap, hout⟩ := Option.map_eq_some_iff.mp hstep
      cases hout
      exact traced_reapUnsafe hH ih hreap
    | update clock screened committedRawTxs =>
      cases hstep
      exact traced_updateUnsafe hH ih hmeets committedRawTxs
    | flush =>
      cases hstep
      exact ⟨kept_flush ih.kept hmeets, nofun⟩

end Steps

/-- After calls in which no update refuses a queued transaction and only an empty pool is flushed, an
insertion returns.  A transaction that it refuses as a duplicate is queued, or gone since it was
inserted, and any other that the screening accepts is accepted. -/
theorem duplicate_is_queued_or_gone (hH : cfg.heap.Lawful) (hcol : sent.InjOn cfg.keccak256Hash)
    (h : Tracked cfg (Accepting sent) mp gone) {rawTx : Bytes} (hraw : rawTx ∈ sent)
    (clock : Nat → Int) (hasSynced : Bool) {screenTx : Bytes → Except String TxInfo}
    (hscreen : screenTx rawTx ≠ .error "Transaction already seen") :
    ∃ result mp', mp.insertTransaction cfg clock hasSynced screenTx rawTx = some (result, mp') ∧
      (result = .error "Transaction already seen" → mp.Queued rawTx ∨ rawTx ∈ gone) ∧
      (hasSynced = true → (∃ txInfo, screenTx rawTx = .ok txInfo) →
        ¬mp.Queued rawTx → rawTx ∉ gone → result = .ok ()) := by
  have htraced := traced_run hH hcol h
  obtain ⟨result, mp', hins, -⟩ :=
    kept_insertTransaction hH clock hasSynced screenTx rawTx htraced.kept
  refine ⟨result, mp', hins, ?_⟩
  unfold insertTransaction at hins
  dsimp only at hins
  split at hins
  · next hseen =>
    have hor := htraced.seen rawTx hraw (isSome_of_removeOutdated _ hseen)
    exact ⟨fun _ => hor, fun _ _ hqueued hgone => absurd hor (not_or.mpr ⟨hqueued, hgone⟩)⟩
  split at hins
  · split at hins
    · next message herror =>
      cases hins
      refine ⟨fun heq => ?_, fun _ ⟨_, hok⟩ => ?_⟩
      · cases heq
        exact absurd herror hscreen
      · cases herror.symm.trans hok
    · obtain ⟨_, -, hout⟩ := Option.map_eq_some_iff.mp hins
      cases hout
      exact ⟨nofun, fun _ _ _ _ => rfl⟩
  · next hsynced =>
    cases hins
    exact ⟨nofun, fun htrue => absurd htrue hsynced⟩

def runTracked (cfg : MempoolConfig) (ops : List Op) : Option (Mempool × List Bytes) :=
  ops.foldlM (fun s op => s.1.track cfg s.2 op) (create, [])

/-- The second submission finds the pool empty and passes the screening, and is refused. -/
theorem dropped_transaction_refused :
    (runTracked sampleConfig [insertSample, .update (fun _ => 1) (fun _ => false) []]).map
      (fun (mp, gone) => (mp.queued, gone, (mp.insertTransaction sampleConfig (fun _ => 2) true
        (fun _ => .ok ⟨5, 7, 1⟩) [1]).map Prod.fst)) =
    some ([], [], some (.error "Transaction already seen")) := by
  decide

/-- The transaction is refused while it is queued, and accepted again when it has expired. -/
theorem duplicate_is_queued_or_gone_sample :
    ∃ mp mp', Tracked sampleConfig (Accepting {[1]}) mp [] ∧ mp.Queued [1] ∧
      Tracked sampleConfig (Accepting {[1]}) mp' [] ∧ ¬mp'.Queued [1] ∧
      (∃ mp₁, mp.insertTransaction sampleConfig (fun _ => 2) true (fun _ => .ok ⟨5, 7, 1⟩) [1] =
        some (.error "Transaction already seen", mp₁)) ∧
      ∃ mp₁, mp'.insertTransaction sampleConfig (fun _ => 2 * maxTxLife) true
        (fun _ => .ok ⟨5, 7, 1⟩) [1] = some (.ok (), mp₁) := by
  let mp := (runOps sampleConfig [insertSample]).get (by decide)
  let expire : Op := .update (fun _ => 2 * maxTxLife) (fun _ => true) []
  let mp' := (runOps sampleConfig [insertSample, expire]).get (by decide)
  have hrun : Tracked sampleConfig (Accepting {[1]}) mp [] :=
    .step .start (show Accepting {[1]} create insertSample from rfl) rfl
  have hrun' : Tracked sampleConfig (Accepting {[1]}) mp' [] :=
    .step hrun (show Accepting {[1]} mp expire from fun _ => rfl) rfl
  let screenTx : Bytes → Except String TxInfo := fun _ => .ok ⟨5, 7, 1⟩
  have hscreen : screenTx [1] ≠ .error "Transaction already seen" := nofun
  have hempty : ¬mp'.Queued [1] := by
    rintro ⟨mt, hmt, -⟩
    have hnil : mp'.queued = [] := by decide
    rw [hnil] at hmt
    cases hmt
  refine ⟨mp, mp', hrun, ⟨_, List.mem_singleton.mpr rfl, rfl⟩, hrun', hempty, ⟨_, rfl⟩, ?_⟩
  obtain ⟨result, mp₁, hins, -, haccept⟩ := duplicate_is_queued_or_gone IndexedHeap.lawful_fifo
    (Set.injOn_singleton _ _) hrun' rfl (fun _ => 2 * maxTxLife) true hscreen
  rw [haccept rfl ⟨_, rfl⟩ hempty List.not_mem_nil] at hins
  exact ⟨mp₁, hins⟩

end Mempool

end ThetaSubchain
