/-
The counter, the map and the queue of the mempool (mempool/mempool.go).

A call of Reap that pops a transaction without record does not count it, and a call of Flush leaves
the map as it is.
-/
import ThetaSubchain.Mempool.Contents

namespace ThetaSubchain

open Function TransactionBookkeeper

namespace Mempool

variable {cfg : MempoolConfig} {mp mp' : Mempool} {mt : MempoolTransaction}

structure Kept (mp : Mempool) : Prop extends Filed mp where
  mapped : ∀ a g, mp.addressToTxGroup a = some g ↔
    g ∈ mp.candidateTxs ∧ (mp.groups g).address = a
  own : ∀ g ∈ mp.candidateTxs, ∀ mt ∈ mp.txsOf g, mt.txInfo.address = (mp.groups g).address

theorem Kept.withRest (h : Kept mp) (tb : TransactionBookkeeper) (size : Int) :
    Kept { mp with txBookkeeper := tb, size := size } :=
  ⟨⟨h.nodup, h.made, h.filled⟩, h.mapped, h.own⟩

def Counted (mp : Mempool) : Prop := mp.size = mp.queued.length

theorem kept_create : Kept create :=
  ⟨filed_create, by simp [create], nofun⟩

theorem Regrouped.kept {left : Nat → List MempoolTransaction} (hr : Regrouped left mp mp')
    (h : Kept mp)
    (hown : ∀ g ∈ mp.candidateTxs, ∀ mt ∈ left g, mt.txInfo.address = (mp.groups g).address) :
    Kept mp' := by
  refine ⟨hr.filed h.toFiled, fun a g => ?_, fun g hg mt hmt => ?_⟩
  · rw [hr.addressToTxGroup, hr.mem_iff]
    split
    · next hex =>
      -- the map has one group for the address
      obtain ⟨c, hc, hnil, haddr⟩ := hex
      refine ⟨nofun, fun ⟨⟨hg, hne⟩, hga⟩ => absurd hnil ?_⟩
      rw [hr.groups g hg] at hga
      have hcg := ((h.mapped a c).mpr ⟨hc, haddr⟩).symm.trans ((h.mapped a g).mpr ⟨hg, hga⟩)
      rw [Option.some.inj hcg]
      exact hne
    · next hnone =>
      rw [h.mapped]
      constructor
      · rintro ⟨hg, haddr⟩
        refine ⟨⟨hg, fun hnil => hnone ⟨g, hg, hnil, haddr⟩⟩, ?_⟩
        rw [hr.groups g hg]
        exact haddr
      · rintro ⟨⟨hg, -⟩, haddr⟩
        rw [hr.groups g hg] at haddr
        exact ⟨hg, haddr⟩
  · obtain ⟨hg, -⟩ := hr.mem_iff.mp hg
    rw [hr.txsOf_eq hg] at hmt
    rw [hr.groups g hg]
    exact hown g hg mt hmt

def Recorded (clock : Nat → Int) (tb : TransactionBookkeeper) (hash : Hash) : Prop :=
  (tb.txMap hash).isSome ∧ ∀ r ∈ tb.txList, r.hash = hash → ∀ i, r.isOutdated (clock i) = false

variable {clock : Nat → Int} {hash : Hash}

theorem dropOutdated_recorded (i : Nat) (rs : List TxRecord) (txMap : Hash → Option TxStatus)
    (hmap : (txMap hash).isSome)
    (hrs : ∀ r ∈ rs, r.hash = hash → ∀ i, r.isOutdated (clock i) = false) :
    ((dropOutdated (clock i) rs txMap).2 hash).isSome ∧
      ∀ r ∈ (dropOutdated (clock i) rs txMap).1, r ∈ rs := by
  induction rs generalizing txMap with
  | nil => exact ⟨hmap, fun r hr => hr⟩
  | cons r rs ih =>
    unfold dropOutdated
    split
    · next hold =>
      -- the record that is dropped is of another hash
      have hne : hash ≠ r.hash := by
        intro heq
        rw [hrs r (.head _) heq.symm i] at hold
        cases hold
      obtain ⟨hmap', hsub⟩ := ih (update txMap r.hash none)
        (by rw [update_of_ne hne]; exact hmap) fun r' hr' => hrs r' (.tail _ hr')
      exact ⟨hmap', fun r' hr' => .tail _ (hsub r' hr')⟩
    · exact ⟨hmap, fun r hr => hr⟩

theorem recorded_removeOutdated {tb : TransactionBookkeeper} (h : Recorded clock tb hash)
    (i : Nat) :
    Recorded clock (tb.removeOutdatedTxsUnsafe (clock i)) hash := by
  obtain ⟨hmap, hsub⟩ := dropOutdated_recorded i tb.txList tb.txMap h.1 h.2
  exact ⟨hmap, fun r hr => h.2 r (hsub r hr)⟩

def Fresh (cfg : MempoolConfig) (clock : Nat → Int) (mp : Mempool) : Prop :=
  ∀ mt ∈ mp.queued, Recorded clock mp.txBookkeeper (cfg.keccak256Hash mt.rawTransaction)

/-- The transactions are taken one after the other, each from the front of the group that is then at
the front of the queue. -/
inductive FromFronts (cfg : MempoolConfig) (mp : Mempool) :
    List MempoolTransaction → Mempool → Prop where
  | nil : FromFronts cfg mp [] mp
  | take {taken : List MempoolTransaction} {left : Mempool} {g : Nat} {q : List Nat}
    {mt : MempoolTransaction} {rest : List MempoolTransaction} (h : FromFronts cfg mp taken left)
    (now : Int) (htop : left.candidateTxs = g :: q) (htxs : left.txsOf g = mt :: rest) :
    FromFronts cfg mp (taken ++ [mt]) (reapTop cfg now left g (mt :: rest))

structure Reaped (cfg : MempoolConfig) (clock : Nat → Int) (mp : Mempool) (txs : List Bytes)
    (taken : List MempoolTransaction) (left : Mempool) : Prop where
  kept : Kept left
  fronts : FromFronts cfg mp taken left
  queued : mp.queued.Perm (taken ++ left.queued)
  handed : txs.Sublist (taken.map (·.rawTransaction))
  fresh : Fresh cfg clock mp → Fresh cfg clock left ∧ txs = taken.map (·.rawTransaction)
  size : left.size = mp.size

section Operations

variable (hH : cfg.heap.Lawful)

include hH

theorem kept_enqueued (h : Kept mp) (hmap : mp.addressToTxGroup mt.txInfo.address = none) :
    Kept (enqueued cfg mp mt) := by
  refine ⟨filed_enqueued hH h.toFiled, fun a g => ?_, fun g hg mt' hmt' => ?_⟩
  · show update mp.addressToTxGroup mt.txInfo.address (some mp.nextGroup) a = some g ↔ _
    rw [mem_enqueued hH]
    by_cases ha : a = mt.txInfo.address
    · rw [ha, update_self]
      constructor
      · intro hg
        obtain rfl := Option.some.inj hg
        exact ⟨.inl rfl, by rw [groups_enqueued_self]; rfl⟩
      · rintro ⟨rfl | hg, haddr⟩
        · rfl
        · rw [groups_enqueued h.toFiled hg] at haddr
          rw [(h.mapped _ g).mpr ⟨hg, haddr⟩] at hmap
          cases hmap
    · rw [update_of_ne ha, h.mapped]
      constructor
      · rintro ⟨hg, haddr⟩
        exact ⟨.inr hg, by rw [groups_enqueued h.toFiled hg]; exact haddr⟩
      · rintro ⟨rfl | hg, haddr⟩
        · rw [groups_enqueued_self] at haddr
          exact absurd haddr.symm ha
        · rw [groups_enqueued h.toFiled hg] at haddr
          exact ⟨hg, haddr⟩
  · obtain rfl | hg := (mem_enqueued hH).mp hg
    · rw [txsOf, groups_enqueued_self] at hmt'
      rw [groups_enqueued_self,
        List.mem_singleton.mp ((hH.push_perm _ mt []).mem_iff.mp hmt')]
      rfl
    · rw [txsOf, groups_enqueued h.toFiled hg] at hmt'
      rw [groups_enqueued h.toFiled hg]
      exact h.own g hg mt' hmt'

theorem kept_insertTx (h : Kept mp) (mt : MempoolTransaction) :
    ∃ mp', mp.insertTx cfg mt = some mp' ∧ Kept mp' := by
  cases hmap : mp.addressToTxGroup mt.txInfo.address with
  | some g =>
    obtain ⟨hg, haddr⟩ := (h.mapped _ g).mp hmap
    refine ⟨_, (insertTx_of_mapped hmap).trans (if_pos hg),
      (regrouped_requeued hH h.toFiled hg).kept h fun c hc mt' hmt' => ?_⟩
    by_cases hcg : c = g
    · rw [hcg, update_self] at hmt'
      rw [hcg]
      obtain rfl | hmt' := List.mem_cons.mp ((hH.push_perm _ mt _).mem_iff.mp hmt')
      · exact haddr.symm
      · exact h.own g hg mt' hmt'
    · rw [update_of_ne hcg] at hmt'
      exact h.own c hc mt' hmt'
  | none => exact ⟨_, insertTx_of_unmapped hmap, kept_enqueued hH h hmap⟩

theorem kept_reapTop (h : Kept mp) {now : Int} {g : Nat} {q : List Nat}
    {rest : List MempoolTransaction} (htop : mp.candidateTxs = g :: q)
    (htxs : mp.txsOf g = mt :: rest) : Kept (reapTop cfg now mp g (mt :: rest)) := by
  refine ((regrouped_takeTop hH h.toFiled htop _).kept h fun c hc mt' hmt' => ?_).withRest _ _
  by_cases hcg : c = g
  · rw [hcg, update_self] at hmt'
    rw [hcg] at hc ⊢
    have hmem := (hH.pop_perm _ mt rest).mem_iff.mp hmt'
    exact h.own g hc mt' (by rw [htxs]; exact .tail _ hmem)
  · rw [update_of_ne hcg] at hmt'
    exact h.own c hc mt' hmt'

theorem kept_removeTxs (raws : List Bytes) (h : Kept mp) : Kept (mp.removeTxs cfg raws) :=
  (regrouped_removeTxs hH mp raws).kept h fun g hg mt hmt =>
    h.own g hg mt (List.mem_filter.mp ((removeTxsOfGroup_perm hH _ _).mem_iff.mp hmt)).1

theorem counted_removeTxs (raws : List Bytes) (h : Kept mp) (hcount : Counted mp) :
    Counted (mp.removeTxs cfg raws) := by
  have hsize : (mp.removeTxs cfg raws).size + (mp.queued.length : Int) = _ :=
    size_foldl_removeFromGroup hH _ mp.candidateTxs h.nodup (mp, [])
  have hlength := (regrouped_removeTxs hH mp raws).queued.length_eq
  unfold Counted at hcount ⊢
  dsimp only at hsize
  omega

theorem Reaped.step {left : Mempool} {txs : List Bytes} {taken : List MempoolTransaction}
    (h : Reaped cfg clock mp txs taken left) {g : Nat} {q : List Nat}
    {rest : List MempoolTransaction} (htop : left.candidateTxs = g :: q)
    (htxs : left.txsOf g = mt :: rest) (i : Nat) :
    let left' := reapTop cfg (clock i) left g (mt :: rest)
    Reaped cfg clock mp
      (if onRecord cfg left'.txBookkeeper mt then txs ++ [mt.rawTransaction] else txs)
      (taken ++ [mt]) left' := by
  have hqueued : left.queued.Perm (mt :: (reapTop cfg (clock i) left g (mt :: rest)).queued) :=
    queued_reapTop hH h.kept.toFiled htop htxs
  refine ⟨kept_reapTop hH h.kept htop htxs, h.fronts.take (clock i) htop htxs, ?_, ?_,
    fun hall => ?_, (size_reapTop _).trans h.size⟩
  · rw [List.append_assoc]
    exact h.queued.trans (hqueued.append_left taken)
  · rw [List.map_append]
    split
    · exact h.handed.append (.refl _)
    · exact h.handed.trans (List.sublist_append_left ..)
  · obtain ⟨hfresh, htaken⟩ := h.fresh hall
    have hfound : onRecord cfg (reapTop cfg (clock i) left g (mt :: rest)).txBookkeeper mt = true :=
      (recorded_removeOutdated (hfresh mt (hqueued.mem_iff.mpr (.head _))) i).1
    refine ⟨fun mt' hmt' => recorded_removeOutdated
      (hfresh mt' (hqueued.mem_iff.mpr (.tail _ hmt'))) i, ?_⟩
    rw [if_pos hfound, htaken, List.map_append]
    rfl

theorem exists_reaped (clock : Nat → Int) (maxNumTxs : Int) (h : Kept mp) :
    ∃ txs taken left, mp.reapUnsafe cfg clock maxNumTxs =
        some (txs, { left with size := mp.size - txs.length }) ∧
      Reaped cfg clock mp txs taken left ∧ taken.length ≤ (mp.reapBound maxNumTxs).toNat ∧
      (left.candidateTxs ≠ [] → taken.length = (mp.reapBound maxNumTxs).toNat) := by
  have hP : ReapInvariant cfg clock fun i txs left =>
      ∃ taken, taken.length = i ∧ Reaped cfg clock mp txs taken left := by
    refine ⟨fun _ _ _ ⟨_, _, h⟩ => h.kept.toFiled, ?_⟩
    intro i txs left g q mt rest ⟨taken, hlength, h⟩ htop htxs
    exact ⟨taken ++ [mt], by simp [hlength], h.step hH htop htxs i⟩
  have hstart : Reaped cfg clock mp [] [] mp :=
    ⟨h, .nil, .refl _, .refl _, fun hall => ⟨hall, rfl⟩, rfl⟩
  obtain ⟨j, txs, left, hout, ⟨taken, hlength, hreaped⟩, hle, hfull⟩ :=
    hP.loop (i := 0) (mp.reapBound maxNumTxs).toNat ⟨[], rfl, hstart⟩
  rw [Nat.zero_add, ← hlength] at hle hfull
  refine ⟨txs, taken, left, ?_, hreaped, hle, hfull⟩
  unfold reapUnsafe
  rw [hout, ← hreaped.size]
  rfl

theorem kept_reapUnsafe (clock : Nat → Int) (maxNumTxs : Int) (h : Kept mp) :
    ∃ txs mp', mp.reapUnsafe cfg clock maxNumTxs = some (txs, mp') ∧ Kept mp' ∧
      (Fresh cfg clock mp → Counted mp → Counted mp') := by
  obtain ⟨txs, taken, left, hout, hreaped, -⟩ := exists_reaped hH clock maxNumTxs h
  refine ⟨txs, _, hout, hreaped.kept.withRest _ _, fun hfresh hcount => ?_⟩
  have hlength := hreaped.queued.length_eq
  rw [List.length_append] at hlength
  show mp.size - txs.length = left.queued.length
  rw [(hreaped.fresh hfresh).2, List.length_map, hcount]
  omega

theorem kept_insertTransaction (clock : Nat → Int) (hasSynced : Bool)
    (screenTx : Bytes → Except String TxInfo) (rawTx : Bytes) (h : Kept mp) :
    ∃ result mp', mp.insertTransaction cfg clock hasSynced screenTx rawTx = some (result, mp') ∧
      Kept mp' ∧ (Counted mp → Counted mp') := by
  unfold insertTransaction
  dsimp only
  split
  · exact ⟨_, _, rfl, h.withRest _ _, id⟩
  split
  · split
    · exact ⟨_, _, rfl, h.withRest _ _, id⟩
    · next txInfo _ =>
      obtain ⟨mp', hout, hkept⟩ := kept_insertTx hH (h.withRest _ mp.size) ⟨rawTx, txInfo⟩
      obtain ⟨-, hqueued, -, hsize⟩ := insertTx_spec hH (h.withRest _ mp.size).toFiled hout
      rw [hout]
      refine ⟨_, mp', rfl, hkept, fun hcount => ?_⟩
      rw [Counted, hsize, hqueued.length_eq, List.length_cons, Nat.cast_succ, add_left_inj]
      exact hcount
  · exact ⟨_, _, rfl, h.withRest _ _, id⟩

end Operations

inductive Op where
  | insertTransaction (clock : Nat → Int) (hasSynced : Bool)
    (screenTx : Bytes → Except String TxInfo) (rawTx : Bytes)
  | reap (clock : Nat → Int) (maxNumTxs : Int)
  | update (clock : Nat → Int) (screened : Nat → Bool) (committedRawTxs : List Bytes)
  | flush

def apply (cfg : MempoolConfig) (mp : Mempool) : Op → Option Mempool
  | .insertTransaction clock hasSynced screenTx rawTx =>
    (mp.insertTransaction cfg clock hasSynced screenTx rawTx).map Prod.snd
  | .reap clock maxNumTxs => (mp.reapUnsafe cfg clock maxNumTxs).map Prod.snd
  | .update clock screened committedRawTxs =>
    some (mp.updateUnsafe cfg clock screened committedRawTxs)
  | .flush => some mp.flush

inductive Run (cfg : MempoolConfig) (meets : Mempool → Op → Prop) : Mempool → Prop where
  | start : Run cfg meets create
  | step {mp mp' : Mempool} {op : Op} (h : Run cfg meets mp) (hmeets : meets mp op)
    (hstep : mp.apply cfg op = some mp') : Run cfg meets mp'

/-- No queued transaction expires before or while it is reaped, and only an empty pool is
flushed. -/
def Timely (cfg : MempoolConfig) (mp : Mempool) : Op → Prop
  | .insertTransaction .. => True
  | .reap clock _ => Fresh cfg clock mp
  | .update .. => True
  | .flush => mp.candidateTxs = []

theorem kept_apply (hH : cfg.heap.Lawful) (h : Kept mp) {op : Op} (hop : op ≠ .flush) :
    ∃ mp', mp.apply cfg op = some mp' ∧ Kept mp' ∧ (Timely cfg mp op → Counted mp → Counted mp') := by
  cases op with
  | insertTransaction clock hasSynced screenTx rawTx =>
    obtain ⟨_, mp', hout, hkept, hcount⟩ :=
      kept_insertTransaction hH clock hasSynced screenTx rawTx h
    exact ⟨mp', by rw [apply, hout]; rfl, hkept, fun _ => hcount⟩
  | reap clock maxNumTxs =>
    obtain ⟨_, mp', hout, hkept, hcount⟩ := kept_reapUnsafe hH clock maxNumTxs h
    exact ⟨mp', by rw [apply, hout]; rfl, hkept, hcount⟩
  | update clock screened committedRawTxs =>
    have hkept := kept_removeTxs hH committedRawTxs h
    exact ⟨_, rfl, kept_removeTxs hH _ (hkept.withRest _ _), fun _ hcount =>
      counted_removeTxs hH _ (hkept.withRest _ _) (counted_removeTxs hH committedRawTxs h hcount)⟩
  | flush => exact absurd rfl hop

theorem kept_flush (h : Kept mp) (hempty : mp.candidateTxs = []) : Kept mp.flush := by
  refine ⟨⟨List.nodup_nil, nofun, nofun⟩, fun a g => ?_, nofun⟩
  refine (h.mapped a g).trans ?_
  rw [hempty]
  rfl

theorem kept_step (hH : cfg.heap.Lawful) (h : Kept mp) (hcount : Counted mp) {op : Op}
    (hop : Timely cfg mp op) : ∃ mp', mp.apply cfg op = some mp' ∧ Kept mp' ∧ Counted mp' := by
  by_cases hflush : op = .flush
  · subst hflush
    exact ⟨_, rfl, kept_flush h hop, rfl⟩
  · obtain ⟨mp', hout, hkept, hcount'⟩ := kept_apply hH h hflush
    exact ⟨mp', hout, hkept, hcount' hop hcount⟩

theorem kept_run (hH : cfg.heap.Lawful) (h : Run cfg (Timely cfg) mp) : Kept mp ∧ Counted mp := by
  induction h with
  | start => exact ⟨kept_create, rfl⟩
  | step _ hop hstep ih =>
    obtain ⟨mp', hout, hkept⟩ := kept_step hH ih.1 ih.2 hop
    cases hout.symm.trans hstep
    exact hkept

/-- Reaping takes as many transactions as it is asked for and there are, one after the other from the
front of the first group.  It neither loses nor duplicates one: the queued ones are those that are
taken and those that stay.  The ones it hands out are the taken ones that are still on record. -/
theorem reap_conserves (hH : cfg.heap.Lawful) (h : Run cfg (Timely cfg) mp) (clock : Nat → Int)
    (maxNumTxs : Int) :
    ∃ txs taken left, mp.reapUnsafe cfg clock maxNumTxs =
        some (txs, { left with size := mp.size - txs.length }) ∧
      taken.length = (if maxNumTxs < 0 then mp.queued.length
        else min mp.queued.length maxNumTxs.toNat) ∧
      FromFronts cfg mp taken left ∧ mp.queued.Perm (taken ++ left.queued) ∧
      txs.Sublist (taken.map (·.rawTransaction)) ∧
      (Fresh cfg clock mp → txs = taken.map (·.rawTransaction)) := by
  obtain ⟨hkept, hcount⟩ := kept_run hH h
  obtain ⟨txs, taken, left, hout, hreaped, hle, hfull⟩ := exists_reaped hH clock maxNumTxs hkept
  refine ⟨txs, taken, left, hout, ?_, hreaped.fronts, hreaped.queued, hreaped.handed,
    fun hfresh => (hreaped.fresh hfresh).2⟩
  have hbound : (mp.reapBound maxNumTxs).toNat = if maxNumTxs < 0 then mp.queued.length
      else min mp.queued.length maxNumTxs.toNat := by
    unfold reapBound
    rw [show mp.size = mp.queued.length from hcount]
    split_ifs <;> omega
  rw [← hbound]
  by_cases hempty : left.candidateTxs = []
  · -- all of them are taken, and there are at least as many as it may take
    have hnil : left.queued = [] := by
      rw [queued, hempty]
      rfl
    have hlength := hreaped.queued.length_eq
    rw [hnil, List.append_nil] at hlength
    have hmin : (mp.reapBound maxNumTxs).toNat ≤ mp.queued.length := by
      rw [hbound]
      split_ifs
      · exact Nat.le_refl _
      · exact Nat.min_le_left ..
    omega
  · exact hfull hempty

/-- After timely calls, and the next one returns: the counter is the number of queued
transactions, the map has the queued groups by their addresses and nothing else, no queued group
is empty, and each transaction is in the group of its address. -/
theorem bookkeeping_agrees (hH : cfg.heap.Lawful) (h : Run cfg (Timely cfg) mp) :
    mp.size = mp.queued.length ∧ mp.candidateTxs.Nodup ∧
    (∀ a g, mp.addressToTxGroup a = some g ↔ g ∈ mp.candidateTxs ∧ (mp.groups g).address = a) ∧
    (∀ g ∈ mp.candidateTxs, (mp.groups g).txs ≠ []) ∧
    (∀ g ∈ mp.candidateTxs, ∀ mt ∈ (mp.groups g).txs,
      mt.txInfo.address = (mp.groups g).address) ∧
    ∀ op, Timely cfg mp op → (mp.apply cfg op).isSome := by
  obtain ⟨hkept, hcount⟩ := kept_run hH h
  refine ⟨hcount, hkept.nodup, hkept.mapped, hkept.filled, hkept.own, fun op hop => ?_⟩
  obtain ⟨mp', hout, -⟩ := kept_step hH hkept hcount hop
  rw [hout]
  rfl

def sampleConfig : MempoolConfig where
  heap := .fifo
  keccak256Hash := fun raw => BitVec.ofNat 256 raw.length

def insertSample : Op := .insertTransaction (fun _ => 0) true (fun _ => .ok ⟨5, 7, 1⟩) [1]

def runOps (cfg : MempoolConfig) (ops : List Op) : Option Mempool := ops.foldlM (apply cfg) create

def observed (ops : List Op) : Option (Int × List Nat × Option Nat) :=
  (runOps sampleConfig ops).map fun mp => (mp.size, mp.candidateTxs, mp.addressToTxGroup 7)

/-- More than a minute later the transaction is reaped without being counted; after a call of
Flush the map has the group, which is not in the queue. -/
theorem bookkeeping_disagrees :
    observed [insertSample, .reap (fun _ => 60 * 10 ^ 9 + 1) (-1)] = some (1, [], none) ∧
    observed [insertSample, .flush] = some (0, [], some 0) := by
  decide

theorem fresh_of_all {now : Int} (hrecord : mp.queued.all (onRecord cfg mp.txBookkeeper) = true)
    (hyoung : mp.txBookkeeper.txList.all (fun r => !r.isOutdated now) = true) :
    Fresh cfg (fun _ => now) mp := by
  refine fun mt hmt => ⟨List.all_eq_true.mp hrecord mt hmt, fun r hr _ _ => ?_⟩
  simpa using List.all_eq_true.mp hyoung r hr

theorem run_of_timely {ops : List Op} (hops : ∀ op ∈ ops, ∀ mp, Timely cfg mp op)
    (h : Run cfg (Timely cfg) mp) (hrun : ops.foldlM (apply cfg) mp = some mp') :
    Run cfg (Timely cfg) mp' := by
  induction ops generalizing mp with
  | nil =>
    cases hrun
    exact h
  | cons op ops ih =>
    obtain ⟨mp₁, hstep, hrun⟩ := Option.bind_eq_some_iff.mp hrun
    exact ih (fun op' hop' => hops op' (.tail _ hop')) (h.step (hops op (.head _) mp) hstep) hrun

def insertsSample : List Op :=
  [insertSample, .insertTransaction (fun _ => 1) true (fun _ => .ok ⟨4, 8, 1⟩) [1, 1],
    .insertTransaction (fun _ => 2) true (fun _ => .ok ⟨5, 7, 2⟩) [1, 1, 1],
    .insertTransaction (fun _ => 3) true (fun _ => .ok ⟨3, 9, 1⟩) [1, 1, 1, 1]]

theorem exists_run_insertsSample :
    ∃ mp, runOps sampleConfig insertsSample = some mp ∧ Run sampleConfig (Timely sampleConfig) mp ∧
      mp.queued.map MempoolTransaction.rawTransaction = [[1, 1], [1], [1, 1, 1], [1, 1, 1, 1]] ∧
      Fresh sampleConfig (fun _ => 4) mp := by
  have hrun : (runOps sampleConfig insertsSample).map (fun mp =>
      (mp.queued.map MempoolTransaction.rawTransaction,
        mp.queued.all (onRecord sampleConfig mp.txBookkeeper),
        mp.txBookkeeper.txList.all fun r => !r.isOutdated 4)) =
      some ([[1, 1], [1], [1, 1, 1], [1, 1, 1, 1]], true, true) := by decide
  obtain ⟨mp, hmp, hfacts⟩ := Option.map_eq_some_iff.mp hrun
  rw [Prod.mk.injEq, Prod.mk.injEq] at hfacts
  obtain ⟨hqueued, hrecord, hyoung⟩ := hfacts
  refine ⟨mp, hmp, run_of_timely (fun op hop _ => ?_) .start hmp, hqueued,
    fresh_of_all hrecord hyoung⟩
  simp only [insertsSample, insertSample, List.mem_cons, List.not_mem_nil, or_false] at hop
  obtain rfl | rfl | rfl | rfl := hop <;> trivial

/-- Of four transactions one is reaped, one is committed and one is refused. -/
theorem bookkeeping_agrees_sample :
    ∃ mp, runOps sampleConfig (insertsSample ++ [.reap (fun _ => 4) 1,
        .update (fun _ => 5) (fun i => i == 1) [[1]]]) = some mp ∧
      Run sampleConfig (Timely sampleConfig) mp ∧ mp.queued = [⟨[1, 1, 1, 1], ⟨3, 9, 1⟩⟩] ∧
      mp.size = mp.queued.length := by
  obtain ⟨mp₀, hinserts, hrun, -, hfresh⟩ := exists_run_insertsSample
  have hend : (runOps sampleConfig (insertsSample ++ [.reap (fun _ => 4) 1,
      .update (fun _ => 5) (fun i => i == 1) [[1]]])).map queued =
      some [⟨[1, 1, 1, 1], ⟨3, 9, 1⟩⟩] := by decide
  obtain ⟨mp, hmp, hqueued⟩ := Option.map_eq_some_iff.mp hend
  have hlast := hmp
  rw [runOps, List.foldlM_append] at hlast
  obtain ⟨_, hinserts', hlast⟩ := Option.bind_eq_some_iff.mp hlast
  cases hinserts.symm.trans hinserts'
  obtain ⟨mp₁, hreap, hupdate⟩ := Option.bind_eq_some_iff.mp hlast
  have htimely : Timely sampleConfig mp₀ (.reap (fun _ => 4) 1) := hfresh
  have hrun₁ : Run sampleConfig (Timely sampleConfig) mp :=
    run_of_timely (by simp [Timely]) (hrun.step htimely hreap) hupdate
  exact ⟨mp, hmp, hrun₁, hqueued, (bookkeeping_agrees IndexedHeap.lawful_fifo hrun₁).1⟩

/-- Two of four transactions are reaped. -/
theorem reap_conserves_sample :
    ∃ mp taken left, runOps sampleConfig insertsSample = some mp ∧ taken.length = 2 ∧
      mp.reapUnsafe sampleConfig (fun _ => 4) 2 = some (taken.map MempoolTransaction.rawTransaction,
        { left with size := mp.size - (taken.map MempoolTransaction.rawTransaction).length }) ∧
      FromFronts sampleConfig mp taken left ∧ mp.queued.Perm (taken ++ left.queued) := by
  obtain ⟨mp, hmp, hrun, hqueued, hfresh⟩ := exists_run_insertsSample
  obtain ⟨txs, taken, left, hout, hcount, hfronts, hperm, -, hall⟩ :=
    reap_conserves IndexedHeap.lawful_fifo hrun (fun _ => 4) 2
  obtain rfl := hall hfresh
  refine ⟨mp, taken, left, hmp, ?_, hout, hfronts, hperm⟩
  have hlength := congrArg List.length hqueued
  rw [List.length_map] at hlength
  rw [hcount, hlength]
  rfl

end Mempool

end ThetaSubchain
