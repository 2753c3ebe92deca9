/-
What the operations of the mempool do to the queued transactions (mempool/mempool.go).

An operation gives the queued groups other transactions.  A group that is left with none leaves the
queue and the map.
-/
import ThetaSubchain.Mempool.Pool

namespace ThetaSubchain

open List Function MempoolTransaction

namespace Mempool

variable {cfg : MempoolConfig} {mp mp' : Mempool} {g : Nat} {mt : MempoolTransaction}
  {left : Nat → List MempoolTransaction}

def txsOf (mp : Mempool) (g : Nat) : List MempoolTransaction := (mp.groups g).txs

structure Regrouped (left : Nat → List MempoolTransaction) (mp mp' : Mempool) : Prop where
  nextGroup : mp'.nextGroup = mp.nextGroup
  txBookkeeper : mp'.txBookkeeper = mp.txBookkeeper
  groups : ∀ g ∈ mp.candidateTxs, mp'.groups g = { mp.groups g with txs := left g }
  candidateTxs : mp'.candidateTxs.Perm (mp.candidateTxs.filter fun g => left g ≠ [])
  addressToTxGroup : ∀ a, mp'.addressToTxGroup a =
    if ∃ g ∈ mp.candidateTxs, left g = [] ∧ (mp.groups g).address = a then none
    else mp.addressToTxGroup a

structure Filed (mp : Mempool) : Prop where
  nodup : mp.candidateTxs.Nodup
  made : ∀ g ∈ mp.candidateTxs, g < mp.nextGroup
  filled : ∀ g ∈ mp.candidateTxs, mp.txsOf g ≠ []

theorem filed_create : Filed create := ⟨nodup_nil, nofun, nofun⟩

namespace Regrouped

theorem mem_iff (h : Regrouped left mp mp') :
    g ∈ mp'.candidateTxs ↔ g ∈ mp.candidateTxs ∧ left g ≠ [] := by
  rw [h.candidateTxs.mem_iff, mem_filter, decide_eq_true_iff]

theorem txsOf_eq (h : Regrouped left mp mp') (hg : g ∈ mp.candidateTxs) : mp'.txsOf g = left g := by
  rw [txsOf, h.groups g hg]

theorem filed (hr : Regrouped left mp mp') (h : Filed mp) : Filed mp' where
  nodup := hr.candidateTxs.nodup_iff.mpr (h.nodup.filter _)
  made := fun g hg => by
    rw [hr.nextGroup]
    exact h.made g (hr.mem_iff.mp hg).1
  filled := fun g hg => by
    obtain ⟨hg, hne⟩ := hr.mem_iff.mp hg
    rw [hr.txsOf_eq hg]
    exact hne

theorem queued (h : Regrouped left mp mp') : mp'.queued.Perm (mp.candidateTxs.flatMap left) := by
  have hleft : ∀ q : List Nat, (∀ g ∈ q, g ∈ mp.candidateTxs) →
      (q.filter fun g => left g ≠ []).flatMap mp'.txsOf = q.flatMap left := by
    intro q hq
    induction q with
    | nil => rfl
    | cons g q ih =>
      have htail := ih fun c hc => hq c (.tail _ hc)
      by_cases hnil : left g = []
      · rw [filter_cons_of_neg (by simp [hnil]), flatMap_cons, hnil]
        exact htail
      · rw [filter_cons_of_pos (by simp [hnil]), flatMap_cons, flatMap_cons, htail,
          h.txsOf_eq (hq g (.head _))]
  rw [← hleft _ fun g hg => hg]
  exact h.candidateTxs.flatMap_right _

theorem of_ne_nil (hne : ∀ g ∈ mp.candidateTxs, left g ≠ [])
    (hnext : mp'.nextGroup = mp.nextGroup) (hbook : mp'.txBookkeeper = mp.txBookkeeper)
    (hgroups : ∀ g, mp'.groups g = { mp.groups g with txs := left g })
    (hqueue : mp'.candidateTxs.Perm mp.candidateTxs)
    (hmap : mp'.addressToTxGroup = mp.addressToTxGroup) : Regrouped left mp mp' where
  nextGroup := hnext
  txBookkeeper := hbook
  groups := fun g _ => hgroups g
  candidateTxs := by
    rw [filter_eq_self.mpr fun g hg => decide_eq_true (hne g hg)]
    exact hqueue
  addressToTxGroup := fun a => by
    rw [if_neg fun ⟨g, hg, hnil, _⟩ => hne g hg hnil, hmap]

end Regrouped

theorem groups_setTxs (txs : List MempoolTransaction) (c : Nat) :
    (mp.setTxs g txs).groups c =
      { mp.groups c with txs := update mp.txsOf g txs c } := by
  show update mp.groups g _ c = _
  by_cases hc : c = g
  · rw [hc, update_self, update_self]
  · rw [update_of_ne hc, update_of_ne hc]
    rfl

theorem update_ne_nil (h : Filed mp) {txs : List MempoolTransaction} (hne : txs ≠ []) :
    ∀ c ∈ mp.candidateTxs, update mp.txsOf g txs c ≠ [] := by
  intro c hc
  by_cases hcg : c = g
  · rw [hcg, update_self]
    exact hne
  · rw [update_of_ne hcg]
    exact h.filled c hc

theorem flatMap_update (h : Filed mp) (hg : g ∈ mp.candidateTxs) (txs : List MempoolTransaction) :
    (mp.candidateTxs.flatMap (update mp.txsOf g txs)).Perm
      (txs ++ (mp.candidateTxs.erase g).flatMap mp.txsOf) := by
  refine ((perm_cons_erase hg).flatMap_right _).trans ?_
  rw [flatMap_cons, update_self]
  refine List.Perm.append_left txs (List.Perm.flatMap_left _ fun c hc => ?_)
  have hne : c ≠ g := fun heq => h.nodup.not_mem_erase (heq ▸ hc)
  rw [update_of_ne hne]

theorem queued_perm (hg : g ∈ mp.candidateTxs) :
    mp.queued.Perm (mp.txsOf g ++ (mp.candidateTxs.erase g).flatMap mp.txsOf) :=
  (perm_cons_erase hg).flatMap_right mp.txsOf

def requeued (cfg : MempoolConfig) (mp : Mempool) (g : Nat) (mt : MempoolTransaction) : Mempool :=
  let added := mp.addTx cfg g mt
  { added with
    candidateTxs := cfg.heap.push added.groupPriority g
      (cfg.heap.remove added.groupPriority (mp.candidateTxs.idxOf g) mp.candidateTxs)
    size := mp.size + 1 }

def enqueued (cfg : MempoolConfig) (mp : Mempool) (mt : MempoolTransaction) : Mempool :=
  let groups := Function.update mp.groups mp.nextGroup (createMempoolTransactionGroup cfg mt)
  { mp with
    groups := groups
    nextGroup := mp.nextGroup + 1
    addressToTxGroup := Function.update mp.addressToTxGroup mt.txInfo.address (some mp.nextGroup)
    candidateTxs := cfg.heap.push (fun c => (groups c).priority) mp.nextGroup mp.candidateTxs
    size := mp.size + 1 }

theorem insertTx_of_mapped (hmap : mp.addressToTxGroup mt.txInfo.address = some g) :
    mp.insertTx cfg mt =
      if g ∈ mp.candidateTxs then some (requeued cfg mp g mt) else none := by
  unfold insertTx
  rw [hmap]
  show Option.bind ((mp.addTx cfg g mt).removeGroup cfg g) _ = _
  rw [removeGroup]
  by_cases hg : g ∈ mp.candidateTxs
  · rw [if_pos (show g ∈ (mp.addTx cfg g mt).candidateTxs from hg), if_pos hg]
    rfl
  · rw [if_neg (show g ∉ (mp.addTx cfg g mt).candidateTxs from hg), if_neg hg]
    rfl

theorem insertTx_of_unmapped (hmap : mp.addressToTxGroup mt.txInfo.address = none) :
    mp.insertTx cfg mt = some (enqueued cfg mp mt) := by
  unfold insertTx
  rw [hmap]
  rfl

section Operations

variable (hH : cfg.heap.Lawful)

include hH

theorem push_ne_nil {α : Type} (priority : α → Int) (x : α) (q : List α) :
    cfg.heap.push priority x q ≠ [] := by
  intro hnil
  have hperm := hH.push_perm priority x q
  rw [hnil] at hperm
  exact absurd hperm.symm.eq_nil (cons_ne_nil _ _)

theorem regrouped_requeued (h : Filed mp) (hg : g ∈ mp.candidateTxs) :
    Regrouped (update mp.txsOf g
      (cfg.heap.push priority mt (mp.txsOf g))) mp (requeued cfg mp g mt) := by
  let priority := (mp.addTx cfg g mt).groupPriority
  have hremoved : (cfg.heap.remove priority (mp.candidateTxs.idxOf g) mp.candidateTxs).Perm
      (mp.candidateTxs.erase g) := hH.remove_idxOf (perm_cons_erase hg)
  exact .of_ne_nil (update_ne_nil h (push_ne_nil hH _ _ _)) rfl rfl (groups_setTxs _)
    (((hH.push_perm _ g _).trans (hremoved.cons g)).trans (perm_cons_erase hg).symm) rfl

theorem queued_requeued (h : Filed mp) (hg : g ∈ mp.candidateTxs) :
    (requeued cfg mp g mt).queued.Perm (mt :: mp.queued) := by
  refine (regrouped_requeued hH h hg).queued.trans ((flatMap_update h hg _).trans ?_)
  exact ((hH.push_perm _ mt _).append_right _).trans ((queued_perm hg).symm.cons mt)

theorem mem_enqueued {c : Nat} :
    c ∈ (enqueued cfg mp mt).candidateTxs ↔ c = mp.nextGroup ∨ c ∈ mp.candidateTxs :=
  (hH.push_perm _ mp.nextGroup mp.candidateTxs).mem_iff.trans mem_cons

omit hH in
theorem nextGroup_notMem (h : Filed mp) : mp.nextGroup ∉ mp.candidateTxs :=
  fun hg => Nat.lt_irrefl _ (h.made _ hg)

omit hH in
theorem groups_enqueued (h : Filed mp) (hg : g ∈ mp.candidateTxs) :
    (enqueued cfg mp mt).groups g = mp.groups g := by
  have hne : g ≠ mp.nextGroup := fun heq => nextGroup_notMem h (heq ▸ hg)
  exact update_of_ne hne _ _

omit hH in
theorem groups_enqueued_self :
    (enqueued cfg mp mt).groups mp.nextGroup = createMempoolTransactionGroup cfg mt :=
  update_self ..

theorem filed_enqueued (h : Filed mp) : Filed (enqueued cfg mp mt) where
  nodup := (hH.push_perm _ _ _).nodup_iff.mpr (nodup_cons.mpr ⟨nextGroup_notMem h, h.nodup⟩)
  made := fun g hg => by
    obtain rfl | hg := (mem_enqueued hH).mp hg
    · exact Nat.lt_succ_self _
    · exact Nat.lt_succ_of_lt (h.made g hg)
  filled := fun g hg => by
    obtain rfl | hg := (mem_enqueued hH).mp hg
    · rw [txsOf, groups_enqueued_self]
      exact push_ne_nil hH _ _ _
    · rw [txsOf, groups_enqueued h hg]
      exact h.filled g hg

theorem queued_enqueued (h : Filed mp) : (enqueued cfg mp mt).queued.Perm (mt :: mp.queued) := by
  refine ((hH.push_perm _ mp.nextGroup mp.candidateTxs).flatMap_right _).trans ?_
  rw [flatMap_cons, groups_enqueued_self]
  refine ((hH.push_perm priority mt []).append_right _).trans (.cons mt ?_)
  refine List.Perm.flatMap_left _ fun c hc => ?_
  rw [groups_enqueued h hc]

theorem insertTx_spec (h : Filed mp) (hins : mp.insertTx cfg mt = some mp') :
    Filed mp' ∧ mp'.queued.Perm (mt :: mp.queued) ∧ mp'.txBookkeeper = mp.txBookkeeper ∧
      mp'.size = mp.size + 1 := by
  cases hmap : mp.addressToTxGroup mt.txInfo.address with
  | some g =>
    rw [insertTx_of_mapped hmap] at hins
    split at hins
    · next hg =>
      cases hins
      exact ⟨(regrouped_requeued hH h hg).filed h, queued_requeued hH h hg, rfl, rfl⟩
    · cases hins
  | none =>
    cases (insertTx_of_unmapped hmap).symm.trans hins
    exact ⟨filed_enqueued hH h, queued_enqueued hH h, rfl, rfl⟩

theorem regrouped_takeTop (h : Filed mp) {q : List Nat} (htop : mp.candidateTxs = g :: q)
    (txs : List MempoolTransaction) :
    Regrouped (update mp.txsOf g txs) mp (mp.takeTop cfg g txs) := by
  have hpop : (cfg.heap.pop mp.groupPriority mp.candidateTxs).Perm q := by
    rw [htop]
    exact hH.pop_perm mp.groupPriority g q
  unfold takeTop
  by_cases hempty : txs.isEmpty
  · rw [if_pos hempty]
    obtain rfl := isEmpty_iff.mp hempty
    have hrest : ∀ c ∈ q, c ≠ g := by
      rintro c hc rfl
      have hnodup := h.nodup
      rw [htop] at hnodup
      exact (nodup_cons.mp hnodup).1 hc
    have hnil : ∀ c ∈ mp.candidateTxs, update mp.txsOf g [] c = [] ↔ c = g := by
      intro c hc
      by_cases hcg : c = g
      · simp [hcg]
      · simp [h.filled c hc, hcg]
    refine ⟨rfl, rfl, fun c _ => groups_setTxs [] c, hpop.trans ?_, fun a => ?_⟩
    · have hfilter : mp.candidateTxs.filter (fun c => update mp.txsOf g [] c ≠ []) =
          mp.candidateTxs.filter fun c => c ≠ g :=
        filter_congr fun c hc => by simp [hnil c hc]
      rw [hfilter, htop, filter_cons_of_neg (by simp),
        filter_eq_self.mpr fun c hc => decide_eq_true (hrest c hc)]
    · show update mp.addressToTxGroup (mp.groups g).address none a = _
      by_cases ha : a = (mp.groups g).address
      · rw [ha, update_self, if_pos ⟨g, by simp [htop], by simp, rfl⟩]
      · rw [update_of_ne ha, if_neg]
        rintro ⟨c, hc, hcnil, rfl⟩
        exact ha (by rw [(hnil c hc).mp hcnil])
  · rw [if_neg hempty]
    refine .of_ne_nil (update_ne_nil h fun hnil => hempty (isEmpty_iff.mpr hnil)) rfl rfl
      (groups_setTxs txs) ?_ rfl
    show (cfg.heap.push _ g (cfg.heap.pop mp.groupPriority mp.candidateTxs)).Perm mp.candidateTxs
    rw [htop] at hpop ⊢
    exact (hH.push_perm _ g _).trans (hpop.cons g)

def reapTop (cfg : MempoolConfig) (now : Int) (mp : Mempool) (g : Nat)
    (txs : List MempoolTransaction) : Mempool :=
  { mp.takeTop cfg g (cfg.heap.pop MempoolTransaction.priority txs) with
    txBookkeeper := mp.txBookkeeper.removeOutdatedTxsUnsafe now }

variable {now : Int} {q : List Nat} {rest : List MempoolTransaction}

omit hH in
theorem size_reapTop (txs : List MempoolTransaction) :
    (reapTop cfg now mp g txs).size = mp.size := by
  unfold reapTop takeTop
  dsimp only
  split <;> rfl

theorem queued_reapTop (h : Filed mp) (htop : mp.candidateTxs = g :: q)
    (htxs : mp.txsOf g = mt :: rest) :
    mp.queued.Perm (mt :: (reapTop cfg now mp g (mt :: rest)).queued) := by
  have hg : g ∈ mp.candidateTxs := by
    rw [htop]
    exact .head _
  have hpop := hH.pop_perm priority mt rest
  have hrest := (regrouped_takeTop hH h htop _).queued.trans
    ((flatMap_update h hg _).trans (hpop.append_right _))
  refine (queued_perm hg).trans ?_
  rw [htxs]
  exact hrest.symm.cons mt

end Operations

def onRecord (cfg : MempoolConfig) (tb : TransactionBookkeeper) (mt : MempoolTransaction) : Bool :=
  (tb.txMap (cfg.keccak256Hash mt.rawTransaction)).isSome

/-- `P i txs mp` holds when `i` transactions have been taken. -/
structure ReapInvariant (cfg : MempoolConfig) (clock : Nat → Int)
    (P : Nat → List Bytes → Mempool → Prop) : Prop where
  filed : ∀ i txs mp, P i txs mp → Filed mp
  step : ∀ i txs mp g q mt rest, P i txs mp → mp.candidateTxs = g :: q →
    mp.txsOf g = mt :: rest →
    let mp' := reapTop cfg (clock i) mp g (mt :: rest)
    P (i + 1) (if onRecord cfg mp'.txBookkeeper mt then txs ++ [mt.rawTransaction] else txs) mp'

theorem ReapInvariant.loop {clock : Nat → Int} {P : Nat → List Bytes → Mempool → Prop}
    (hP : ReapInvariant cfg clock P) (n : Nat) {i : Nat} {txs : List Bytes} (h : P i txs mp) :
    ∃ j txs' mp', reapLoop cfg clock n i txs mp = some (txs', mp') ∧ P j txs' mp' ∧ j ≤ i + n ∧
      (mp'.candidateTxs ≠ [] → j = i + n) := by
  induction n generalizing i txs mp with
  | zero => exact ⟨i, txs, mp, rfl, h, Nat.le_refl _, fun _ => rfl⟩
  | succ n ih =>
    unfold reapLoop
    cases htop : mp.candidateTxs with
    | nil => exact ⟨i, txs, mp, rfl, h, Nat.le_add_right .., fun hne => absurd htop hne⟩
    | cons g q =>
      dsimp only
      cases htxs : (mp.groups g).txs with
      | nil => exact absurd htxs ((hP.filed i txs mp h).filled g (by simp [htop]))
      | cons mt rest =>
        obtain ⟨status, hstatus⟩ := mp.txBookkeeper.getStatus_eq (clock i)
          (cfg.keccak256Hash mt.rawTransaction)
        dsimp only
        rw [hstatus, Nat.add_comm n 1, ← Nat.add_assoc]
        exact ih (hP.step i txs mp g q mt rest h htop htxs)

def leftOf (cfg : MempoolConfig) (committed : Bytes → Bool) (mp : Mempool) (g : Nat) :
    List MempoolTransaction :=
  (removeTxsOfGroup cfg committed (mp.txsOf g)).1

variable (hH : cfg.heap.Lawful)
include hH

theorem removeTxsOfGroup_perm (committed : Bytes → Bool) (txs : List MempoolTransaction) :
    (removeTxsOfGroup cfg committed txs).1.Perm (txs.filter fun mt => !committed mt.rawTransaction):=
  hH.removeEach_perm (filter_append_perm (fun mt => committed mt.rawTransaction) txs).symm

theorem removeTxsOfGroup_again (committed : Bytes → Bool) (txs : List MempoolTransaction) :
    (removeTxsOfGroup cfg committed (removeTxsOfGroup cfg committed txs).1).1 =
      (removeTxsOfGroup cfg committed txs).1 := by
  have hnone : (removeTxsOfGroup cfg committed txs).1.filter
      (fun mt => committed mt.rawTransaction) = [] := by
    refine filter_eq_nil_iff.mpr fun mt hmt => ?_
    have hleft := (removeTxsOfGroup_perm hH committed txs).mem_iff.mp hmt
    simpa using (mem_filter.mp hleft).2
  generalize (removeTxsOfGroup cfg committed txs).1 = kept at hnone
  unfold removeTxsOfGroup
  rw [hnone]
  rfl

omit hH

structure Reduced (cfg : MempoolConfig) (committed : Bytes → Bool) (gs : List Nat)
    (s s' : Mempool × List Nat) : Prop where
  nextGroup : s'.1.nextGroup = s.1.nextGroup
  txBookkeeper : s'.1.txBookkeeper = s.1.txBookkeeper
  candidateTxs : s'.1.candidateTxs = s.1.candidateTxs
  groups : ∀ g, s'.1.groups g =
    if g ∈ gs then { s.1.groups g with txs := leftOf cfg committed s.1 g } else s.1.groups g
  addressToTxGroup : ∀ a, s'.1.addressToTxGroup a =
    if ∃ g ∈ gs, leftOf cfg committed s.1 g = [] ∧ (s.1.groups g).address = a then none
    else s.1.addressToTxGroup a
  removed : s'.2 = s.2 ++ gs.filter fun g => leftOf cfg committed s.1 g = []

theorem reduced_removeFromGroup (cfg : MempoolConfig) (committed : Bytes → Bool)
    (s : Mempool × List Nat) (g : Nat) :
    Reduced cfg committed [g] s (removeFromGroup cfg committed s g) := by
  obtain ⟨mp, removed⟩ := s
  have hgroups : ∀ c, (mp.setTxs g (leftOf cfg committed mp g)).groups c =
      if c ∈ [g] then { mp.groups c with txs := leftOf cfg committed mp c } else mp.groups c := by
    intro c
    rw [groups_setTxs]
    by_cases hc : c = g
    · simp [hc]
    · simp [hc, txsOf]
  show Reduced cfg committed [g] (mp, removed)
    (if (leftOf cfg committed mp g).isEmpty then (_, _) else (_, _))
  by_cases hnil : leftOf cfg committed mp g = []
  · rw [if_pos (by simp [hnil])]
    refine ⟨rfl, rfl, rfl, hgroups, fun a => ?_, by simp [hnil]⟩
    show update mp.addressToTxGroup (mp.groups g).address none a = _
    by_cases ha : a = (mp.groups g).address
    · simp [ha, hnil]
    · simp [ha, Ne.symm ha]
  · rw [if_neg (by simp [hnil])]
    refine ⟨rfl, rfl, rfl, hgroups, fun a => ?_, by simp [hnil]⟩
    show mp.addressToTxGroup a = _
    simp [hnil]

include hH

theorem Reduced.cons {committed : Bytes → Bool} {g : Nat} {gs : List Nat}
    {s s₁ s' : Mempool × List Nat} (h₁ : Reduced cfg committed [g] s s₁)
    (h : Reduced cfg committed gs s₁ s') : Reduced cfg committed (g :: gs) s s' := by
  have hleft : ∀ c, leftOf cfg committed s₁.1 c = leftOf cfg committed s.1 c := by
    intro c
    rw [leftOf, txsOf, h₁.groups]
    split
    · exact removeTxsOfGroup_again hH committed _
    · rfl
  have haddr : ∀ c, (s₁.1.groups c).address = (s.1.groups c).address := by
    intro c
    rw [h₁.groups]
    split <;> rfl
  refine ⟨h.nextGroup.trans h₁.nextGroup, h.txBookkeeper.trans h₁.txBookkeeper,
    h.candidateTxs.trans h₁.candidateTxs, fun c => ?_, fun a => ?_, ?_⟩
  · rw [h.groups, hleft, h₁.groups]
    by_cases hc : c = g <;> simp [hc]
  · rw [h.addressToTxGroup, h₁.addressToTxGroup]
    simp only [hleft, haddr, exists_mem_cons_iff, not_mem_nil, false_and, exists_false,
      or_false]
    split_ifs <;> grind
  · rw [h.removed, h₁.removed]
    simp only [hleft, append_assoc, ← filter_append, singleton_append]

theorem reduced_foldl (committed : Bytes → Bool) (gs : List Nat) (s : Mempool × List Nat) :
    Reduced cfg committed gs s (gs.foldl (removeFromGroup cfg committed) s) := by
  induction gs generalizing s with
  | nil => exact ⟨rfl, rfl, rfl, fun _ => rfl, fun a => by simp, by simp⟩
  | cons g gs ih => exact .cons hH (reduced_removeFromGroup cfg committed s g) (ih _)

theorem regrouped_removeTxs (mp : Mempool) (raws : List Bytes) :
    Regrouped (leftOf cfg (fun raw => raws.contains raw) mp) mp (mp.removeTxs cfg raws) := by
  have h := reduced_foldl hH (fun raw => raws.contains raw) mp.candidateTxs (mp, [])
  unfold removeTxs
  generalize mp.candidateTxs.foldl (removeFromGroup cfg fun raw => raws.contains raw) (mp, []) = out
    at h
  obtain ⟨mp₁, removed⟩ := out
  obtain rfl : removed = _ := h.removed
  refine ⟨h.nextGroup, h.txBookkeeper, fun g hg => (h.groups g).trans (if_pos hg), ?_,
    h.addressToTxGroup⟩
  show (cfg.heap.removeEach mp₁.groupPriority _ mp₁.candidateTxs).Perm _
  rw [show mp₁.candidateTxs = mp.candidateTxs from h.candidateTxs, nil_append]
  refine hH.removeEach_perm ?_
  have hsplit := filter_append_perm
    (fun g => decide (leftOf cfg (fun raw => raws.contains raw) mp g = [])) mp.candidateTxs
  simpa only [decide_not] using hsplit.symm

theorem queued_removeTxs (mp : Mempool) (raws : List Bytes) :
    (mp.removeTxs cfg raws).queued.Perm
      (mp.queued.filter fun mt => !raws.contains mt.rawTransaction) := by
  refine (regrouped_removeTxs hH mp raws).queued.trans ?_
  rw [queued, filter_flatMap]
  exact List.Perm.flatMap_left _ fun g _ => removeTxsOfGroup_perm hH _ _

theorem size_foldl_removeFromGroup (committed : Bytes → Bool) (gs : List Nat)
    (hnodup : gs.Nodup) (s : Mempool × List Nat) :
    (gs.foldl (removeFromGroup cfg committed) s).1.size + (gs.flatMap s.1.txsOf).length =
      s.1.size + (gs.flatMap (leftOf cfg committed s.1)).length := by
  induction gs generalizing s with
  | nil => rfl
  | cons g gs ih =>
    obtain ⟨hg, hnodup⟩ := nodup_cons.mp hnodup
    have hstep := reduced_removeFromGroup cfg committed s g
    have hsame : ∀ c ∈ gs, (removeFromGroup cfg committed s g).1.txsOf c = s.1.txsOf c := by
      intro c hc
      have hne : c ∉ [g] := fun hcg => hg (mem_singleton.mp hcg ▸ hc)
      rw [txsOf, hstep.groups, if_neg hne]
      rfl
    have hrest := ih hnodup (removeFromGroup cfg committed s g)
    have hleft : ∀ c ∈ gs, leftOf cfg committed (removeFromGroup cfg committed s g).1 c =
        leftOf cfg committed s.1 c := fun c hc => by rw [leftOf, hsame c hc]; rfl
    rw [flatMap_congr hsame, flatMap_congr hleft] at hrest
    have hlength := (filter_append_perm (fun mt => committed mt.rawTransaction)
      (s.1.txsOf g)).length_eq
    have hperm := (removeTxsOfGroup_perm hH committed (s.1.txsOf g)).length_eq
    have hsize : (removeFromGroup cfg committed s g).1.size =
        s.1.size - ((s.1.txsOf g).filter fun mt => committed mt.rawTransaction).length := by
      show (if (leftOf cfg committed s.1 g).isEmpty then (_, _) else (_, _) : Mempool × _).1.size = _
      split <;> rfl
    rw [foldl_cons, flatMap_cons, flatMap_cons, length_append,
      length_append]
    rw [length_append] at hlength
    have : (leftOf cfg committed s.1 g).length = _ := hperm
    omega

end Mempool

end ThetaSubchain
