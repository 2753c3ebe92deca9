/-
The record of seen transactions over all its calls (mempool/tx_bookkeeper.go).

The list is what is left of the records made since the last reset.  A record goes when it is
outdated, or when `maxNumTxs` newer ones are made.
-/
import ThetaSubchain.Mempool.Pool

namespace ThetaSubchain.TransactionBookkeeper

open Function List

/-- The bookkeeper at a time, after any calls, and the new records since the last reset.  A loop
over outdated records may read the clock more than once: the records are in the order of their
times, so the last reading decides. -/
inductive Run (max : Nat) : Int → TransactionBookkeeper → List TxRecord → Prop
  | create (t : Int) : Run max t (create max) []
  | wait {t t' tb log} : Run max t tb log → t ≤ t' → Run max t' tb log
  | record {t t' tb log} (hash : Hash) : Run max t tb log → t ≤ t' →
    Run max t' (tb.record t t' hash).2
      (if (tb.record t t' hash).1 then log ++ [⟨hash, t'⟩] else log)
  | hasSeen {t tb log} (hash : Hash) : Run max t tb log → Run max t (tb.hasSeen t hash).2 log
  | getStatus {t tb log} (hash : Hash) : Run max t tb log → Run max t (tb.getStatus t hash).2 log
  | markAbandoned {t tb log} (hash : Hash) :
    Run max t tb log → Run max t (tb.markAbandoned hash) log
  | reset {t tb log} : Run max t tb log → Run max t tb.reset []

/-- What holds at time `t`, with room for `k` records more. -/
structure Held (max k : Nat) (t : Int) (tb : TransactionBookkeeper) (log : List TxRecord) :
    Prop where
  sorted : log.Pairwise fun r r' => r.createdAt ≤ r'.createdAt
  past : ∀ r ∈ log, r.createdAt ≤ t
  listed : tb.txList <:+ log
  kept : ∀ {r later}, r :: later <:+ log → later.length + k < max → r.isOutdated t = false →
    r :: later <:+ tb.txList
  same : ∀ h, (tb.txMap h).isSome = true ↔ h ∈ tb.txList.map TxRecord.hash
  nodup : (tb.txList.map TxRecord.hash).Nodup
  room : tb.txList.length + k ≤ max
  capacity : tb.maxNumTxs = max

theorem isOutdated_eq_false {r : TxRecord} {now : Int} :
    r.isOutdated now = false ↔ now - r.createdAt ≤ maxTxLife := by
  rw [TxRecord.isOutdated, decide_eq_false_iff_not, Int.not_lt]

namespace Held

variable {max k k' n : Nat} {t t' : Int} {tb : TransactionBookkeeper} {log rs : List TxRecord}
  {txMap : Hash → Option TxStatus} {r : TxRecord}

theorem mono (h : Held max k t tb log) (ht : t ≤ t') : Held max k t' tb log where
  __ := h
  past r hr := (h.past r hr).trans ht
  kept hlog hlen hr := by
    refine h.kept hlog hlen ?_
    rw [isOutdated_eq_false] at hr ⊢
    omega

/-- The oldest record goes, because of its age or to make room. -/
theorem pop (h : Held max k t ⟨txMap, r :: rs, n⟩ log) (hk : k ≤ k') (hroom : rs.length + k' ≤ max)
    (hr : r.isOutdated t = true ∨ max ≤ rs.length + k') :
    Held max k' t ⟨update txMap r.hash none, rs, n⟩ log := by
  obtain ⟨hnew, hnodup⟩ := nodup_cons.1 h.nodup
  refine ⟨h.sorted, h.past, (suffix_cons r rs).trans h.listed, fun hlog hlen hx => ?_,
    fun hash => ?_, hnodup, hroom, h.capacity⟩
  · obtain heq | hrest := suffix_cons_iff.1 (h.kept hlog (by omega) hx)
    · obtain ⟨rfl, rfl⟩ := cons.inj heq
      have hfull := hr.resolve_left (by simp [hx])
      omega
    · exact hrest
  · dsimp only
    by_cases heq : hash = r.hash
    · rw [heq, update_self]
      exact iff_of_false (by simp) hnew
    · rw [update_of_ne heq, h.same hash, map_cons, mem_cons, or_iff_right heq]

theorem push (h : Held max 1 t tb log) {hash : Hash} (hhash : tb.txMap hash = none) (ht : t ≤ t') :
    Held max 0 t' { tb with txMap := update tb.txMap hash (some .pending)
                            txList := tb.txList ++ [⟨hash, t'⟩] } (log ++ [⟨hash, t'⟩]) := by
  have hnew : hash ∉ tb.txList.map TxRecord.hash := by
    rw [← h.same, hhash]
    simp
  have hpast := (h.mono ht).past
  refine ⟨?_, ?_, suffix_append_self_iff.2 h.listed, fun hlog hlen hr => ?_, fun hash' => ?_, ?_,
    ?_, h.capacity⟩
  · refine pairwise_append.2 ⟨h.sorted, pairwise_singleton .., fun r hr r' hr' => ?_⟩
    rw [mem_singleton.1 hr']
    exact hpast r hr
  · intro r hr
    obtain hr | hr := mem_append.1 hr
    · exact hpast r hr
    · rw [mem_singleton.1 hr]
  · obtain hnil | ⟨rest, heq, hrest⟩ := suffix_concat_iff.1 hlog
    · cases hnil
    · rw [heq]
      refine suffix_append_self_iff.2 ?_
      cases rest with
      | nil => exact nil_suffix
      | cons r' rest =>
        obtain ⟨rfl, rfl⟩ := cons.inj (heq.trans (cons_append ..))
        rw [length_append] at hlen
        exact (h.mono ht).kept hrest hlen hr
  · rw [map_append, mem_append, map_singleton, mem_singleton]
    dsimp only
    by_cases heq : hash' = hash
    · rw [heq, update_self]
      exact iff_of_true rfl (.inr rfl)
    · rw [update_of_ne heq, h.same, or_iff_left heq]
  · rw [map_append, map_singleton]
    exact nodup_append_comm.1 (nodup_cons.2 ⟨hnew, h.nodup⟩)
  · rw [length_append]
    exact h.room

/-- What is left is not outdated: the rest of the list is younger than its first record. -/
theorem removeOutdated (h : Held max k t tb log) :
    Held max k t (tb.removeOutdatedTxsUnsafe t) log ∧
      ∀ r ∈ (tb.removeOutdatedTxsUnsafe t).txList, r.isOutdated t = false := by
  obtain ⟨txMap, rs, n⟩ := tb
  unfold removeOutdatedTxsUnsafe
  dsimp only
  induction rs generalizing txMap with
  | nil => exact ⟨h, nofun⟩
  | cons r rs ih =>
    rw [dropOutdated]
    split
    next hold =>
      have hroom := h.room
      rw [length_cons] at hroom
      exact ih _ (h.pop le_rfl (by omega) (.inl hold))
    next hold =>
      refine ⟨h, fun r' hr' => ?_⟩
      rw [Bool.not_eq_true] at hold
      obtain rfl | hr' := mem_cons.1 hr'
      · exact hold
      · have hle := rel_of_pairwise_cons (h.sorted.sublist h.listed.sublist) hr'
        rw [isOutdated_eq_false] at hold ⊢
        omega

theorem record (h : Held max 0 t tb log) (hmax : 1 ≤ max) (ht : t ≤ t') (hash : Hash) :
    Held max 0 t' (tb.record t t' hash).2
      (if (tb.record t t' hash).1 then log ++ [⟨hash, t'⟩] else log) := by
  have hleft := h.removeOutdated.1
  unfold TransactionBookkeeper.record
  generalize tb.removeOutdatedTxsUnsafe t = tb at hleft
  obtain ⟨txMap, rs, n⟩ := tb
  obtain rfl : n = max := hleft.capacity
  have hroom := hleft.room
  dsimp only at hroom ⊢
  by_cases hseen : (txMap hash).isSome = true
  · rw [if_pos hseen]
    exact hleft.mono ht
  · have hhash := Option.not_isSome_iff_eq_none.1 hseen
    rw [if_neg hseen]
    by_cases hfull : n ≤ rs.length
    · cases rs with
      | nil => exact absurd (hmax.trans hfull) (by simp)
      | cons popped rest =>
        have hpopped := hleft.pop (Nat.zero_le 1) hroom (.inr hfull)
        rw [if_pos hfull]
        refine hpopped.push ?_ ht
        show update txMap popped.hash none hash = none
        rw [update_apply, hhash, ite_self]
    · rw [if_neg hfull]
      have hreserved : Held n 1 t ⟨txMap, rs, n⟩ log :=
        { hleft with kept := fun hlog hlen => hleft.kept hlog (by omega)
                     room := Nat.lt_of_not_le hfull }
      exact hreserved.push hhash ht

theorem markAbandoned (h : Held max k t tb log) (hash : Hash) :
    Held max k t (tb.markAbandoned hash) log := by
  unfold TransactionBookkeeper.markAbandoned
  split
  · exact h
  next status hstatus =>
    refine { h with same := fun hash' => ?_ }
    rw [← h.same hash']
    dsimp only
    by_cases heq : hash' = hash
    · rw [heq, update_self, hstatus]
      rfl
    · rw [update_of_ne heq]

theorem create (t : Int) : Held max 0 t (create max) [] where
  sorted := .nil
  past := nofun
  listed := suffix_rfl
  kept hlog := absurd (suffix_nil.1 hlog) (by simp)
  same h := by simp [TransactionBookkeeper.create]
  nodup := .nil
  room := Nat.zero_le max
  capacity := rfl

end Held

variable {max : Nat} {t : Int} {tb : TransactionBookkeeper} {log : List TxRecord}

theorem Run.held (hmax : 1 ≤ max) (h : Run max t tb log) : Held max 0 t tb log := by
  induction h with
  | create t => exact .create t
  | wait _ ht ih => exact ih.mono ht
  | record hash _ ht ih => exact ih.record hmax ht hash
  | hasSeen hash _ ih => exact ih.removeOutdated.1
  | getStatus hash _ ih =>
    obtain ⟨status, hstatus⟩ := getStatus_eq _ hash _
    rw [hstatus]
    exact ih.removeOutdated.1
  | markAbandoned hash _ ih => exact ih.markAbandoned hash
  | reset _ ih =>
    rw [TransactionBookkeeper.reset, ih.capacity]
    exact .create _

/-- The list and the map have the same records, and a hash is seen as long as its record is not
outdated and has fewer than `max` newer ones. -/
theorem seen_iff_recorded {max : Nat} (hmax : 1 ≤ max) {t : Int} {tb : TransactionBookkeeper}
    {log : List TxRecord} (h : Run max t tb log) :
    (∀ hash, (tb.txMap hash).isSome = true ↔ hash ∈ tb.txList.map TxRecord.hash) ∧
      (tb.txList.map TxRecord.hash).Nodup ∧ tb.txList.length ≤ max ∧
      (tb.txList.Pairwise fun r r' => r.createdAt ≤ r'.createdAt) ∧
      ∀ hash, (tb.getStatus t hash).1.2 = (tb.hasSeen t hash).1 ∧
        ((tb.hasSeen t hash).1 = true ↔ ∃ r later, r :: later <:+ log ∧ r.hash = hash ∧
          t - r.createdAt ≤ maxTxLife ∧ later.length < max) := by
  have hheld := h.held hmax
  refine ⟨hheld.same, hheld.nodup, hheld.room, hheld.sorted.sublist hheld.listed.sublist,
    fun hash => ?_⟩
  obtain ⟨status, hstatus⟩ := getStatus_eq t hash tb
  refine ⟨by rw [hstatus], ?_⟩
  obtain ⟨hleft, hyoung⟩ := hheld.removeOutdated
  rw [hasSeen, hleft.same, mem_map]
  constructor
  · rintro ⟨r, hr, rfl⟩
    obtain ⟨newer, later, hlist⟩ := append_of_mem hr
    have hsuffix : r :: later <:+ (tb.removeOutdatedTxsUnsafe t).txList := ⟨newer, hlist.symm⟩
    exact ⟨r, later, hsuffix.trans hleft.listed, rfl, isOutdated_eq_false.1 (hyoung r hr),
      hsuffix.length_le.trans hleft.room⟩
  · rintro ⟨r, later, hlog, rfl, hage, hlater⟩
    exact ⟨r, (hleft.kept hlog hlater (isOutdated_eq_false.2 hage)).mem mem_cons_self, rfl⟩

theorem seen_iff_recorded_two :
    ∃ tb, Run 1 6 tb [⟨1, 0⟩, ⟨2, 6⟩] ∧ (tb.hasSeen 6 2).1 = true := by
  have hstart : Run 1 0 (create 1) [] := .create 0
  have hrun := ((hstart.record 1 le_rfl).wait (show 0 ≤ 5 by decide)).record 2 (show 5 ≤ 6 by decide)
  refine ⟨_, hrun, ?_⟩
  obtain ⟨-, -, -, -, hseen⟩ := seen_iff_recorded le_rfl hrun
  exact (hseen 2).2.2 ⟨⟨2, 6⟩, [], ⟨[⟨1, 0⟩], rfl⟩, rfl, by decide, Nat.zero_lt_one⟩

end ThetaSubchain.TransactionBookkeeper
