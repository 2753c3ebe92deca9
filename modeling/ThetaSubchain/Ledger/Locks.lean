/-
The locks of the mempool and of the ledger (ledger/ledger.go, mempool/mempool.go).

`InsertTransaction` and `ProposeBlockTxs` take the lock of the mempool and then that of the ledger,
`ApplyBlockTxs`, `ResetState` and `FinalizeState` take that of the ledger alone.  The update of the
mempool that `ApplyBlockTxs` starts screens under the lock of the mempool alone.
-/
import ThetaSubchain.Core.Types

namespace ThetaSubchain.Locks

open List

inductive Part where
  | parentBlock | delivered | checked | screened | finalized
deriving DecidableEq

inductive Action where
  | lockMempool | unlockMempool
  | lock | unlock | rLock | rUnlock
  | screen | screened
  | write (part : Part)
  | goUpdate (queued : Nat)
deriving DecidableEq

open ThetaSubchain.Locks.Action

inductive Operation where
  /-- Without a screening if the transaction was seen, cannot be decoded or is skipped. -/
  | insertTransaction (screens : Bool)
  | proposeBlockTxs (txs : Nat)
  | applyBlockTxs (txs queued : Nat)
  /-- A transaction fails or the root does not match; the state is reset. -/
  | applyBlockTxsFailed (txs made : Nat)
  | resetState (made : Nat)
  | finalizeState (found : Bool)
  | updateUnsafe (queued : Nat)

def resetParts (made : Nat) : List Part :=
  [Part.parentBlock, .delivered, .checked, .screened].take made

def Operation.writes : Operation → List Part
  | insertTransaction _ | updateUnsafe _ => []
  | proposeBlockTxs txs => replicate txs .checked
  | applyBlockTxs txs _ => replicate txs .delivered ++ [.delivered, .checked, .screened]
  | applyBlockTxsFailed txs made => replicate txs .delivered ++ resetParts made
  | resetState made => resetParts made
  | finalizeState found => if found then [.finalized] else []

def Operation.actions (op : Operation) : List Action :=
  match op with
  | insertTransaction false => [lockMempool, unlockMempool]
  | insertTransaction true => [lockMempool, rLock, screen, screened, rUnlock, unlockMempool]
  | proposeBlockTxs _ => [lockMempool, lock] ++ op.writes.map write ++ [unlock, unlockMempool]
  | applyBlockTxs _ queued => [lock] ++ op.writes.map write ++ [goUpdate queued, unlock]
  | applyBlockTxsFailed .. | resetState _ | finalizeState _ =>
    [lock] ++ op.writes.map write ++ [unlock]
  | updateUnsafe queued =>
    [lockMempool] ++ (replicate queued [screen, screened]).flatten ++ [unlockMempool]

/-- What a goroutine holds, and whether it is in a screening call: `screening` with the read lock
of the ledger, `updating` without. -/
inductive Phase where
  | idle | pool | reading | screening | updating | writing | poolWriting
deriving DecidableEq

namespace Phase

def mempool (p : Phase) : Bool := p != idle && p != writing

def reads (p : Phase) : Bool := p == reading || p == screening

def writes (p : Phase) : Bool := p == writing || p == poolWriting

def screens (p : Phase) : Bool := p == screening || p == updating

def apart (p q : Phase) : Bool :=
  !(p.mempool && q.mempool) && !(p.writes && (q.writes || q.reads)) && !(p.reads && q.writes)

end Phase

open Phase

/-- `none` if a lock is released that is not held. -/
def Action.next : Action → Phase → Option Phase
  | lockMempool, idle => pool
  | unlockMempool, pool => idle
  | lock, idle => writing
  | lock, pool => poolWriting
  | unlock, writing => idle
  | unlock, poolWriting => pool
  | rLock, pool => reading
  | rUnlock, reading => pool
  | screen, reading => screening
  | screened, screening => reading
  | screen, pool => updating
  | screened, updating => pool
  | write _, writing | goUpdate _, writing => writing
  | write _, poolWriting => poolWriting
  | _, _ => none

def Action.waitsFor : Action → Phase → Bool
  | lockMempool, q => q.mempool
  | lock, q => q.writes || q.reads
  | rLock, q => q.writes
  | _, _ => false

structure Goroutine where
  phase : Phase
  rest : List Action
deriving DecidableEq

def Operation.start (op : Operation) : Goroutine := ⟨.idle, op.actions⟩

def started : Action → List Goroutine
  | goUpdate queued => [(Operation.updateUnsafe queued).start]
  | _ => []

def step (s : List Goroutine) (i : Nat) : Option (List Goroutine) := do
  let g ← s[i]?
  let a ← g.rest.head?
  if s.any fun g' => a.waitsFor g'.phase then none
  else return s.set i ⟨← a.next g.phase, g.rest.tail⟩ ++ started a

def run (ops : List Operation) (schedule : List Nat) : Option (List Goroutine) :=
  schedule.foldlM step (ops.map Operation.start)

def orderly : Phase → List Action → Bool
  | p, [] => p == idle
  | p, a :: rest => (a.next p).any fun q => orderly q rest

theorem orderly_write {p : Phase} (hp : p.writes = true) (parts : List Part) (rest : List Action) :
    orderly p (parts.map write ++ rest) = orderly p rest := by
  induction parts with
  | nil => rfl
  | cons part parts ih =>
    rw [map_cons, cons_append, orderly, ← ih]
    cases p <;> cases hp <;> rfl

theorem orderly_screen (queued : Nat) (rest : List Action) :
    orderly pool ((replicate queued [screen, screened]).flatten ++ rest) = orderly pool rest := by
  induction queued with
  | zero => rfl
  | succ queued ih => exact ih

def Goroutine.Orderly (g : Goroutine) : Prop := orderly g.phase g.rest = true

theorem orderly_start (op : Operation) : op.start.Orderly := by
  cases op with
  | insertTransaction screens => cases screens <;> rfl
  | proposeBlockTxs txs => exact orderly_write (p := poolWriting) rfl _ _
  | updateUnsafe queued => exact orderly_screen queued _
  | _ => exact orderly_write (p := writing) rfl _ _

variable {a : Action} {p p' q : Phase} {g : Goroutine} {s s' : List Goroutine}

theorem Goroutine.Orderly.next (h : g.Orderly) (ha : g.rest.head? = some a) :
    ∃ p rest, g.rest = a :: rest ∧ a.next g.phase = some p ∧ orderly p rest = true := by
  obtain ⟨rest, hrest⟩ := head?_eq_some_iff.mp ha
  rw [Goroutine.Orderly, hrest, orderly, Option.any_eq_true] at h
  obtain ⟨p, hp, hlater⟩ := h
  exact ⟨p, rest, hrest, hp, hlater⟩

theorem apart_comm : p.apart q = q.apart p := by
  cases p <;> cases q <;> rfl

theorem apart_next (h : a.next p = some p') (hpq : p.apart q = true)
    (hfree : a.waitsFor q = false) : p'.apart q = true := by
  cases a <;> cases p <;> cases h <;> cases q <;> cases hpq <;> cases hfree <;> rfl

theorem of_mem_started (h : g ∈ started a) : g.phase = idle ∧ g.Orderly := by
  cases a with
  | goUpdate queued =>
    obtain rfl := mem_singleton.mp h
    exact ⟨rfl, orderly_start _⟩
  | _ => cases h

theorem step_eq_some {i : Nat} (h : step s i = some s') :
    ∃ l g r a p, s = l ++ g :: r ∧ g.rest.head? = some a ∧ a.next g.phase = some p ∧
      (∀ g' ∈ s, a.waitsFor g'.phase = false) ∧
      s' = l ++ ⟨p, g.rest.tail⟩ :: (r ++ started a) := by
  obtain ⟨g, hg, h⟩ := Option.bind_eq_some_iff.mp h
  obtain ⟨a, ha, h⟩ := Option.bind_eq_some_iff.mp h
  split at h
  · cases h
  next hfree =>
    obtain ⟨p, hp, h⟩ := Option.bind_eq_some_iff.mp h
    cases h
    obtain ⟨hi, rfl⟩ := List.getElem?_eq_some_iff.mp hg
    obtain ⟨l, r, hs, -, hset⟩ := exists_of_set hi
    refine ⟨l, s[i], r, a, p, hs, ha, hp, by simpa using hfree, ?_⟩
    rw [hset, append_assoc, cons_append]

structure Excluded (s : List Goroutine) : Prop where
  inOrder : ∀ g ∈ s, g.Orderly
  apart : s.Pairwise fun g g' => g.phase.apart g'.phase = true

theorem Excluded.step {i : Nat} (h : Excluded s) (hstep : Locks.step s i = some s') :
    Excluded s' := by
  obtain ⟨l, g, r, a, p, rfl, ha, hp, hfree, rfl⟩ := step_eq_some hstep
  obtain ⟨p₁, rest, hrest, hp₁, hlater⟩ := (h.inOrder g (by simp)).next ha
  obtain rfl := Option.some.inj (hp₁.symm.trans hp)
  have hcomm : ∀ {g g' : Goroutine}, g.phase.apart g'.phase = true → g'.phase.apart g.phase = true :=
    fun h => apart_comm.trans h
  have hidle : ∀ g ∈ started a, ∀ p : Phase, p.apart g.phase = true := by
    intro g hg p
    rw [(of_mem_started hg).1]
    cases p <;> rfl
  obtain ⟨hothers, hold⟩ := pairwise_cons.mp ((pairwise_middle hcomm).mp h.apart)
  refine ⟨fun g' hg' => ?_, ?_⟩
  · simp only [mem_append, mem_cons] at hg'
    rcases hg' with hl | rfl | hr | hnew
    · exact h.inOrder g' (by simp [hl])
    · rwa [Goroutine.Orderly, hrest]
    · exact h.inOrder g' (by simp [hr])
    · exact (of_mem_started hnew).2
  · rw [pairwise_middle hcomm, pairwise_cons, ← append_assoc, pairwise_append]
    refine ⟨fun g' hg' => ?_, hold, ?_, fun g' _ g'' hnew => hidle g'' hnew _⟩
    · rcases mem_append.mp hg' with hg' | hnew
      · refine apart_next hp (hothers g' hg') (hfree g' ?_)
        simp only [mem_append, mem_cons] at hg' ⊢
        tauto
      · exact hidle g' hnew p₁
    · cases a <;> simp [started]

theorem excluded_run {ops : List Operation} {schedule : List Nat}
    (h : run ops schedule = some s) : Excluded s := by
  have hstart : Excluded (ops.map Operation.start) := by
    refine ⟨fun g hg => ?_, pairwise_map.mpr (pairwise_of_forall fun _ _ => rfl)⟩
    obtain ⟨op, -, rfl⟩ := mem_map.mp hg
    exact orderly_start op
  unfold run at h
  generalize ops.map Operation.start = s₀ at h hstart
  induction schedule generalizing s₀ with
  | nil =>
    cases h
    exact hstart
  | cons i schedule ih =>
    obtain ⟨s₁, hstep, h⟩ := Option.bind_eq_some_iff.mp h
    exact ih s₁ h (hstart.step hstep)

/-- Screening executes a transaction on the screened view. -/
def Action.modifies : Action → Bool
  | write _ | screen => true
  | _ => false

/-- The second is about to change what the first reads in a screening call. -/
def interferes (g g' : Goroutine) : Bool := g.phase.screens && g'.rest.head?.any Action.modifies

abbrev Isolated (s : List Goroutine) : Prop :=
  s.Pairwise fun g g' => interferes g g' = false ∧ interferes g' g = false

abbrev UpdatesApart (s : List Goroutine) : Prop :=
  ∀ g ∈ s, ∀ g' ∈ s, g.phase = updating → g'.phase ≠ writing

theorem updating_of_modifies (hp : p.screens = true) (ha : a.modifies = true)
    (hq : a.next q = some p') (hapart : p.apart q = true) : p = updating ∧ q = writing := by
  cases a <;> cases ha <;> cases p <;> cases hp <;> cases q <;> cases hq <;> cases hapart
  exact ⟨rfl, rfl⟩

theorem interferes_eq_false {g' : Goroutine} (h' : g'.Orderly)
    (hapart : g.phase.apart g'.phase = true)
    (hupdates : g.phase = updating → g'.phase ≠ writing) : interferes g g' = false := by
  refine Bool.eq_false_iff.mpr fun h => ?_
  obtain ⟨hscreens, hhead⟩ := Bool.and_eq_true_iff.mp h
  obtain ⟨a, ha, hmodifies⟩ := (Option.any_eq_true ..).mp hhead
  obtain ⟨_, _, -, hnext, -⟩ := h'.next ha
  obtain ⟨hg, hg'⟩ := updating_of_modifies hscreens hmodifies hnext hapart
  exact hupdates hg hg'

theorem Excluded.isolated (h : Excluded s) (hupdates : UpdatesApart s) : Isolated s := by
  refine h.apart.imp_of_mem fun {g g'} hg hg' hapart => ⟨?_, ?_⟩
  · exact interferes_eq_false (h.inOrder g' hg') hapart (hupdates g hg g' hg')
  · exact interferes_eq_false (h.inOrder g hg) (apart_comm.trans hapart) (hupdates g' hg' g hg)

/-- A writer that waits keeps new readers out. -/
def CanMove (s : List Goroutine) (i : Nat) : Prop :=
  (step s i).isSome = true ∧ ∀ g, s[i]? = some g → g.rest.head? = some rLock →
    ∀ g' ∈ s, g'.rest.head? ≠ some lock

theorem exists_canMove (hg : g ∈ s) (h : g.Orderly) (ha : g.rest.head? = some a)
    (hwaits : ∀ g' ∈ s, a.waitsFor g'.phase = false)
    (hreads : a = rLock → ∀ g' ∈ s, g'.rest.head? ≠ some lock) : ∃ i, CanMove s i := by
  obtain ⟨i, hi⟩ := mem_iff_getElem?.mp hg
  obtain ⟨p, rest, -, hp, -⟩ := h.next ha
  refine ⟨i, ?_, fun g₁ hg₁ hread => ?_⟩
  · simpa [step, hi, ha, hp] using hwaits
  · obtain rfl := Option.some.inj (hg₁.symm.trans hi)
    exact hreads (Option.some.inj (ha.symm.trans hread))

def Action.takes (a : Action) : Bool := a == lockMempool || a == lock || a == rLock

theorem waitsFor_of_not_takes (h : a.takes = false) : a.waitsFor q = false := by
  cases a <;> cases h <;> rfl

/-- If every goroutine is about to take a lock, nobody holds that of the ledger. -/
theorem phase_of_takes (h : g.Orderly) (htakes : ∀ a, g.rest.head? = some a → a.takes = true) :
    g.phase = idle ∨
      g.phase = pool ∧ (g.rest.head? = some lock ∨ g.rest.head? = some rLock) := by
  cases hhead : g.rest.head? with
  | none =>
    rw [Goroutine.Orderly, head?_eq_none_iff.mp hhead] at h
    exact .inl (beq_iff_eq.mp h)
  | some a =>
    obtain ⟨p, -, -, hp, -⟩ := h.next hhead
    have ha := htakes a hhead
    generalize g.phase = q at hp ⊢
    cases a <;> cases ha <;> cases q <;> cases hp <;> simp

theorem exists_step (h : ∀ g ∈ s, g.Orderly) (hg : g ∈ s) (hrest : g.rest ≠ []) :
    ∃ i, CanMove s i := by
  by_cases hfree : ∃ g ∈ s, ∃ a, g.rest.head? = some a ∧ a.takes = false
  · obtain ⟨g, hg, a, ha, htakes⟩ := hfree
    refine exists_canMove hg (h g hg) ha (fun g' _ => waitsFor_of_not_takes htakes) ?_
    rintro rfl
    cases htakes
  have htakes : ∀ g ∈ s, ∀ a, g.rest.head? = some a → a.takes = true := by
    simpa using hfree
  have hphase := fun g hg => phase_of_takes (h g hg) (htakes g hg)
  have hledger : ∀ g ∈ s, g.phase.writes = false ∧ g.phase.reads = false := by
    intro g hg
    rcases hphase g hg with heq | ⟨heq, -⟩ <;> rw [heq] <;> exact ⟨rfl, rfl⟩
  by_cases hlock : ∃ g ∈ s, g.rest.head? = some lock
  · obtain ⟨g, hg, ha⟩ := hlock
    refine exists_canMove hg (h g hg) ha (fun g' hg' => ?_) (by simp)
    simp [Action.waitsFor, hledger g' hg']
  have hnoLock : ∀ g ∈ s, g.rest.head? ≠ some lock := by simpa using hlock
  by_cases hread : ∃ g ∈ s, g.rest.head? = some rLock
  · obtain ⟨g, hg, ha⟩ := hread
    exact exists_canMove hg (h g hg) ha (fun g' hg' => (hledger g' hg').1) fun _ => hnoLock
  -- Only the lock of the mempool is wanted, and it is free.
  obtain ⟨a, rest, hrest⟩ := exists_cons_of_ne_nil hrest
  have ha : g.rest.head? = some a := by rw [hrest, head?_cons]
  have hidle : ∀ g ∈ s, g.phase = idle := fun g hg =>
    (hphase g hg).resolve_right fun hpool =>
      hpool.2.elim (hnoLock g hg) fun hr => hread ⟨g, hg, hr⟩
  refine exists_canMove hg (h g hg) ha (fun g' hg' => ?_) fun heq => ?_
  · rw [hidle g' hg']
    cases a <;> rfl
  · exact absurd ⟨g, hg, heq ▸ ha⟩ hread

/-- Nothing that a screening call reads is changed during the call, unless an update screens while
`ApplyBlockTxs`, `ResetState` or `FinalizeState` holds the lock of the ledger.  As long as some
goroutine is not done, one of them can go on. -/
theorem isolated_unless_updating {ops : List Operation} {schedule : List Nat}
    (h : run ops schedule = some s) :
    (UpdatesApart s → Isolated s) ∧ ((∃ g ∈ s, g.rest ≠ []) → ∃ i, CanMove s i) := by
  have hexcluded := excluded_run h
  refine ⟨hexcluded.isolated, ?_⟩
  rintro ⟨g, hg, hrest⟩
  exact exists_step hexcluded.inOrder hg hrest

/-- A transaction is screened while a block waits to be applied. -/
theorem isolated_unless_updating_insert :
    ∃ s, run [.insertTransaction true, .applyBlockTxs 1 1] [0, 0, 0] = some s ∧
      Isolated s ∧ ∃ i, CanMove s i := by
  refine ⟨_, rfl, ?_⟩
  obtain ⟨hisolated, hmove⟩ := isolated_unless_updating
    (show run [.insertTransaction true, .applyBlockTxs 1 1] [0, 0, 0] = some _ from rfl)
  exact ⟨hisolated (by decide), hmove (by decide)⟩

/-- The update of the first block screens while the state is reset for another one. -/
theorem reset_during_screening :
    (run [.applyBlockTxs 1 1, .resetState 4] [0, 0, 0, 0, 0, 0, 0, 2, 2, 1]).map
      (fun s => (s.map Goroutine.phase, (s[1]?.bind fun g => g.rest.head?), decide (Isolated s))) =
    some ([idle, writing, updating], some (write .parentBlock), false) := by
  decide

end ThetaSubchain.Locks
