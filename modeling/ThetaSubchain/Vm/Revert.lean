/-
What a revert of the machine restores.

The logs and the balance changes are lists beside the trie that only grow, so a failed frame is
undone as a whole exactly if it recorded nothing.
-/
import ThetaSubchain.Vm.Runs
import ThetaSubchain.Lib.Rollback

namespace ThetaSubchain.Vm

open Ending Rollback StoreView List
open StoreView (tfuelChange)

namespace Event

def mark : Event → Option Nat
  | .reverted n _ _ => some n
  | _ => none

def logs : Event → List Log
  | .log l => [l]
  | _ => []

def nonzero (amount : Int) (changes : List BalanceChange) : List BalanceChange :=
  if amount = 0 then [] else changes

def changes : Event → List BalanceChange
  | .transfer sender recipient amount =>
    nonzero amount [tfuelChange sender true amount, tfuelChange recipient false amount]
  | .mint recipient amount => nonzero amount [tfuelChange recipient false amount]
  | .burn account amount => nonzero amount [tfuelChange account true amount]
  | .selfdestruct account beneficiary balance taken =>
    nonzero balance [tfuelChange beneficiary false balance] ++
      (taken.map fun d => tfuelChange account true d).toList
  | _ => []

/-- No log is written, no TFuel is moved, minted or burnt, and no account is destroyed. -/
def Quiet : Event → Prop
  | .log _ => False
  | .transfer _ _ amount => amount = 0
  | .mint _ amount => amount = 0
  | .burn _ amount => amount = 0
  | .selfdestruct _ _ balance taken => balance = 0 ∧ taken = none
  | .precompile _ => True
  | .install _ _ => True
  | .reverted _ _ _ => True

theorem quiet_iff (e : Event) : e.Quiet ↔ e.logs = [] ∧ e.changes = [] := by
  cases e with
  | selfdestruct _ _ _ taken => cases taken <;> simp [Quiet, logs, changes, nonzero]
  | _ => simp [Quiet, logs, changes, nonzero]

/-- After a revert, the content, the logs and the balance changes are those of the
snapshot. -/
def Restored : Event → Prop
  | .reverted _ before after =>
    after.store = before.store ∧ after.logs = before.logs ∧
      after.balanceChanges = before.balanceChanges
  | _ => True

/-- What a revert leaves: the content of the snapshot, and all that was recorded since. -/
def Describes (inner : List Event) : Event → Prop
  | .reverted _ before after =>
    after.store = before.store ∧ after.logs = before.logs ++ collect logs inner ∧
      after.balanceChanges = before.balanceChanges ++ collect changes inner
  | _ => True

theorem restored_iff {inner : List Event} {e : Event} {n : Nat} (hmark : e.mark = some n)
    (h : e.Describes inner) : e.Restored ↔ ∀ e' ∈ inner, e'.Quiet := by
  cases e with
  | reverted n before after =>
    obtain ⟨hstore, hlogs, hchanges⟩ := h
    have hquiet : (∀ e' ∈ inner, e'.Quiet) ↔
        collect logs inner = [] ∧ collect changes inner = [] := by
      rw [collect_eq_nil, collect_eq_nil]
      simp only [quiet_iff]
      exact ⟨fun h => ⟨fun e he => (h e he).1, fun e he => (h e he).2⟩,
        fun h e he => ⟨h.1 e he, h.2 e he⟩⟩
    rw [Restored, hquiet, hlogs, hchanges]
    simp [hstore]
  | _ => cases hmark

end Event

def RevertsRestore : List Event → Prop := OnMarks Event.mark fun _ e => e.Restored

def QuietReverts : List Event → Prop := OnMarks Event.mark fun inner _ => ∀ e ∈ inner, e.Quiet

def Described : List Event → Prop := OnMarks Event.mark fun inner e => e.Describes inner

theorem revertsRestore_iff {trace : List Event} (h : Described trace) :
    RevertsRestore trace ↔ QuietReverts trace :=
  OnMarks.congr h fun _ _ _ => Event.restored_iff

theorem collect_survivors_of_quiet {β : Type} {g : Event → List β}
    (hg : ∀ e : Event, e.Quiet → g e = []) {trace : List Event} (h : QuietReverts trace) :
    collect g (survivors Event.mark 0 trace) = collect g trace := by
  apply collect_survivors
  · intro e n he
    cases e with
    | reverted => exact hg _ trivial
    | _ => cases he
  · exact (h.congr fun _ _ _ _ hq => iff_of_true (fun e he => hg e (hq e he)) hq).mpr h

section Views

variable {sv sv' : StoreView} {addr : Address} {isNegative : Bool} {amount : Int}

theorem records_moved (h : sv.Moved addr isNegative amount sv') :
    sv'.logs = sv.logs ∧
      sv'.balanceChanges =
        sv.balanceChanges ++ Event.nonzero amount [tfuelChange addr isNegative amount] := by
  obtain ⟨hzero, rfl⟩ | ⟨hne, -, rfl⟩ := h
  · simp [Event.nonzero, hzero]
  · simp [Event.nonzero, hne, addBalanceChange, setAccount]

theorem records_createAccount (sv : StoreView) (addr : Address) :
    (sv.createAccountWithPreviousBalance addr).logs = sv.logs ∧
      (sv.createAccountWithPreviousBalance addr).balanceChanges = sv.balanceChanges := by
  rw [createAccount_eq]
  exact ⟨rfl, rfl⟩

theorem records_suicide (sv : StoreView) (addr : Address) :
    (sv.suicide addr).logs = sv.logs ∧
      (sv.suicide addr).balanceChanges = sv.balanceChanges ++
        (((sv.getAccount addr).map Account.tfuelWei).map fun d => tfuelChange addr true d).toList := by
  unfold suicide
  cases sv.getAccount addr with
  | none => simp
  | some acc => exact ⟨rfl, rfl⟩

end Views

/-- From `s` to `m` the view has recorded just what the new events of the trace say. -/
def Recorded (s m : Evm) : Prop :=
  ∃ evs, m.trace = evs ++ s.trace ∧
    m.stateDB.logs = s.stateDB.logs ++ collect Event.logs evs ∧
    m.stateDB.balanceChanges = s.stateDB.balanceChanges ++ collect Event.changes evs ∧
    (Described s.trace → Described m.trace)

namespace Recorded

theorem refl (m : Evm) : Recorded m m := ⟨[], by simp⟩

theorem trans {a b c : Evm} (h₁ : Recorded a b) (h₂ : Recorded b c) : Recorded a c := by
  obtain ⟨es, ht, hl, hb, hd⟩ := h₁
  obtain ⟨fs, ht', hl', hb', hd'⟩ := h₂
  refine ⟨fs ++ es, ?_, ?_, ?_, fun h => hd' (hd h)⟩
  · rw [ht', ht, append_assoc]
  · rw [hl', hl, collect_append, append_assoc]
  · rw [hb', hb, collect_append, append_assoc]

variable {s m : Evm}

theorem of_eq (ht : m.trace = s.trace) (hl : m.stateDB.logs = s.stateDB.logs)
    (hb : m.stateDB.balanceChanges = s.stateDB.balanceChanges) : Recorded s m :=
  ⟨[], by simp [ht, hl, hb]⟩

theorem of_event {e : Event} (ht : m.trace = e :: s.trace) (hmark : e.mark = none)
    (hl : m.stateDB.logs = s.stateDB.logs ++ e.logs)
    (hb : m.stateDB.balanceChanges = s.stateDB.balanceChanges ++ e.changes) : Recorded s m := by
  refine ⟨[e], ht, by simpa using hl, by simpa using hb, fun hd => ?_⟩
  rw [ht]
  exact hd.cons_of_none hmark

theorem revert (h : Recorded s m) : Recorded s (s.revert m) := by
  obtain ⟨evs, ht, hl, hb, hd⟩ := h
  have htake : m.trace.take (m.trace.length - s.trace.length) = evs := by
    rw [ht, length_append, Nat.add_sub_cancel, take_left]
  refine ⟨.reverted (m.trace.length - s.trace.length) s.stateDB
    (m.stateDB.revertToSnapshot s.stateDB.snapshot) :: evs, ?_, ?_, ?_, ?_⟩
  · rw [cons_append, ← ht]
    rfl
  · rw [collect_cons]
    exact hl.trans (by simp [Event.logs])
  · rw [collect_cons]
    exact hb.trans (by simp [Event.changes])
  · intro hs
    refine ⟨?_, hd hs⟩
    intro n hn
    cases hn
    show Event.Describes (m.trace.take (m.trace.length - s.trace.length)) _
    rw [htake]
    exact ⟨rfl, hl, hb⟩

theorem precompile {env : Env} {p : Precompile} {m m' : Evm} {input ret : Bytes}
    {callerAddr : Address} {err : Option VmError}
    (h : p.run env m input callerAddr = some (m', ret, err)) : Recorded m m' := by
  obtain rfl | ⟨-, -, recipient, amount, v, -, hv, rfl⟩ | ⟨-, amount, v, -, hv, rfl⟩ :=
    precompile_run_eq_some h
  · exact refl _
  · obtain ⟨hl, hb⟩ := records_moved hv
    exact of_event rfl rfl (hl.trans (append_nil _).symm) hb
  · obtain ⟨hl, hb⟩ := records_moved hv
    exact of_event rfl rfl (hl.trans (append_nil _).symm) hb

theorem runs {env : Env} {m m' : Evm} (h : Runs env m m') : Recorded m m' := by
  induction h with
  | refl => exact refl _
  | trans _ _ ih₁ ih₂ => exact ih₁.trans ih₂
  | quiet => exact of_eq rfl rfl rfl
  | openAccount m addr =>
    obtain ⟨hl, hb⟩ := records_createAccount m.stateDB addr
    exact of_eq (m := m.setView _) rfl hl hb
  | setNonce => exact of_eq rfl rfl rfl
  | setCode => exact of_event rfl rfl (append_nil _).symm (append_nil _).symm
  | setState => exact of_eq rfl rfl rfl
  | log m l => exact of_event rfl rfl rfl (append_nil _).symm
  | transfer m m' sender recipient amount h =>
    obtain ⟨v, w, hv, hw, rfl⟩ := transfer_eq_some h
    obtain ⟨hl, hb⟩ := records_moved hv
    obtain ⟨hl', hb'⟩ := records_moved hw
    apply of_event rfl rfl
    · exact (hl'.trans hl).trans (append_nil _).symm
    · refine hb'.trans ?_
      rw [hb, append_assoc]
      congr 1
      by_cases hzero : amount = 0 <;> simp [Event.changes, Event.nonzero, hzero]
  | suicide m m' self beneficiary h =>
    obtain ⟨v, hv, rfl⟩ := suicide_eq_some h
    obtain ⟨hl, hb⟩ := records_moved hv
    obtain ⟨hl', hb'⟩ := records_suicide v self
    apply of_event rfl rfl
    · exact (hl'.trans hl).trans (append_nil _).symm
    · exact hb'.trans (by rw [hb, append_assoc]; rfl)
  | precompile m m' c p input ret err hc hp h =>
    exact (precompile h).trans
      (of_event rfl rfl (append_nil _).symm (append_nil _).symm)
  | reverted start m _ ih => exact ih.revert

end Recorded

end ThetaSubchain.Vm
