/-
The TFuel of a state.

Every function of the ledger that moves TFuel writes single accounts, and writing an account
changes the sum over all addresses by what that one account gains.
-/
import ThetaSubchain.Ledger.Execution
import Mathlib.Algebra.BigOperators.Ring.Finset
import Mathlib.Data.FinEnum

namespace ThetaSubchain

namespace StoreView

variable {sv sv' : StoreView}

noncomputable def totalTFuel (sv : StoreView) : Int := ∑ a : Address, sv.getBalance a

theorem getBalance_of_some {addr : Address} {acc : Account} (h : sv.getAccount addr = some acc) :
    sv.getBalance addr = acc.tfuelWei := by
  rw [getBalance, getOrCreateAccount, h]
  rfl

theorem totalTFuel_of_one {addr : Address} (h : ∀ a, a ≠ addr → sv'.getBalance a = sv.getBalance a) :
    sv'.totalTFuel = sv.totalTFuel + (sv'.getBalance addr - sv.getBalance addr) := by
  unfold totalTFuel
  rw [← Finset.add_sum_erase Finset.univ sv'.getBalance (Finset.mem_univ addr),
    ← Finset.add_sum_erase Finset.univ sv.getBalance (Finset.mem_univ addr)]
  have hrest : ∑ a ∈ Finset.univ.erase addr, sv'.getBalance a =
      ∑ a ∈ Finset.univ.erase addr, sv.getBalance a :=
    Finset.sum_congr rfl fun a ha => h a (Finset.ne_of_mem_erase ha)
  rw [hrest]
  ring

theorem totalTFuel_setAccount (sv : StoreView) (addr : Address) (acc : Account) :
    (sv.setAccount addr acc).totalTFuel = sv.totalTFuel + (acc.tfuelWei - sv.getBalance addr) := by
  have hother : ∀ a, a ≠ addr → (sv.setAccount addr acc).getBalance a = sv.getBalance a :=
    fun a ha => getBalance_of_getAccount ((getAccount_setAccount ..).trans (if_neg ha))
  have hown : (sv.setAccount addr acc).getBalance addr = acc.tfuelWei :=
    getBalance_of_some ((getAccount_setAccount ..).trans (if_pos rfl))
  rw [totalTFuel_of_one hother, hown]

end StoreView

/-! ## The theta library

What the executors rely on: `ValidateBasic` refuses negative coins, and an account without
Theta generates no TFuel, so that `UpdateToHeight` only notes the height. -/

structure TxLibrary.Lawful (lib : TxLibrary) : Prop where
  validateInput : ∀ i, (lib.validateInput i).isError = false → i.coins.isNonnegative
  validateOutput : ∀ o, (lib.validateOutput o).isError = false → o.coins.isNonnegative
  updateToHeight : ∀ height acc, acc.thetaWei = 0 →
    ∃ updated, lib.updateToHeight height acc = { acc with lastUpdatedBlockHeight := updated }

def strictTxLibrary : TxLibrary :=
  { plainTxLibrary with
    validateInput := fun i => if i.coins.isNonnegative then .ok else .error "Invalid coins: %v"
    validateOutput := fun o => if o.coins.isNonnegative then .ok else .error "Invalid coins: %v" }

theorem lawful_strictTxLibrary : strictTxLibrary.Lawful where
  validateInput := by
    intro i h
    by_contra hneg
    simp [strictTxLibrary, hneg, Result.isError] at h
  validateOutput := by
    intro o h
    by_contra hneg
    simp [strictTxLibrary, hneg, Result.isError] at h
  updateToHeight := fun height acc _ => ⟨height, rfl⟩

def StoreView.NoTheta (sv : StoreView) : Prop :=
  ∀ addr acc, sv.getAccount addr = some acc → acc.thetaWei = 0

end ThetaSubchain
