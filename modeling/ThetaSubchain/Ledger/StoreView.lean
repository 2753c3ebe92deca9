/-
The ledger state and the view the transactions are executed on
(ledger/state/storeview.go).

A Merkle trie is its content here: one field for each family of keys.  A root hash
names a content, so a snapshot is the content itself.
-/
import ThetaSubchain.Core.Validator

namespace ThetaSubchain

def emptyCodeHash : Hash :=
  0xc5d2460186f7233c927e7db2dcc703c0e500b653ca82273b7bfad8045d85a470

def suicidedCodeHash : Hash :=
  0xdeaddeaddeaddeaddeaddeaddeaddeaddeaddeaddeaddeaddeaddeaddeaddead

/-- `types.Account` as it is stored: the encoding refuses a negative balance.  The
storage of an account with the zero root is `none`. -/
structure Account where
  address : Address
  sequence : UInt64 := 0
  thetaWei : Nat := 0
  tfuelWei : Nat := 0
  lastUpdatedBlockHeight : UInt64 := 0
  storage : Option (Hash → Hash) := none
  codeHash : Hash := emptyCodeHash

namespace Account

def new (addr : Address) : Account := { address := addr }

def slot (acc : Account) (key : Hash) : Hash :=
  match acc.storage with
  | some content => content key
  | none => 0

def balanceIsZero (acc : Account) : Bool := acc.thetaWei == 0 && acc.tfuelWei == 0

end Account

structure Log where
  address : Address
  topics : List Hash
  data : Bytes
deriving DecidableEq, Repr

structure BalanceChange where
  address : Address
  tokenType : Nat
  isNegative : Bool
  delta : Int
deriving DecidableEq, Repr

structure LedgerContent where
  account : Address → Option Account := fun _ => none
  code : Hash → Bytes := fun _ => []
  validatorSet : Option ValidatorSet := none
  validatorSetDuring : Int → Int → Option ValidatorSet := fun _ _ => none
  updateTxHeights : Option (List UInt64) := none
  chainRegistrar : Option Address := none
  tfuelTokenBank : Option Address := none
  tnt20TokenBank : Option Address := none
  tnt721TokenBank : Option Address := none
  tnt1155TokenBank : Option Address := none

structure StoreView where
  height : UInt64
  store : LedgerContent
  coinbaseTransactinProcessed : Bool := false
  subchainValidatorSetTransactinProcessed : Bool := false
  refund : UInt64 := 0
  logs : List Log := []
  balanceChanges : List BalanceChange := []

namespace StoreView

/-- `Copy`: the flags, the refund and the records start afresh. -/
def copy (sv : StoreView) : StoreView := { height := sv.height, store := sv.store }

def incrementHeight (sv : StoreView) : StoreView := { sv with height := sv.height + 1 }

def getAccount (sv : StoreView) (addr : Address) : Option Account := sv.store.account addr

def setAccount (sv : StoreView) (addr : Address) (acc : Account) : StoreView :=
  { sv with
    store := { sv.store with account := Function.update sv.store.account addr (some acc) } }

def getDynasty (sv : StoreView) : Option Int := sv.store.validatorSet.map ValidatorSet.dynasty

def getValidatorSet (sv : StoreView) : Option ValidatorSet := sv.store.validatorSet

def updateValidatorSet (sv : StoreView) (chainID : Int) (vs : ValidatorSet) : StoreView :=
  { sv with
    store :=
      { sv.store with
        validatorSet := some vs
        validatorSetDuring := fun c d =>
          if c = chainID ∧ d = vs.dynasty then some vs else sv.store.validatorSetDuring c d } }

def getValidatorSetForChainDuringDynasty (sv : StoreView) (chainID dynasty : Int) :
    Option ValidatorSet :=
  sv.store.validatorSetDuring chainID dynasty

def getTFuelTokenBankContractAddress (sv : StoreView) : Option Address := sv.store.tfuelTokenBank

def resetLogs (sv : StoreView) : StoreView := { sv with logs := [] }

def resetBalanceChanges (sv : StoreView) : StoreView := { sv with balanceChanges := [] }

/-! ## The interface of the virtual machine

A function that panics in the source returns `none`. -/

def getOrCreateAccount (sv : StoreView) (addr : Address) : Account :=
  (sv.getAccount addr).getD (Account.new addr)

/-- Only the balance of an existing account is kept, its sequence is reset. -/
def createAccountWithPreviousBalance (sv : StoreView) (addr : Address) : StoreView :=
  match sv.getAccount addr with
  | some old =>
    sv.setAccount addr { Account.new addr with thetaWei := old.thetaWei, tfuelWei := old.tfuelWei }
  | none => sv.setAccount addr (Account.new addr)

def addLog (sv : StoreView) (l : Log) : StoreView := { sv with logs := sv.logs ++ [l] }

def addBalanceChange (sv : StoreView) (bc : BalanceChange) : StoreView :=
  { sv with balanceChanges := sv.balanceChanges ++ [bc] }

/-- Writes a TFuel balance back; encoding a negative one panics. -/
def setTFuel (sv : StoreView) (addr : Address) (acc : Account) (balance : Int) : Option StoreView :=
  if 0 ≤ balance then some (sv.setAccount addr { acc with tfuelWei := balance.toNat }) else none

def tfuelChange (addr : Address) (isNegative : Bool) (amount : Int) : BalanceChange :=
  ⟨addr, 1, isNegative, amount⟩

def subBalance (sv : StoreView) (addr : Address) (amount : Int) : Option StoreView :=
  if amount = 0 then some sv
  else
    match sv.getAccount addr with
    | none => none
    | some acc =>
      (sv.setTFuel addr acc (acc.tfuelWei - amount)).map
        (addBalanceChange · (tfuelChange addr true amount))

def addBalance (sv : StoreView) (addr : Address) (amount : Int) : Option StoreView :=
  if amount = 0 then some sv
  else
    let acc := sv.getOrCreateAccount addr
    (sv.setTFuel addr acc (acc.tfuelWei + amount)).map
      (addBalanceChange · (tfuelChange addr false amount))

def getBalance (sv : StoreView) (addr : Address) : Int := (sv.getOrCreateAccount addr).tfuelWei

def getNonce (sv : StoreView) (addr : Address) : UInt64 := (sv.getOrCreateAccount addr).sequence

def setNonce (sv : StoreView) (addr : Address) (nonce : UInt64) : StoreView :=
  sv.setAccount addr { sv.getOrCreateAccount addr with sequence := nonce }

def getCodeHash (sv : StoreView) (addr : Address) : Hash :=
  match sv.getAccount addr with
  | some acc => acc.codeHash
  | none => 0

def getCodeByHash (sv : StoreView) (codeHash : Hash) : Bytes :=
  if codeHash = suicidedCodeHash then [] else sv.store.code codeHash

def getCode (sv : StoreView) (addr : Address) : Bytes :=
  match sv.getAccount addr with
  | none => []
  | some acc =>
    if acc.codeHash = emptyCodeHash ∨ acc.codeHash = suicidedCodeHash then []
    else sv.getCodeByHash acc.codeHash

def setCode (keccak : Bytes → Hash) (sv : StoreView) (addr : Address) (code : Bytes) : StoreView :=
  let acc := { sv.getOrCreateAccount addr with codeHash := keccak code }
  let stored :=
    { sv with store := { sv.store with code := Function.update sv.store.code (keccak code) code } }
  stored.setAccount addr acc

def getCodeSize (sv : StoreView) (addr : Address) : Nat := (sv.getCode addr).length

def addRefund (sv : StoreView) (gas : UInt64) : StoreView := { sv with refund := sv.refund + gas }

def subRefund (sv : StoreView) (gas : UInt64) : Option StoreView :=
  if sv.refund < gas then none else some { sv with refund := sv.refund - gas }

def getBlockHeight (sv : StoreView) : UInt64 := sv.height + 1

def getState (sv : StoreView) (addr : Address) (key : Hash) : Hash :=
  match sv.getAccount addr with
  | some acc => acc.slot key
  | none => 0

def getCommittedState (sv : StoreView) (addr : Address) (key : Hash) : Hash := sv.getState addr key

def setState (sv : StoreView) (addr : Address) (key val : Hash) : StoreView :=
  let acc := sv.getOrCreateAccount addr
  sv.setAccount addr { acc with storage := some (Function.update acc.slot key val) }

/-- Marks the account and takes its TFuel; the balance change is recorded even when
there is no TFuel left to take. -/
def suicide (sv : StoreView) (addr : Address) : StoreView :=
  match sv.getAccount addr with
  | none => sv
  | some acc =>
    (sv.addBalanceChange (tfuelChange addr true acc.tfuelWei)).setAccount addr
      { acc with codeHash := suicidedCodeHash, tfuelWei := 0 }

def hasSuicided (sv : StoreView) (addr : Address) : Bool :=
  match sv.getAccount addr with
  | some acc => acc.codeHash == suicidedCodeHash
  | none => true

def exist (sv : StoreView) (addr : Address) : Bool := (sv.getAccount addr).isSome

def empty (sv : StoreView) (addr : Address) : Bool :=
  match sv.getAccount addr with
  | some acc => acc.sequence == 0 && acc.codeHash == emptyCodeHash && acc.balanceIsZero
  | none => true

/-- `RevertToSnapshot` goes back to the content of an earlier root.  The refund counter,
the logs and the balance changes live outside the trie. -/
def revertToSnapshot (sv : StoreView) (content : LedgerContent) : StoreView :=
  { sv with store := content }

def snapshot (sv : StoreView) : LedgerContent := sv.store

@[simp] theorem getAccount_setAccount (sv : StoreView) (addr a : Address) (acc : Account) :
    (sv.setAccount addr acc).getAccount a = if a = addr then some acc else sv.getAccount a := by
  simp [setAccount, getAccount, Function.update_apply]

variable {sv sv' : StoreView} {addr : Address}

theorem setTFuel_eq_some {acc : Account} {balance : Int}
    (h : sv.setTFuel addr acc balance = some sv') :
    0 ≤ balance ∧ sv' = sv.setAccount addr { acc with tfuelWei := balance.toNat } := by
  unfold setTFuel at h
  split at h
  · next hb => exact ⟨hb, (Option.some.inj h).symm⟩
  · cases h

theorem getOrCreateAccount_of_some {acc : Account} (h : sv.getAccount addr = some acc) :
    sv.getOrCreateAccount addr = acc := by
  rw [getOrCreateAccount, h]
  rfl

theorem createAccount_eq (sv : StoreView) (addr : Address) :
    sv.createAccountWithPreviousBalance addr = sv.setAccount addr { Account.new addr with
      thetaWei := (sv.getOrCreateAccount addr).thetaWei
      tfuelWei := (sv.getOrCreateAccount addr).tfuelWei } := by
  unfold createAccountWithPreviousBalance getOrCreateAccount
  cases sv.getAccount addr with
  | none => rfl
  | some old => rfl

def signed : Bool → Int → Int
  | true, amount => -amount
  | false, amount => amount

/-- What `AddBalance` and `SubBalance` have in common: an amount of zero does nothing, and
another one is taken or given and recorded. -/
def Moved (sv : StoreView) (addr : Address) (isNegative : Bool) (amount : Int)
    (sv' : StoreView) : Prop :=
  amount = 0 ∧ sv' = sv ∨
    amount ≠ 0 ∧ 0 ≤ sv.getBalance addr + signed isNegative amount ∧
      sv' = (sv.setAccount addr { sv.getOrCreateAccount addr with
          tfuelWei := (sv.getBalance addr + signed isNegative amount).toNat }).addBalanceChange
        (tfuelChange addr isNegative amount)

variable {isNegative : Bool} {amount : Int}

theorem Moved.eq_of_zero (h : sv.Moved addr isNegative 0 sv') : sv' = sv := by
  obtain ⟨-, rfl⟩ | ⟨hne, -⟩ := h
  · rfl
  · exact absurd rfl hne

theorem moved_addBalance (h : sv.addBalance addr amount = some sv') :
    sv.Moved addr false amount sv' := by
  unfold addBalance at h
  split at h
  · next hzero => exact .inl ⟨hzero, (Option.some.inj h).symm⟩
  · next hne =>
    obtain ⟨v, hv, hsv⟩ := Option.map_eq_some_iff.mp h
    obtain ⟨hnonneg, rfl⟩ := setTFuel_eq_some hv
    exact .inr ⟨hne, hnonneg, hsv.symm⟩

theorem moved_subBalance (h : sv.subBalance addr amount = some sv') :
    sv.Moved addr true amount sv' := by
  unfold subBalance at h
  split at h
  · next hzero => exact .inl ⟨hzero, (Option.some.inj h).symm⟩
  · next hne =>
    split at h
    · cases h
    · next acc hacc =>
      obtain ⟨v, hv, hsv⟩ := Option.map_eq_some_iff.mp h
      obtain ⟨hnonneg, rfl⟩ := setTFuel_eq_some hv
      obtain rfl := getOrCreateAccount_of_some hacc
      exact .inr ⟨hne, hnonneg, hsv.symm⟩

theorem getBalance_of_getAccount {a : Address} (h : sv'.getAccount a = sv.getAccount a) :
    sv'.getBalance a = sv.getBalance a := by
  rw [getBalance, getBalance, getOrCreateAccount, getOrCreateAccount, h]

theorem Moved.getBalance (h : sv.Moved addr isNegative amount sv') (a : Address) :
    sv'.getBalance a = sv.getBalance a + if a = addr then signed isNegative amount else 0 := by
  obtain ⟨rfl, rfl⟩ | ⟨-, hnonneg, rfl⟩ := h
  · cases isNegative <;> simp [signed]
  · show (sv.setAccount addr _).getBalance a = _
    rw [StoreView.getBalance, getOrCreateAccount, getAccount_setAccount]
    split
    · next ha =>
      rw [ha]
      exact Int.toNat_of_nonneg hnonneg
    · exact (Int.add_zero _).symm

end StoreView

end ThetaSubchain
