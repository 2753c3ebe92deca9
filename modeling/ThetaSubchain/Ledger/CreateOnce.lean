/-
Where contracts can be created again (ledger/vm/vm.go, ledger/state/storeview.go).

A creation is refused at an address whose account has a sequence or code, but a new contract gets
neither before its constructor has returned code.  `Create` takes the address from the creator's
sequence, which only grows.
-/
import ThetaSubchain.Ledger.CodeKept

namespace ThetaSubchain

open Ending StoreView Option

namespace StoreView

/-- The later view is reached with `k` increments of sequences. -/
inductive Onward : Nat → StoreView → StoreView → Prop where
  | keep (v v' : StoreView) (h : ∀ c, v'.getNonce c = v.getNonce c) : Onward 0 v v'
  | next (v : StoreView) (a : Address) (acc : Account) (h : acc.sequence = v.getNonce a + 1) :
    Onward 1 v (v.setAccount a acc)
  | trans {j k : Nat} {v v' v'' : StoreView} (h : Onward j v v') (h' : Onward k v' v'') :
    Onward (j + k) v v''

variable {v v' : StoreView} {addr : Address} {isNegative : Bool} {amount : Int}

theorem Onward.refl (v : StoreView) : Onward 0 v v := .keep v v fun _ => rfl

theorem getNonce_setAccount (v : StoreView) (addr a : Address) (acc : Account) :
    (v.setAccount addr acc).getNonce a = if a = addr then acc.sequence else v.getNonce a := by
  rw [getNonce, getOrCreateAccount, getAccount_setAccount]
  split
  · rfl
  · rfl

theorem Onward.of_setAccount {acc : Account} (hseq : acc.sequence = v.getNonce addr)
    (h : v'.getAccount = (v.setAccount addr acc).getAccount) : Onward 0 v v' := by
  refine .keep _ _ fun c => ?_
  have hsame : v'.getNonce c = (v.setAccount addr acc).getNonce c := by
    rw [getNonce, getNonce, getOrCreateAccount, getOrCreateAccount, h]
  rw [hsame, getNonce_setAccount]
  split
  · next heq => rw [hseq, heq]
  · rfl

theorem Onward.bounds {k : Nat} (h : Onward k v v') (c : Address)
    (hwrap : (v.getNonce c).toNat + k < 2 ^ 64) :
    (v.getNonce c).toNat ≤ (v'.getNonce c).toNat ∧
      (v'.getNonce c).toNat ≤ (v.getNonce c).toNat + k := by
  induction h with
  | keep v v' h => rw [h c]; omega
  | next v a acc h =>
    rw [getNonce_setAccount]
    split
    · next heq =>
      have hone : (1 : UInt64).toNat = 1 := rfl
      rw [h, ← heq, UInt64.toNat_add, hone, Nat.mod_eq_of_lt hwrap]
      omega
    · omega
  | trans _ _ ih ih' =>
    have h₁ := ih (by omega)
    have h₂ := ih' (by omega)
    omega

theorem getNonce_of_some {acc : Account} (h : v.getAccount addr = some acc) :
    v.getNonce addr = acc.sequence := by
  rw [getNonce, getOrCreateAccount, h]
  rfl

theorem onward_moved (h : v.Moved addr isNegative amount v') : Onward 0 v v' := by
  obtain ⟨-, rfl⟩ | ⟨-, -, rfl⟩ := h
  · exact .refl _
  · refine .of_setAccount ?_ rfl
    rfl

theorem onward_suicide (v : StoreView) (addr : Address) : Onward 0 v (v.suicide addr) := by
  unfold suicide
  split
  · exact .refl v
  · next acc hacc =>
    refine .of_setAccount ?_ rfl
    exact (getNonce_of_some hacc).symm

theorem onward_createAccount (h : v.getNonce addr = 0) :
    Onward 0 v (v.createAccountWithPreviousBalance addr) := by
  rw [createAccount_eq]
  exact .of_setAccount h.symm rfl

end StoreView

open StoreView (Onward)

theorem onward_runs {env : Vm.Env} {m m' : Vm.Evm} (h : Vm.Runs env m m') :
    ∃ k, Onward k m.stateDB m'.stateDB := by
  have hrel : Vm.ViewRel env.lib fun v v' => ∃ k, Onward k v v' :=
    { trans := by
        rintro u v w ⟨j, hj⟩ ⟨k, hk⟩
        exact ⟨j + k, hj.trans hk⟩
      refund := fun _ _ => ⟨0, .keep _ _ fun _ => rfl⟩
      openAccount := fun hvacant => ⟨0, onward_createAccount hvacant.1⟩
      setNonce := fun _ _ => ⟨1, .next _ _ _ rfl⟩
      setCode := fun _ _ _ => ⟨0, .of_setAccount (by rfl) rfl⟩
      setState := fun _ _ _ _ => ⟨0, .of_setAccount (by rfl) rfl⟩
      addLog := fun _ _ => ⟨0, .keep _ _ fun _ => rfl⟩
      moved := fun h => ⟨0, onward_moved h⟩
      suicide := fun v addr => ⟨0, v.onward_suicide addr⟩
      revert := fun _ => ⟨0, .keep _ _ fun _ => rfl⟩ }
  exact hrel.runs h

namespace Executor

variable {x : Executor} {pos : Position} {sel : ViewSelector} {view : StoreView}

def KeepsSequences (x : Executor) : Prop :=
  ∀ height acc, (x.lib.updateToHeight height acc).sequence = acc.sequence

variable {addr : Address} {acc : Account}

theorem sequence_of_getOrMake (hlib : x.KeepsSequences) {make : Bool}
    (h : x.getOrMakeAccountImpl view addr make = some acc) : acc.sequence = view.getNonce addr := by
  unfold getOrMakeAccountImpl at h
  unfold getNonce getOrCreateAccount
  cases hacc : view.getAccount addr with
  | some old =>
    rw [hacc] at h
    cases h
    exact hlib _ _
  | none =>
    rw [hacc] at h
    cases make with
    | true =>
      cases h
      exact hlib _ _
    | false => cases h

def Current (view : StoreView) (accounts : Accounts) : Prop :=
  ∀ p ∈ accounts, p.2.sequence = view.getNonce p.1

theorem current_append {accounts : Accounts} (h : Current view accounts)
    (hacc : acc.sequence = view.getNonce addr) : Current view (accounts ++ [(addr, acc)]) := by
  intro p hp
  rcases List.mem_append.mp hp with hp | hp
  · exact h p hp
  · rw [List.mem_singleton.mp hp]
    exact hacc

theorem current_getInputs (hlib : x.KeepsSequences) {ins : List TxInput} {accounts : Accounts}
    (h : x.getInputs view ins = .ok accounts) : Current view accounts := by
  refine foldlM_ok (P := Current view) h (fun _ hp => nomatch hp) ?_
  intro input _ acc acc' hacc hround
  obtain ⟨_, _, hround⟩ := bind_eq_ok.mp hround
  split at hround
  · cases hround
  · next loaded hloaded =>
    cases hround
    exact current_append hacc (sequence_of_getOrMake hlib hloaded)

theorem current_getOrMakeOutputs (hlib : x.KeepsSequences) {outs : List TxOutput}
    {accounts accounts' : Accounts} (hcurrent : Current view accounts)
    (h : x.getOrMakeOutputs view accounts outs = .ok accounts') : Current view accounts' := by
  refine foldlM_ok (P := Current view) h hcurrent ?_
  intro out _ acc acc' hacc hround
  obtain ⟨_, _, hround⟩ := bind_eq_ok.mp hround
  obtain ⟨loaded, hloaded, hround⟩ := bind_eq_ok.mp hround
  cases hround
  exact current_append hacc (sequence_of_getOrMake hlib (deref_eq_ok.mp hloaded))

def Steps (change : Account → Option Account) : Prop :=
  ∀ acc acc', change acc = some acc' →
    acc'.sequence = acc.sequence ∨ acc'.sequence = acc.sequence + 1

theorem onward_adjust {change : Account → Option Account} (hchange : Steps change)
    {s s' : StoreView × Accounts} (hs : Current s.1 s.2) (h : adjust change s addr = some s') :
    Current s'.1 s'.2 ∧ ∃ k, Onward k s.1 s'.1 := by
  unfold adjust at h
  rw [bind_eq_bind, bind_eq_some_iff] at h
  obtain ⟨acc, hlookup, h⟩ := h
  rw [bind_eq_some_iff] at h
  obtain ⟨acc', hacc', h⟩ := h
  cases h
  have hseq : acc.sequence = s.1.getNonce addr := by
    obtain ⟨l₁, l₂, heq, -⟩ := List.lookup_eq_some_iff.mp hlookup
    exact hs (addr, acc) (by rw [heq]; simp)
  constructor
  · intro p hp
    obtain ⟨q, hq, rfl⟩ := List.mem_map.mp hp
    rw [getNonce_setAccount]
    by_cases hne : q.1 = addr
    · rw [if_pos hne, if_pos rfl]
    · rw [if_neg hne, if_neg hne]
      exact hs q hq
  · rcases hchange acc acc' hacc' with hsame | hnext
    · exact ⟨0, .of_setAccount (hsame.trans hseq) rfl⟩
    · exact ⟨1, .next _ _ _ (hnext.trans (by rw [hseq]))⟩

theorem onward_foldlM {ι : Type} {change : ι → Account → Option Account} {addr : ι → Address}
    (hchange : ∀ i, Steps (change i)) (is : List ι) {s s' : StoreView × Accounts}
    (hs : Current s.1 s.2) (h : is.foldlM (fun s i => adjust (change i) s (addr i)) s = some s') :
    Current s'.1 s'.2 ∧ ∃ k, Onward k s.1 s'.1 := by
  induction is generalizing s with
  | nil =>
    cases h
    exact ⟨hs, 0, .refl _⟩
  | cons i is ih =>
    rw [List.foldlM_cons, bind_eq_bind, bind_eq_some_iff] at h
    obtain ⟨t, ht, h⟩ := h
    obtain ⟨hcurrent, j, hj⟩ := onward_adjust (hchange i) hs ht
    obtain ⟨hcurrent', k, hk⟩ := ih hcurrent h
    exact ⟨hcurrent', j + k, hj.trans hk⟩

theorem sequence_setBalance {acc acc' : Account} {theta tfuel : Int}
    (h : acc.setBalance theta tfuel = some acc') : acc'.sequence = acc.sequence := by
  unfold Account.setBalance at h
  split at h
  · cases h
    rfl
  · cases h

theorem steps_adjustByInput (input : TxInput) : Steps (adjustByInput input) := by
  intro acc acc' h
  unfold adjustByInput at h
  split at h
  · obtain ⟨paid, hpaid, h⟩ := bind_eq_some_iff.mp h
    cases h
    have hseq : paid.sequence = acc.sequence := sequence_setBalance hpaid
    exact .inr (congrArg (· + 1) hseq)
  · cases h

theorem steps_plus (coins : Coins) : Steps (Account.plus · coins) :=
  fun _ _ h => .inl (sequence_setBalance h)

variable {out : Outcome}

theorem SendOutcome.onward (hlib : x.KeepsSequences) {tx : SendTx}
    (h : x.SendOutcome view tx out) : ∃ k, Onward k view out.view := by
  cases h with
  | refused => exact ⟨0, .refl _⟩
  | sent hload hin hout =>
    obtain ⟨inputs, hinputs, houtputs⟩ := bind_eq_ok.mp hload
    have hcurrent := current_getOrMakeOutputs hlib (current_getInputs hlib hinputs) houtputs
    obtain ⟨hs, j, hj⟩ := onward_foldlM steps_adjustByInput tx.inputs hcurrent hin
    obtain ⟨-, k, hk⟩ := onward_foldlM (fun o : TxOutput => steps_plus o.coins) tx.outputs hs hout
    exact ⟨j + k, hj.trans hk⟩

theorem onward_makeValidatorAccounts (validators : List Validator) (view : StoreView) :
    Onward 0 view (makeValidatorAccounts view validators) := by
  induction validators generalizing view with
  | nil => exact .refl view
  | cons v vs ih =>
    have hone : Onward 0 view (makeValidatorAccount view v) := by
      unfold makeValidatorAccount
      split
      · exact .refl view
      · next hnone =>
        refine .of_setAccount ?_ rfl
        rw [getNonce, getOrCreateAccount, hnone]
        rfl
    exact hone.trans (ih _)

theorem UpdateOutcome.onward {tx : SubchainValidatorSetUpdateTx}
    (h : x.UpdateOutcome view tx out) : ∃ k, Onward k view out.view := by
  have hmade := onward_makeValidatorAccounts tx.validators view
  cases h with
  | again => exact ⟨0, .refl _⟩
  | installed => exact ⟨0 + 0, hmade.trans (.keep _ _ fun _ => rfl)⟩
  | _ => exact ⟨0, hmade⟩

variable {tx : SmartContractTx}

theorem onward_chargeSender {gasUsed : UInt64} {charged : StoreView}
    (hseq : acc.sequence = view.getNonce tx.sender.address)
    (h : chargeSender view tx acc gasUsed = .ok (some charged)) : ∃ k, Onward k view charged := by
  obtain ⟨gasPrice, -, h⟩ := bind_eq_ok.mp h
  obtain ⟨paid, hpaid, h⟩ := bind_eq_ok.mp h
  cases paid with
  | none => cases h
  | some paid =>
    cases h
    have hsame : paid.sequence = acc.sequence := by
      unfold chargeFee at hpaid
      split at hpaid
      · obtain ⟨acc', hacc', hpaid⟩ := bind_eq_ok.mp hpaid
        cases hpaid
        exact sequence_setBalance (deref_eq_ok.mp hacc')
      · cases hpaid
    by_cases hto : tx.toAddress == 0
    · rw [if_pos hto]
      exact ⟨0, .of_setAccount (hsame.trans hseq) rfl⟩
    · rw [if_neg hto]
      refine ⟨1, .next _ _ _ ?_⟩
      exact congrArg (· + 1) (hsame.trans hseq)

theorem onward_settle (hlib : x.KeepsSequences) {r : Vm.ExecuteResult}
    (h : x.settle sel tx r view = .ok out) : ∃ k, Onward k view out.view := by
  cases settled h with
  | refused => exact ⟨0, .refl _⟩
  | charged hacc hcharged _ =>
    obtain ⟨k, hk⟩ := onward_chargeSender (sequence_of_getOrMake hlib hacc) hcharged
    exact ⟨k + 0, hk.trans (.keep _ _ fun _ => rfl)⟩

theorem onward_processTx (hlib : x.KeepsSequences) {tx : Tx}
    (h : x.processTx pos sel view tx = .ok out) : ∃ k, Onward k view out.view := by
  cases txOutcome h with
  | refused => exact ⟨0, .refl _⟩
  | coinbase => exact ⟨0, .keep _ _ fun _ => rfl⟩
  | update _ h => exact h.onward
  | send h => exact h.onward hlib
  | contract _ hexec h =>
    obtain ⟨j, hj⟩ := onward_runs ((Vm.ends_execute ..).of_ok hexec)
    obtain ⟨k, hk⟩ := onward_settle hlib h
    have hstart : Onward 0 view (startMachine view).stateDB := .keep _ _ fun _ => rfl
    exact ⟨0 + j + k, (hstart.trans hj).trans hk⟩

/-- The second view is reached from the first by transactions, or within one: by what the
machine does from its start on, and by what follows its execution.  `P` holds of the machine's
events. -/
inductive Since (x : Executor) (P : Vm.Event → Prop) : StoreView → StoreView → Prop where
  | refl (v : StoreView) : Since x P v v
  | tx {v v' : StoreView} {pos : Position} {sel : ViewSelector} {tx : Tx} {out : Outcome}
    (h : Since x P v v') (hstep : x.processTx pos sel v' tx = .ok out)
    (hevents : ∀ sc r m, tx = .smartContract sc → x.executeSmartContract pos v' sc = .ok r m →
      ∀ e ∈ m.trace, P e) : Since x P v out.view
  | start {v v' : StoreView} (h : Since x P v v') : Since x P v (startMachine v').stateDB
  | machine {v : StoreView} {env : Vm.Env} {m m' : Vm.Evm} (h : Since x P v m.stateDB)
    (hruns : Vm.Runs env m m') (hevents : Vm.AllSince P m m') : Since x P v m'.stateDB
  | settle {v v' : StoreView} {sel : ViewSelector} {tx : SmartContractTx} {r : Vm.ExecuteResult}
    {out : Outcome} (h : Since x P v v') (hsettle : x.settle sel tx r v' = .ok out) :
    Since x P v out.view

theorem Since.onward (hlib : x.KeepsSequences) {P : Vm.Event → Prop} {v v' : StoreView}
    (h : Since x P v v') : ∃ k, Onward k v v' := by
  induction h with
  | refl => exact ⟨0, .refl _⟩
  | tx _ hstep _ ih =>
    obtain ⟨j, hj⟩ := ih
    obtain ⟨k, hk⟩ := onward_processTx hlib hstep
    exact ⟨j + k, hj.trans hk⟩
  | start _ ih =>
    obtain ⟨j, hj⟩ := ih
    exact ⟨j + 0, hj.trans (.keep _ _ fun _ => rfl)⟩
  | machine _ hruns _ ih =>
    obtain ⟨j, hj⟩ := ih
    obtain ⟨k, hk⟩ := onward_runs hruns
    exact ⟨j + k, hj.trans hk⟩
  | settle _ hsettle ih =>
    obtain ⟨j, hj⟩ := ih
    obtain ⟨k, hk⟩ := onward_settle hlib hsettle
    exact ⟨j + k, hj.trans hk⟩

theorem Since.coded (hlawful : x.lib.Lawful) (hlib : x.KeepsCodes) {a : Address}
    {v v' : StoreView} (h : Since x (Vm.Event.KeepsCode a) v v') (hv : v.Coded a) :
    v'.Coded a := by
  induction h with
  | refl => exact hv
  | tx _ hstep hevents ih => exact coded_processTx hlawful hlib hstep hevents ih
  | start _ ih => exact ih.of_getAccount rfl
  | machine _ hruns hevents ih => exact (Vm.coded_runs hruns).2 hevents ih
  | settle _ hsettle ih => exact coded_settle hlib hsettle ih

end Executor

namespace Vm

inductive Origin where
  | sequence (creator : Address) (nonce : UInt64)
  | salted (creator : Address) (salt codeHash : Hash)

namespace Origin

def creator : Origin → Address
  | sequence c _ => c
  | salted c _ _ => c

def address (lib : Library) : Origin → Address
  | sequence c nonce => lib.createAddress c nonce
  | salted c salt codeHash => lib.createAddress2 c salt codeHash

end Origin

/-- A creation has passed its checks in `v`: in `v'` the sequence of the creator is incremented
and the new account is about to be opened. -/
structure Begins (o : Origin) (v v' : StoreView) : Prop where
  nonce : ∀ c n, o = .sequence c n → n = v.getNonce c
  next : v' = v.setNonce o.creator (v.getNonce o.creator + 1)

variable {env : Env} {run : Runner} {depth : Nat} {caller : ContractRef} {code : Bytes}
  {gas : UInt64} {value : Int} {m m' : Evm} {r : RunResult} {b : Address}

def begun (caller : ContractRef) (m : Evm) : Evm :=
  m.setView (m.stateDB.setNonce caller.address (m.stateDB.getNonce caller.address + 1))

theorem create_eq_ok {address : Address}
    (h : create env run depth caller code gas value address m = .ok (b, r) m')
    (hok : r.err = none) :
    b = address ∧ Vacant (begun caller m).stateDB address ∧
      createFrame env run caller code gas value address (begun caller m) = .ok r m' := by
  unfold create at h
  obtain ⟨_, _, hget, h⟩ := run_bind_eq_ok.mp h
  cases hget
  by_cases hdepth : env.params.callCreateDepth < depth
  · rw [if_pos hdepth] at h
    cases h
    cases hok
  rw [if_neg hdepth] at h
  by_cases hfunds : (!Evm.canTransfer m.stateDB caller.address value) = true
  · rw [if_pos hfunds] at h
    cases h
    cases hok
  rw [if_neg hfunds] at h
  obtain ⟨_, _, hmodify, h⟩ := run_bind_eq_ok.mp h
  cases hmodify
  obtain ⟨_, _, hget, h⟩ := run_bind_eq_ok.mp h
  cases hget
  dsimp only at h
  split at h
  · cases h
    cases hok
  · next hfree =>
    obtain ⟨r', t, hframe, h⟩ := run_bind_eq_ok.mp h
    cases h
    simp only [not_or, not_and, not_not, ne_eq] at hfree
    exact ⟨rfl, ⟨hfree.1, or_iff_not_imp_left.mpr hfree.2⟩, hframe⟩

def createAs (env : Env) (run : Runner) (depth : Nat) (caller : ContractRef) (code : Bytes)
    (gas : UInt64) (value : Int) : Option Int → EvmM (Address × RunResult)
  | none => create1 env run depth caller code gas value
  | some salt => create2 env run depth caller code gas value salt

def originOf (env : Env) (caller : ContractRef) (code : Bytes) (m : Evm) : Option Int → Origin
  | none => .sequence caller.address (m.stateDB.getNonce caller.address)
  | some salt => .salted caller.address (bigToHash salt) (env.lib.keccak code)

theorem createAs_eq (salt : Option Int) :
    createAs env run depth caller code gas value salt m =
      create env run depth caller code gas value
        ((originOf env caller code m salt).address env.lib) m := by
  cases salt with
  | none => rfl
  | some salt => rfl

theorem toNat_getNonce_setNonce {v : StoreView} {c : Address} {acc : Account}
    (hacc : acc.sequence = v.getNonce c + 1) (h : (v.getNonce c).toNat + 1 < 2 ^ 64) :
    ((v.setAccount c acc).getNonce c).toNat = (v.getNonce c).toNat + 1 := by
  rw [getNonce_setAccount, if_pos rfl, hacc, UInt64.toNat_add]
  exact Nat.mod_eq_of_lt h

theorem coded_createFrame {address : Address}
    (h : createFrame env run caller code gas value address m = .ok r m') (hok : r.err = none)
    (hcode : Occupies (env.lib.keccak r.ret)) : m'.stateDB.Coded address := by
  unfold createFrame at h
  obtain ⟨_, _, -, h⟩ := run_bind_eq_ok.mp h
  obtain ⟨_, _, -, h⟩ := run_bind_eq_ok.mp h
  obtain ⟨_, _, -, h⟩ := run_bind_eq_ok.mp h
  obtain ⟨r₁, m₁, -, h⟩ := run_bind_eq_ok.mp h
  obtain ⟨r₂, m₂, hstore, h⟩ := run_bind_eq_ok.mp h
  split at h
  · obtain ⟨_, _, -, h⟩ := run_bind_eq_ok.mp h
    cases h
    cases hok
  · next hfine =>
    cases h
    unfold storeCode at hstore
    split at hstore
    · next hbad =>
      -- the frame would have been reverted
      cases hstore
      exact absurd (hbad.symm.imp id fun h => h) hfine
    · split at hstore
      · cases hstore
        cases hok
      · cases hstore
        exact ⟨_, (getAccount_setAccount ..).trans (if_pos rfl), hcode⟩

/-- A creation at `a` has succeeded with code, in the state `v`. -/
def Created (a : Address) (v : StoreView) : Prop :=
  ∃ (env : Env) (run : Runner) (depth : Nat) (caller : ContractRef) (code : Bytes) (gas : UInt64)
    (value : Int) (salt : Option Int) (m m' : Evm) (r : RunResult),
    createAs env run depth caller code gas value salt m = .ok (a, r) m' ∧ r.err = none ∧
      Occupies (env.lib.keccak r.ret) ∧ m'.stateDB = v

theorem Created.coded {a : Address} {v : StoreView} (h : Created a v) : v.Coded a := by
  obtain ⟨env, run, depth, caller, code, gas, value, salt, m, m', r, h, hok, hcode, rfl⟩ := h
  rw [createAs_eq] at h
  obtain ⟨rfl, -, hframe⟩ := create_eq_ok h hok
  exact coded_createFrame hframe hok hcode

/-- A creation by `Create` is not at the address of one that began earlier, running or ended,
unless a sequence wraps around.  A creation by either is not at an address where one has ended
with code, unless one that was running there has ended without. -/
theorem create_not_repeated {x : Executor} (hlawful : x.lib.Lawful) (hcodes : x.KeepsCodes)
    (hlib : x.KeepsSequences) {salt : Option Int}
    (h : createAs env run depth caller code gas value salt m = .ok (b, r) m')
    (hok : r.err = none) :
    (∀ o v v', salt = none → Begins o v v' → x.Since (fun _ => True) v' m.stateDB →
      (o.address env.lib = (originOf env caller code m none).address env.lib →
        o = originOf env caller code m none) →
      (∃ k, StoreView.Onward k v' m.stateDB) ∧
        ∀ k, StoreView.Onward k v' m.stateDB → (∀ c, (v.getNonce c).toNat + 2 + k < 2 ^ 64) →
          b ≠ o.address env.lib) ∧
      ∀ a v, Created a v → x.Since (Event.KeepsCode a) v m.stateDB → b ≠ a := by
  rw [createAs_eq] at h
  obtain ⟨hb, hvacant, -⟩ := create_eq_ok h hok
  constructor
  · rintro o v v' rfl hbegins hsince hcollision
    refine ⟨hsince.onward hlib, fun k hk hwrap heq => ?_⟩
    have ho := hcollision (heq.symm.trans hb)
    have hroom := hwrap caller.address
    -- the earlier creation began with the sequence that the creator has now
    have hsame := congrArg UInt64.toNat (hbegins.nonce _ _ ho)
    have hnext : (v'.getNonce caller.address).toNat = (v.getNonce caller.address).toNat + 1 := by
      rw [hbegins.next, ho]
      exact toNat_getNonce_setNonce (c := caller.address) rfl (by omega)
    have hbounds := hk.bounds caller.address (by omega)
    omega
  · rintro a v hcreated hsince rfl
    have hcoded := hsince.coded hlawful hcodes hcreated.coded
    exact (hcoded.update rfl : (begun caller m).stateDB.Coded b).not_vacant (hb ▸ hvacant)

def creatorLibrary : Library :=
  { plainLibrary with keccak := fun b => if b = [] then emptyCodeHash else plainLibrary.keccak b }

def creatorEnv : Env := txEnv constantinopleParams creatorLibrary ⟨1, 0, 1⟩ (callTx 100 [])

def creatorMachine : Evm where
  stateDB :=
    { height := 1
      store := { account := fun a =>
        if a = 100 then some { address := 100, codeHash := 55, tfuelWei := 10 } else none } }

def storingCode : Bytes := [0x60, 1, 0x34, 0x55]

def returningCode : Bytes := [0x60, 7, 0x60, 0, 0x53, 0x60, 1, 0x60, 0, 0xf3]

def createBy (code : Bytes) (salt : Option Int) (value : Int) :
    Evm → EStateM.Result Halt Evm (Address × RunResult) :=
  createAs creatorEnv (runWith creatorEnv (interpret creatorEnv 40) 0 false) 0 (.account 100)
    code 100000 value salt

structure Creation where
  ok : Bool
  address : Address
  code : Bytes
  slots : Hash × Hash
  deriving DecidableEq

def createdBy (code : Bytes) (salt : Option Int) (value : Int) (m : Evm) :
    Option (Creation × Evm) :=
  match createBy code salt value m with
  | .ok (a, r) m' =>
    some (⟨r.err.isNone, a, r.ret, m'.stateDB.getState a 0, m'.stateDB.getState a 1⟩, m')
  | .error _ _ => none

/-- `Create2` succeeds twice at one address, and the second creation has reset the storage. -/
theorem create2_repeated :
    ((createdBy storingCode (some 0) 0 creatorMachine).map fun out =>
        (out.1, (createdBy storingCode (some 0) 1 out.2).map Prod.fst)) =
      some (⟨true, 1610691769, [], 1, 0⟩, some ⟨true, 1610691769, [], 0, 1⟩) := by
  decide +kernel

theorem createBy_eq_ok {code : Bytes} {salt : Option Int} {value : Int} {m m' : Evm}
    {out : Creation} (h : createdBy code salt value m = some (out, m')) (hok : out.ok = true) :
    ∃ r, createBy code salt value m = .ok (out.address, r) m' ∧ r.err = none ∧
      r.ret = out.code := by
  unfold createdBy at h
  split at h
  next b r m' heq =>
    simp only [some.injEq, Prod.mk.injEq] at h
    obtain ⟨rfl, rfl⟩ := h
    exact ⟨r, heq, isNone_iff_eq_none.mp hok, rfl⟩
  · cases h

theorem exists_createdBy {code : Bytes} {salt : Option Int} {value : Int} {m : Evm}
    {out : Creation} (h : (createdBy code salt value m).map Prod.fst = some out) :
    ∃ m', createdBy code salt value m = some (out, m') := by
  obtain ⟨⟨out', m'⟩, hout, rfl⟩ := map_eq_some_iff.mp h
  exact ⟨m', hout⟩

/-- While the constructor of its first contract runs, the contract 100 creates another one.
After a creation by `Create2`, it creates one with another salt in the next transaction. -/
theorem create_not_repeated_creator :
    (∃ r m', createBy storingCode none 1 (begun (.account 100) creatorMachine) = .ok (102, r) m' ∧
      r.err = none ∧ (102 : Address) ≠ (Origin.sequence 100 0).address creatorLibrary) ∧
    ∃ a r m₁ b r' m₂, createBy returningCode (some 0) 0 creatorMachine = .ok (a, r) m₁ ∧
      r.err = none ∧ createBy returningCode (some 1) 0 (Executor.startMachine m₁.stateDB) =
        .ok (b, r') m₂ ∧ r'.err = none ∧ b ≠ a := by
  have hlawful : sendExecutor.lib.Lawful := lawful_strictTxLibrary
  have hcodes : sendExecutor.KeepsCodes := fun _ _ => rfl
  have hkeeps : sendExecutor.KeepsSequences := fun _ _ => rfl
  constructor
  · have heval : (createdBy storingCode none 1 (begun (.account 100) creatorMachine)).map
        Prod.fst = some ⟨true, 102, [], 0, 1⟩ := by decide +kernel
    obtain ⟨m', hm'⟩ := exists_createdBy heval
    obtain ⟨r, h, hok, -⟩ := createBy_eq_ok hm' rfl
    refine ⟨r, m', h, hok, ?_⟩
    have hsequence : ∀ c, creatorMachine.stateDB.getNonce c = 0 := by
      intro c
      show ((if c = 100 then some _ else none : Option Account).getD _).sequence = 0
      split <;> rfl
    have hbegins : Begins (.sequence 100 0) creatorMachine.stateDB
        (begun (.account 100) creatorMachine).stateDB := by
      refine ⟨fun c n heq => ?_, rfl⟩
      cases heq
      exact (hsequence 100).symm
    -- the two creations have different sequences, and the addresses differ with them
    have hcollision : (Origin.sequence 100 0).address creatorEnv.lib ≠
        (originOf creatorEnv (.account 100) storingCode
          (begun (.account 100) creatorMachine) none).address creatorEnv.lib := by
      decide
    have hrepeated := (create_not_repeated hlawful hcodes hkeeps h hok).1 _ _ _ rfl hbegins
      (.refl _) fun heq => absurd heq hcollision
    exact hrepeated.2 0 (.refl _) fun c => by
      rw [hsequence c]
      decide
  · have heval : ((createdBy returningCode (some 0) 0 creatorMachine).map fun out => (out.1,
        (createdBy returningCode (some 1) 0 (Executor.startMachine out.2.stateDB)).map Prod.fst)) =
        some (⟨true, 0x60076000536001600157, [7], 0, 0⟩,
          some ⟨true, 0x60076000536001600158, [7], 0, 0⟩) := by
      decide +kernel
    obtain ⟨⟨out, m₁⟩, hm₁, hmap⟩ := map_eq_some_iff.mp heval
    obtain ⟨rfl, hsecond⟩ := Prod.mk.inj hmap
    obtain ⟨m₂, hm₂⟩ := exists_createdBy hsecond
    obtain ⟨r, h, hok, hret⟩ := createBy_eq_ok hm₁ rfl
    obtain ⟨r', h', hok', -⟩ := createBy_eq_ok hm₂ rfl
    refine ⟨_, r, m₁, _, r', m₂, h, hok, h', hok', ?_⟩
    have hcreated : Created 0x60076000536001600157 m₁.stateDB := by
      refine ⟨_, _, _, _, _, _, _, _, _, m₁, r, h, hok, ?_, rfl⟩
      rw [hret]
      unfold Occupies
      decide
    exact (create_not_repeated hlawful hcodes hkeeps h' hok').2 _ _ hcreated (.start (.refl _))

end Vm

end ThetaSubchain
