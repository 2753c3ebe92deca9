/-
Send transactions move TFuel and charge the fee, and do nothing else.

An address that comes up twice among inputs and outputs ends the check, so every account is written
once.
-/
import ThetaSubchain.Ledger.Supply
import ThetaSubchain.Ledger.System

namespace ThetaSubchain

open Ending List StoreView TxInput

namespace Executor

variable {x : Executor} {view : StoreView}

def loaded (x : Executor) (view : StoreView) (addr : Address) : Account :=
  x.lib.updateToHeight view.height
    ((view.getAccount addr).getD { Account.new addr with lastUpdatedBlockHeight := view.height })

theorem getOrMakeAccountImpl_true (addr : Address) :
    x.getOrMakeAccountImpl view addr true = some (x.loaded view addr) := by
  unfold getOrMakeAccountImpl loaded
  cases view.getAccount addr <;> rfl

theorem getOrMakeAccountImpl_false {addr : Address} {acc : Account}
    (h : x.getOrMakeAccountImpl view addr false = some acc) :
    (view.getAccount addr).isSome ∧ acc = x.loaded view addr := by
  unfold getOrMakeAccountImpl at h
  cases hacc : view.getAccount addr with
  | none =>
    rw [hacc] at h
    cases h
  | some old =>
    rw [hacc] at h
    cases h
    exact ⟨rfl, by rw [loaded, hacc]; rfl⟩

def loadedAt (x : Executor) (view : StoreView) (addrs : List Address) : Accounts :=
  addrs.map fun a => (a, x.loaded view a)

theorem lookup_loadedAt (addrs : List Address) (a : Address) :
    (x.loadedAt view addrs).lookup a = if a ∈ addrs then some (x.loaded view a) else none := by
  induction addrs with
  | nil => rfl
  | cons b addrs ih =>
    show lookup a ((b, x.loaded view b) :: x.loadedAt view addrs) = _
    by_cases hab : a = b
    · simp [hab]
    · have hbeq : (a == b) = false := by simpa using hab
      rw [lookup_cons, hbeq, ih]
      simp [hab]

theorem nodup_concat {addrs : List Address} {a : Address} (h : addrs.Nodup)
    (hnew : ((x.loadedAt view addrs).lookup a).isNone = true) : (addrs ++ [a]).Nodup := by
  rw [lookup_loadedAt] at hnew
  have hnot : a ∉ addrs := by
    intro hmem
    simp [hmem] at hnew
  rw [nodup_append]
  refine ⟨h, nodup_singleton a, ?_⟩
  intro b hb c hc
  rw [mem_singleton.mp hc]
  exact ne_of_mem_of_not_mem hb hnot

theorem loadedAt_concat (addrs : List Address) (a : Address) :
    x.loadedAt view addrs ++ [(a, x.loaded view a)] = x.loadedAt view (addrs ++ [a]) := by
  rw [loadedAt, loadedAt, map_append]
  rfl

variable {accounts : Accounts}

theorem getInputs_eq_ok {ins : List TxInput} (h : x.getInputs view ins = .ok accounts) :
    accounts = x.loadedAt view (ins.map address) ∧ (ins.map address).Nodup ∧
      ∀ i ∈ ins, (view.getAccount i.address).isSome := by
  suffices hgen : ∀ (step : Accounts → TxInput → CheckM Accounts),
      (∀ addrs i next, addrs.Nodup → step (x.loadedAt view addrs) i = .ok next →
        next = x.loadedAt view (addrs ++ [i.address]) ∧ (addrs ++ [i.address]).Nodup ∧
          (view.getAccount i.address).isSome) →
      ∀ (ins : List TxInput) (addrs : List Address) (accounts : Accounts), addrs.Nodup →
      ins.foldlM step (x.loadedAt view addrs) = .ok accounts →
      accounts = x.loadedAt view (addrs ++ ins.map address) ∧
        (addrs ++ ins.map address).Nodup ∧
        ∀ i ∈ ins, (view.getAccount i.address).isSome by
    refine hgen _ (fun addrs i next hnodup hnext => ?_) ins [] accounts nodup_nil h
    obtain ⟨_, hnew, hnext⟩ := bind_eq_ok.mp hnext
    split at hnext
    · cases hnext
    next acc hacc =>
      obtain ⟨hsome, rfl⟩ := getOrMakeAccountImpl_false hacc
      cases hnext
      exact ⟨loadedAt_concat .., nodup_concat hnodup (require_eq_ok.mp hnew), hsome⟩
  intro step hstep ins
  induction ins with
  | nil =>
    intro addrs accounts hnodup h
    cases h
    exact ⟨by simp, by simpa using hnodup, by simp⟩
  | cons i ins ih =>
    intro addrs accounts hnodup h
    obtain ⟨next, hnext, h⟩ := bind_eq_ok.mp h
    obtain ⟨rfl, hnodup, hsome⟩ := hstep addrs i next hnodup hnext
    obtain ⟨haccounts, hdistinct, hall⟩ := ih _ _ hnodup h
    rw [append_assoc] at haccounts hdistinct
    exact ⟨haccounts, hdistinct, forall_mem_cons.mpr ⟨hsome, hall⟩⟩

theorem getOrMakeOutputs_eq_ok {addrs : List Address} (hnodup : addrs.Nodup) {outs : List TxOutput}
    (h : x.getOrMakeOutputs view (x.loadedAt view addrs) outs = .ok accounts) :
    accounts = x.loadedAt view (addrs ++ outs.map TxOutput.address) ∧
      (addrs ++ outs.map TxOutput.address).Nodup := by
  induction outs generalizing addrs with
  | nil =>
    cases h
    exact ⟨by simp, by simpa using hnodup⟩
  | cons o outs ih =>
    obtain ⟨next, hnext, h⟩ := bind_eq_ok.mp h
    obtain ⟨_, hnew, hnext⟩ := bind_eq_ok.mp hnext
    rw [getOrMakeAccountImpl_true] at hnext
    cases hnext
    rw [loadedAt_concat] at h
    obtain ⟨haccounts, hdistinct⟩ := ih (nodup_concat hnodup (require_eq_ok.mp hnew)) h
    rw [append_assoc] at haccounts hdistinct
    exact ⟨haccounts, hdistinct⟩

theorem lookup_replace (accounts : Accounts) {addr a : Address} (ha : a ≠ addr) (acc : Account) :
    (accounts.map fun p => if p.1 = addr then (addr, acc) else p).lookup a = accounts.lookup a := by
  induction accounts with
  | nil => rfl
  | cons p accounts ih =>
    obtain ⟨b, old⟩ := p
    rw [map_cons]
    by_cases hb : b = addr
    · have hne : (a == addr) = false := by simpa using ha
      rw [if_pos hb, lookup_cons, hne, hb, lookup_cons, hne]
      exact ih
    · rw [if_neg hb, lookup_cons, lookup_cons, ih]

theorem exists_foldlM_adjust {ι : Type} (addr : ι → Address)
    (change : ι → Account → Option Account) (new : ι → Account) (is : List ι)
    (hnodup : (is.map addr).Nodup) (s : StoreView × Accounts)
    (h : ∀ i ∈ is, ∃ acc, s.2.lookup (addr i) = some acc ∧ change i acc = some (new i)) :
    ∃ s', is.foldlM (fun s i => adjust (change i) s (addr i)) s = some s' ∧
      (∀ i ∈ is, s'.1.getAccount (addr i) = some (new i)) ∧
      (∀ a, a ∉ is.map addr →
        s'.1.getAccount a = s.1.getAccount a ∧ s'.2.lookup a = s.2.lookup a) ∧
      s'.1.totalTFuel = s.1.totalTFuel +
        (is.map fun i => ((new i).tfuelWei : Int) - s.1.getBalance (addr i)).sum := by
  induction is generalizing s with
  | nil => exact ⟨s, rfl, by simp, fun a _ => ⟨rfl, rfl⟩, by simp⟩
  | cons i is ih =>
    rw [map_cons, nodup_cons] at hnodup
    obtain ⟨hnot, hnodup⟩ := hnodup
    obtain ⟨acc, hacc, hchange⟩ := h i mem_cons_self
    set t : StoreView × Accounts := (s.1.setAccount (addr i) (new i),
      s.2.map fun p => if p.1 = addr i then (addr i, new i) else p) with ht
    have hround : adjust (change i) s (addr i) = some t := by
      rw [adjust, hacc]
      show (change i acc).bind _ = some t
      rw [hchange]
      rfl
    -- the other addresses are as they were
    have hview : ∀ a, a ≠ addr i → t.1.getAccount a = s.1.getAccount a :=
      fun a ha => (getAccount_setAccount ..).trans (if_neg ha)
    have hne : ∀ j ∈ is, addr j ≠ addr i :=
      fun j hj => ne_of_mem_of_not_mem (mem_map_of_mem hj) hnot
    obtain ⟨s', hs', hwritten, hother, htotal⟩ := ih hnodup t (by
      intro j hj
      obtain ⟨acc', hacc', hchange'⟩ := h j (mem_cons_of_mem i hj)
      exact ⟨acc', (lookup_replace s.2 (hne j hj) (new i)).trans hacc', hchange'⟩)
    refine ⟨s', ?_, ?_, ?_, ?_⟩
    · rw [foldlM_cons, hround]
      exact hs'
    · intro j hj
      rcases mem_cons.mp hj with rfl | hj
      · rw [(hother (addr j) hnot).1]
        exact (getAccount_setAccount ..).trans (if_pos rfl)
      · exact hwritten j hj
    · intro a ha
      rw [map_cons, mem_cons, not_or] at ha
      obtain ⟨hfirst, hrest⟩ := hother a ha.2
      exact ⟨hfirst.trans (hview a ha.1), hrest.trans (lookup_replace s.2 ha.1 (new i))⟩
    · have hsame : (is.map fun j => ((new j).tfuelWei : Int) - t.1.getBalance (addr j)) =
          is.map fun j => ((new j).tfuelWei : Int) - s.1.getBalance (addr j) := by
        apply map_congr_left
        intro j hj
        rw [getBalance_of_getAccount (hview _ (hne j hj))]
      rw [htotal, hsame, map_cons, sum_cons]
      show (s.1.setAccount (addr i) (new i)).totalTFuel + _ = _
      rw [totalTFuel_setAccount]
      ring

theorem tfuel_sumOutputs (outs : List TxOutput) :
    (sumOutputs outs).tfuel = (outs.map fun o => o.coins.tfuel).sum := by
  have hgen : ∀ (outs : List TxOutput) (c : Coins),
      (outs.foldl (fun total out => total.plus out.coins) c).tfuel =
        c.tfuel + (outs.map fun o => o.coins.tfuel).sum := by
    intro outs
    induction outs with
    | nil => simp
    | cons o outs ih =>
      intro c
      rw [foldl_cons, ih, map_cons, sum_cons]
      show c.tfuel + o.coins.tfuel + _ = _
      ring
  exact (hgen outs ⟨some 0, some 0⟩).trans (zero_add _)

theorem validateInputAdvanced_eq_ok {acc : Account} {signBytes : Bytes} {input : TxInput}
    {blockHeight : UInt64} (h : x.validateInputAdvanced acc signBytes input blockHeight = .ok ()) :
    acc.sequence + 1 = input.sequence ∧ acc.isGTE input.coins = true := by
  obtain ⟨_, hseq, h⟩ := bind_eq_ok.mp h
  obtain ⟨_, hgte, -⟩ := bind_eq_ok.mp h
  exact ⟨by simpa using require_eq_ok.mp hseq, require_eq_ok.mp hgte⟩

theorem validateInputsAdvanced_eq_ok {signBytes : Bytes} {ins : List TxInput} {blockHeight : UInt64}
    {total : Coins} (h : x.validateInputsAdvanced accounts signBytes ins blockHeight = .ok total) :
    total.tfuel = (ins.map fun i => i.coins.tfuel).sum ∧
      ∀ i ∈ ins, ∃ acc, accounts.lookup i.address = some acc ∧
        acc.sequence + 1 = i.sequence ∧ acc.isGTE i.coins = true := by
  suffices hgen : ∀ (ins : List TxInput) (c : Coins),
      (ins.foldlM (fun total input => do
        let acc ← deref (accounts.lookup input.address)
        x.validateInputAdvanced acc signBytes input blockHeight
        pure (total.plus input.coins)) c : CheckM Coins) = .ok total →
      total.tfuel = c.tfuel + (ins.map fun i => i.coins.tfuel).sum ∧
        ∀ i ∈ ins, ∃ acc, accounts.lookup i.address = some acc ∧
          acc.sequence + 1 = i.sequence ∧ acc.isGTE i.coins = true by
    obtain ⟨htotal, hall⟩ := hgen ins _ h
    exact ⟨htotal.trans (zero_add _), hall⟩
  intro ins
  induction ins with
  | nil =>
    intro c h
    cases h
    simp
  | cons i ins ih =>
    intro c h
    obtain ⟨next, hnext, h⟩ := bind_eq_ok.mp h
    obtain ⟨acc, hacc, hnext⟩ := bind_eq_ok.mp hnext
    obtain ⟨_, hvalid, hnext⟩ := bind_eq_ok.mp hnext
    cases hnext
    have hlookup : accounts.lookup i.address = some acc := by
      cases hl : accounts.lookup i.address with
      | none =>
        rw [hl] at hacc
        cases hacc
      | some acc' =>
        rw [hl] at hacc
        cases hacc
        rfl
    obtain ⟨htotal, hall⟩ := ih _ h
    refine ⟨?_, forall_mem_cons.mpr ⟨⟨acc, hlookup, validateInputAdvanced_eq_ok hvalid⟩, hall⟩⟩
    rw [htotal, map_cons, sum_cons]
    show c.tfuel + i.coins.tfuel + _ = _
    ring

structure SendChecked (x : Executor) (view : StoreView) (tx : SendTx) : Prop where
  inputs : ∀ i ∈ tx.inputs, (x.lib.validateInput i).isError = false ∧ i.coins.theta = 0
  outputs : ∀ o ∈ tx.outputs, (x.lib.validateOutput o).isError = false
  accounts : (do
      let accounts ← x.getInputs view tx.inputs
      x.getOrMakeOutputs view accounts tx.outputs) =
    .ok (x.loadedAt view (tx.inputs.map TxInput.address ++ tx.outputs.map TxOutput.address))
  distinct : (tx.inputs.map TxInput.address ++ tx.outputs.map TxOutput.address).Nodup
  known : ∀ i ∈ tx.inputs, (view.getAccount i.address).isSome
  funded : ∀ i ∈ tx.inputs, (x.loaded view i.address).sequence + 1 = i.sequence ∧
    (x.loaded view i.address).isGTE i.coins = true
  balanced : (tx.inputs.map fun i => i.coins.tfuel).sum =
    (tx.outputs.map fun o => o.coins.tfuel).sum + tx.fee.tfuel

theorem sendChecked_of_sanityCheck {tx : SendTx} (h : x.sanityCheckSend view tx = .ok ()) :
    x.SendChecked view tx := by
  obtain ⟨_, hins, h⟩ := bind_eq_ok.mp h
  obtain ⟨_, houts, h⟩ := bind_eq_ok.mp h
  obtain ⟨_, -, h⟩ := bind_eq_ok.mp h
  obtain ⟨_, -, h⟩ := bind_eq_ok.mp h
  obtain ⟨accounts, haccounts, h⟩ := bind_eq_ok.mp h
  obtain ⟨_, -, h⟩ := bind_eq_ok.mp h
  obtain ⟨accounts', haccounts', h⟩ := bind_eq_ok.mp h
  obtain ⟨_, -, h⟩ := bind_eq_ok.mp h
  obtain ⟨total, htotal, h⟩ := bind_eq_ok.mp h
  obtain ⟨_, -, hequal⟩ := bind_eq_ok.mp h
  obtain ⟨rfl, hdistinct, hknown⟩ := getInputs_eq_ok haccounts
  obtain ⟨rfl, hall⟩ := getOrMakeOutputs_eq_ok hdistinct haccounts'
  obtain ⟨hsum, hfunded⟩ := validateInputsAdvanced_eq_ok htotal
  refine ⟨?_, ?_, ?_, hall, hknown, ?_, ?_⟩
  · intro i hi
    obtain ⟨_, hvalid, htheta⟩ := bind_eq_ok.mp (forM_eq_ok.mp hins i hi)
    exact ⟨checked_eq_ok.mp hvalid, by simpa using require_eq_ok.mp htheta⟩
  · intro o ho
    exact checked_eq_ok.mp (forM_eq_ok.mp houts o ho)
  · rw [haccounts]
    exact haccounts'
  · intro i hi
    obtain ⟨acc, hacc, hfund⟩ := hfunded i hi
    rw [lookup_loadedAt, if_pos (by simp only [mem_append, mem_map]; exact .inl ⟨i, hi, rfl⟩)]
      at hacc
    cases hacc
    exact hfund
  · have heq := require_eq_ok.mp hequal
    simp only [Coins.isEqual, Bool.and_eq_true, beq_iff_eq] at heq
    rw [← hsum, ← tfuel_sumOutputs]
    exact heq.2

def paidAccount (x : Executor) (view : StoreView) (i : TxInput) : Account :=
  { x.loaded view i.address with
    thetaWei := ((x.loaded view i.address).thetaWei - i.coins.theta).toNat
    tfuelWei := ((x.loaded view i.address).tfuelWei - i.coins.tfuel).toNat
    sequence := (x.loaded view i.address).sequence + 1 }

def creditedAccount (x : Executor) (view : StoreView) (o : TxOutput) : Account :=
  { x.loaded view o.address with
    thetaWei := ((x.loaded view o.address).thetaWei + o.coins.theta).toNat
    tfuelWei := ((x.loaded view o.address).tfuelWei + o.coins.tfuel).toNat }

theorem adjustByInput_loaded {i : TxInput} (h : (x.loaded view i.address).isGTE i.coins = true) :
    adjustByInput i (x.loaded view i.address) = some (x.paidAccount view i) := by
  have hle := h
  simp only [Account.isGTE, Bool.and_eq_true, decide_eq_true_eq] at hle
  rw [adjustByInput, if_pos h, Account.minus, Account.setBalance, if_pos (by omega)]
  rfl

theorem plus_loaded {o : TxOutput} (h : o.coins.isNonnegative) :
    (x.loaded view o.address).plus o.coins = some (x.creditedAccount view o) := by
  simp only [Coins.isNonnegative, Bool.and_eq_true, decide_eq_true_eq] at h
  rw [Account.plus, Account.setBalance, if_pos (by omega)]
  rfl

theorem loaded_eq (hlib : x.lib.Lawful) (htheta : view.NoTheta) (addr : Address) :
    ∃ updated, x.loaded view addr =
      { view.getOrCreateAccount addr with lastUpdatedBlockHeight := updated } := by
  unfold loaded getOrCreateAccount
  cases hacc : view.getAccount addr with
  | none =>
    obtain ⟨updated, heq⟩ := hlib.updateToHeight view.height
      { Account.new addr with lastUpdatedBlockHeight := view.height } rfl
    exact ⟨updated, heq⟩
  | some acc =>
    obtain ⟨updated, heq⟩ := hlib.updateToHeight view.height acc (htheta addr acc hacc)
    exact ⟨updated, heq⟩

theorem tfuelWei_loaded (hlib : x.lib.Lawful) (htheta : view.NoTheta) (addr : Address) :
    ((x.loaded view addr).tfuelWei : Int) = view.getBalance addr := by
  obtain ⟨updated, heq⟩ := loaded_eq hlib htheta addr
  rw [heq]
  rfl

theorem exists_processSend (hlib : x.lib.Lawful) {tx : SendTx} (h : x.SendChecked view tx) :
    ∃ view', x.processSend view tx = .ok ⟨view', .ok, none⟩ ∧
      (∀ i ∈ tx.inputs, view'.getAccount i.address = some (x.paidAccount view i)) ∧
      (∀ o ∈ tx.outputs, view'.getAccount o.address = some (x.creditedAccount view o)) ∧
      (∀ a, a ∉ tx.inputs.map address → a ∉ tx.outputs.map TxOutput.address →
        view'.getAccount a = view.getAccount a) ∧
      view'.totalTFuel = view.totalTFuel +
        (tx.inputs.map fun i => ((x.paidAccount view i).tfuelWei : Int) -
          view.getBalance i.address).sum +
        (tx.outputs.map fun o => ((x.creditedAccount view o).tfuelWei : Int) -
          view.getBalance o.address).sum := by
  set addrs := tx.inputs.map address ++ tx.outputs.map TxOutput.address with haddrs
  obtain ⟨hinNodup, houtNodup, hdisjoint⟩ := nodup_append.mp h.distinct
  have hlookup : ∀ a ∈ addrs, (x.loadedAt view addrs).lookup a = some (x.loaded view a) :=
    fun a ha => (lookup_loadedAt addrs a).trans (if_pos ha)
  obtain ⟨s, hs, hpaid, hotherIn, htotalIn⟩ := exists_foldlM_adjust address adjustByInput
    (x.paidAccount view) tx.inputs hinNodup (view, x.loadedAt view addrs) (by
      intro i hi
      have hmem : i.address ∈ addrs := mem_append_left _ (mem_map_of_mem hi)
      exact ⟨_, hlookup _ hmem, adjustByInput_loaded (h.funded i hi).2⟩)
  have hout : ∀ o ∈ tx.outputs, o.address ∉ tx.inputs.map address := by
    intro o ho hmem
    exact hdisjoint _ hmem _ (mem_map_of_mem ho) rfl
  obtain ⟨t, ht, hcredited, hotherOut, htotalOut⟩ := exists_foldlM_adjust TxOutput.address
    (fun o => (Account.plus · o.coins)) (x.creditedAccount view) tx.outputs houtNodup s (by
      intro o ho
      have hmem : o.address ∈ addrs := mem_append_right _ (mem_map_of_mem ho)
      refine ⟨_, (hotherIn _ (hout o ho)).2.trans (hlookup _ hmem), ?_⟩
      exact plus_loaded (hlib.validateOutput o (h.outputs o ho)))
  refine ⟨t.1, ?_, ?_, hcredited, ?_, ?_⟩
  · have hadjust : (adjustByInputs (view, x.loadedAt view addrs) tx.inputs).bind
        (adjustByOutputs · tx.outputs) = some t := by
      show Option.bind (tx.inputs.foldlM _ _) _ = _
      rw [hs]
      exact ht
    unfold processSend
    dsimp only
    rw [h.accounts]
    dsimp only
    rw [hadjust]
  · intro i hi
    have hnot : i.address ∉ tx.outputs.map TxOutput.address := by
      intro hmem
      exact hdisjoint _ (mem_map_of_mem hi) _ hmem rfl
    rw [(hotherOut _ hnot).1]
    exact hpaid i hi
  · intro a hin hout
    rw [(hotherOut a hout).1, (hotherIn a hin).1]
  · have hsame : (tx.outputs.map fun o => ((x.creditedAccount view o).tfuelWei : Int) -
        s.1.getBalance o.address) = tx.outputs.map fun o =>
          ((x.creditedAccount view o).tfuelWei : Int) - view.getBalance o.address := by
      apply map_congr_left
      intro o ho
      rw [getBalance_of_getAccount (hotherIn _ (hout o ho)).1]
    rw [htotalOut, hsame, htotalIn]

/-- What a send transaction does to a state, in coins.  Balances are natural numbers, so no
amount that is taken exceeds the balance it is taken from. -/
structure Sends (tx : SendTx) (view view' : StoreView) : Prop where
  total : view'.totalTFuel = view.totalTFuel - tx.fee.tfuel
  input : ∀ i ∈ tx.inputs, ∃ acc acc',
    view.getAccount i.address = some acc ∧ view'.getAccount i.address = some acc' ∧
      (acc'.tfuelWei : Int) = acc.tfuelWei - i.coins.tfuel ∧
      (acc'.thetaWei : Int) = acc.thetaWei - i.coins.theta ∧
      acc'.sequence = acc.sequence + 1
  output : ∀ o ∈ tx.outputs, ∃ acc', view'.getAccount o.address = some acc' ∧
    (acc'.tfuelWei : Int) = view.getBalance o.address + o.coins.tfuel ∧
    (acc'.thetaWei : Int) = (view.getOrCreateAccount o.address).thetaWei + o.coins.theta ∧
    acc'.sequence = view.getNonce o.address
  others : ∀ a, a ∉ tx.inputs.map TxInput.address → a ∉ tx.outputs.map TxOutput.address →
    view'.getAccount a = view.getAccount a

/-- A send transaction that passes its check is processed on the same view without an error,
and moves exactly the coins it names. -/
theorem send_conserves (x : Executor) (hlib : x.lib.Lawful) (view : StoreView)
    (htheta : view.NoTheta) (tx : SendTx) (hcheck : x.sanityCheckSend view tx = .ok ()) :
    ∃ view', x.processSend view tx = .ok ⟨view', .ok, none⟩ ∧ Sends tx view view' := by
  have h := sendChecked_of_sanityCheck hcheck
  obtain ⟨view', hprocess, hin, hout, hothers, htotal⟩ := exists_processSend hlib h
  -- what the inputs pay and the outputs receive
  have hpaid : ∀ i ∈ tx.inputs,
      ((x.paidAccount view i).tfuelWei : Int) = view.getBalance i.address - i.coins.tfuel ∧
      ((x.paidAccount view i).thetaWei : Int) =
        (x.loaded view i.address).thetaWei - i.coins.theta := by
    intro i hi
    have hgte := (h.funded i hi).2
    simp only [Account.isGTE, Bool.and_eq_true, decide_eq_true_eq] at hgte
    rw [← tfuelWei_loaded hlib htheta]
    exact ⟨Int.toNat_of_nonneg (by omega), Int.toNat_of_nonneg (by omega)⟩
  have hcredited : ∀ o ∈ tx.outputs,
      ((x.creditedAccount view o).tfuelWei : Int) = view.getBalance o.address + o.coins.tfuel ∧
      ((x.creditedAccount view o).thetaWei : Int) =
        (x.loaded view o.address).thetaWei + o.coins.theta := by
    intro o ho
    have hnonneg := hlib.validateOutput o (h.outputs o ho)
    simp only [Coins.isNonnegative, Bool.and_eq_true, decide_eq_true_eq] at hnonneg
    rw [← tfuelWei_loaded hlib htheta]
    exact ⟨Int.toNat_of_nonneg (by omega), Int.toNat_of_nonneg (by omega)⟩
  refine ⟨view', hprocess, ?_, ?_, ?_, hothers⟩
  · have hins : (tx.inputs.map fun i => ((x.paidAccount view i).tfuelWei : Int) -
        view.getBalance i.address) =
          (tx.inputs.map fun i => i.coins.tfuel).map fun c => -c := by
      rw [map_map]
      apply map_congr_left
      intro i hi
      show _ = -i.coins.tfuel
      rw [(hpaid i hi).1]
      ring
    have houts : (tx.outputs.map fun o => ((x.creditedAccount view o).tfuelWei : Int) -
        view.getBalance o.address) = tx.outputs.map fun o => o.coins.tfuel := by
      apply map_congr_left
      intro o ho
      rw [(hcredited o ho).1]
      ring
    rw [htotal, hins, houts, ← sum_neg, h.balanced]
    ring
  · intro i hi
    obtain ⟨acc, hacc⟩ := Option.isSome_iff_exists.mp (h.known i hi)
    obtain ⟨updated, hloaded⟩ := loaded_eq hlib htheta i.address
    have hcreated : view.getOrCreateAccount i.address = acc := by
      rw [getOrCreateAccount, hacc]
      rfl
    rw [hcreated] at hloaded
    refine ⟨acc, x.paidAccount view i, hacc, hin i hi, ?_, ?_, ?_⟩
    · rw [(hpaid i hi).1, getBalance_of_some hacc]
    · rw [(hpaid i hi).2, hloaded]
    · show (x.loaded view i.address).sequence + 1 = _
      rw [hloaded]
  · intro o ho
    obtain ⟨updated, hloaded⟩ := loaded_eq hlib htheta o.address
    refine ⟨x.creditedAccount view o, hout o ho, (hcredited o ho).1, ?_, ?_⟩
    · rw [(hcredited o ho).2, hloaded]
    · show (x.loaded view o.address).sequence = _
      rw [hloaded]
      rfl

end Executor

def sendExecutor : Executor :=
  { plainExecutor [] (fun _ => none) (ValidatorSet.new 0) with lib := strictTxLibrary }

def sendView : StoreView where
  height := 4
  store := { account := fun a => if a = 1 then some { address := 1, tfuelWei := 100 } else none }

def sampleSend : SendTx where
  fee := ⟨some 0, some 2⟩
  inputs :=
    [{ address := 1, coins := ⟨some 0, some 32⟩, sequence := 1, signature := some ⟨[1]⟩ }]
  outputs := [⟨2, ⟨some 0, some 25⟩⟩, ⟨3, ⟨some 0, some 5⟩⟩]

theorem sendView_noTheta : sendView.NoTheta := by
  intro addr acc h
  simp only [getAccount, sendView] at h
  split at h
  · cases h
    rfl
  · cases h

theorem send_conserves_sample :
    sendExecutor.sanityCheckSend sendView sampleSend = .ok () ∧
      ∃ view', sendExecutor.processSend sendView sampleSend = .ok ⟨view', .ok, none⟩ ∧
        Executor.Sends sampleSend sendView view' := by
  have hcheck : sendExecutor.sanityCheckSend sendView sampleSend = .ok () := by decide
  exact ⟨hcheck, Executor.send_conserves sendExecutor lawful_strictTxLibrary sendView
    sendView_noTheta sampleSend hcheck⟩

end ThetaSubchain
