/-
The history of the dynasties (ledger/state/keys.go, storeview.go).

The state holds the current validators and, under the chain and the dynasty, those of every dynasty
so far.
-/
import ThetaSubchain.Ledger.Screen
import ThetaSubchain.Snapshot.File

namespace ThetaSubchain

open Ending

inductive StateKey where
  | account (addr : Address)
  | code (codeHash : Hash)
  | currentValidatorSet
  | validatorSetForChainDuringDynasty (chainID dynasty : Int)
  | validatorSetUpdateTxHeightList
  | chainRegistrarContractAddress
  | tokenBankContractAddress (t : TokenType)
deriving DecidableEq

inductive StateValue where
  | account (acc : Account)
  | code (code : Bytes)
  | validatorSet (vs : ValidatorSet)
  | heights (heights : List UInt64)
  | address (addr : Address)

namespace StateKey

def ascii (s : String) : Bytes := s.toUTF8.toList

def bytes : StateKey → Bytes
  | .account addr => ascii "ls/a/" ++ Rlp.fixedBytes 20 addr.toNat
  | .code codeHash => ascii "ls/ch/" ++ Rlp.fixedBytes 32 codeHash.toNat
  | .currentValidatorSet => currentValidatorSetKey
  | .validatorSetForChainDuringDynasty chainID dynasty =>
    ascii "ls/vscd/" ++ (Decimal.ofInt chainID ++ 47 :: Decimal.ofInt dynasty)
  | .validatorSetUpdateTxHeightList => validatorSetUpdateTxHeightListKey
  | .chainRegistrarContractAddress => ascii "ls/trca"
  | .tokenBankContractAddress .tfuel => ascii "ls/tbca/tfuel"
  | .tokenBankContractAddress .tnt20 => ascii "ls/tbca/tnt20"
  | .tokenBankContractAddress .tnt721 => ascii "ls/tbca/tnt721"
  | .tokenBankContractAddress .tnt1155 => ascii "ls/tbca/tnt1155"

def familyOf : Bytes → Nat
  | [_, _, _, 118, 115] => 2
  | _ :: _ :: _ :: 97 :: _ => 0
  | _ :: _ :: _ :: 99 :: _ => 1
  | _ :: _ :: _ :: 118 :: _ => 3
  | _ :: _ :: _ :: 115 :: _ => 4
  | _ :: _ :: _ :: 116 :: 114 :: _ => 5
  | _ => 6

def family : StateKey → Nat
  | .account _ => 0
  | .code _ => 1
  | .currentValidatorSet => 2
  | .validatorSetForChainDuringDynasty _ _ => 3
  | .validatorSetUpdateTxHeightList => 4
  | .chainRegistrarContractAddress => 5
  | .tokenBankContractAddress _ => 6

theorem ascii_starts : ascii "ls/a/" = [108, 115, 47, 97, 47] ∧
    ascii "ls/ch/" = [108, 115, 47, 99, 104, 47] ∧
    ascii "ls/vscd/" = [108, 115, 47, 118, 115, 99, 100, 47] ∧
    ascii "ls/ssc/split/" = [108, 115, 47, 115, 115, 99, 47, 115, 112, 108, 105, 116, 47] ∧
    accountKeyStart = [108, 115, 47, 97] := by
  decide +kernel

theorem familyOf_bytes (key : StateKey) : familyOf key.bytes = key.family := by
  obtain ⟨haccount, hcode, hvalidators, -⟩ := ascii_starts
  cases key with
  | account addr =>
    rw [bytes, haccount]
    rfl
  | code codeHash =>
    rw [bytes, hcode]
    rfl
  | validatorSetForChainDuringDynasty chainID dynasty =>
    rw [bytes, hvalidators]
    rfl
  | currentValidatorSet => decide +kernel
  | validatorSetUpdateTxHeightList => decide +kernel
  | chainRegistrarContractAddress => decide +kernel
  | tokenBankContractAddress t => cases t <;> decide +kernel

theorem bankKey_injective {t t' : TokenType}
    (h : (tokenBankContractAddress t).bytes = (tokenBankContractAddress t').bytes) : t = t' := by
  revert h
  cases t <;> cases t' <;> decide +kernel

theorem slash_not_mem (n : Int) : (47 : UInt8) ∉ Decimal.ofInt n := by
  intro h
  have := Decimal.mem_ofInt h
  revert this
  decide

theorem bytes_injective : Function.Injective bytes := by
  intro key key' h
  have hfamily : key.family = key'.family := by
    rw [← familyOf_bytes, ← familyOf_bytes, h]
  cases key with
  | account addr =>
    cases key' with
    | account addr' =>
      have heq := Rlp.fixedBytes_inj addr.isLt addr'.isLt (List.append_cancel_left h)
      rw [BitVec.eq_of_toNat_eq heq]
    | _ => exact absurd hfamily (by simp [family])
  | code codeHash =>
    cases key' with
    | code codeHash' =>
      have heq := Rlp.fixedBytes_inj codeHash.isLt codeHash'.isLt (List.append_cancel_left h)
      rw [BitVec.eq_of_toNat_eq heq]
    | _ => exact absurd hfamily (by simp [family])
  | validatorSetForChainDuringDynasty chainID dynasty =>
    cases key' with
    | validatorSetForChainDuringDynasty chainID' dynasty' =>
      obtain ⟨hchain, hdynasty⟩ := Decimal.append_sep_inj (slash_not_mem chainID)
        (slash_not_mem chainID') (List.append_cancel_left h)
      rw [Decimal.ofInt_injective hchain, Decimal.ofInt_injective hdynasty]
    | _ => exact absurd hfamily (by simp [family])
  | tokenBankContractAddress t =>
    cases key' with
    | tokenBankContractAddress t' => rw [bankKey_injective h]
    | _ => exact absurd hfamily (by simp [family])
  | currentValidatorSet => cases key' <;> first | rfl | exact absurd hfamily (by simp [family])
  | validatorSetUpdateTxHeightList =>
    cases key' <;> first | rfl | exact absurd hfamily (by simp [family])
  | chainRegistrarContractAddress =>
    cases key' <;> first | rfl | exact absurd hfamily (by simp [family])

end StateKey

inductive LedgerKey where
  | state (key : StateKey)
  | chainID
  | splitRule (resourceID : Bytes)
  | statePruningProgress

namespace LedgerKey

open StateKey (ascii)

def bytes : LedgerKey → Bytes
  | .state key => key.bytes
  | .chainID => ascii "chainid"
  | .splitRule resourceID => ascii "ls/ssc/split/" ++ resourceID
  | .statePruningProgress => ascii "ls/spp"

def kindOf : Bytes → Nat
  | 99 :: _ => 1
  | _ :: _ :: _ :: 115 :: 115 :: _ => 2
  | _ :: _ :: _ :: 115 :: 112 :: _ => 3
  | _ => 0

def kind : LedgerKey → Nat
  | .state _ => 0
  | .chainID => 1
  | .splitRule _ => 2
  | .statePruningProgress => 3

theorem kindOf_bytes (key : LedgerKey) : kindOf key.bytes = key.kind := by
  obtain ⟨haccount, hcode, hvalidators, hsplit, -⟩ := StateKey.ascii_starts
  cases key with
  | state key =>
    rw [bytes]
    cases key with
    | account addr =>
      rw [StateKey.bytes, haccount]
      rfl
    | code codeHash =>
      rw [StateKey.bytes, hcode]
      rfl
    | validatorSetForChainDuringDynasty chainID dynasty =>
      rw [StateKey.bytes, hvalidators]
      rfl
    | tokenBankContractAddress t => cases t <;> decide +kernel
    | _ => decide +kernel
  | splitRule resourceID =>
    rw [bytes, hsplit]
    rfl
  | _ => decide +kernel

theorem bytes_injective : Function.Injective bytes := by
  intro key key' h
  have hkind : key.kind = key'.kind := by rw [← kindOf_bytes, ← kindOf_bytes, h]
  cases key with
  | state key =>
    cases key' with
    | state key' => rw [StateKey.bytes_injective h]
    | _ => cases hkind
  | splitRule resourceID =>
    cases key' with
    | splitRule resourceID' => rw [List.append_cancel_left h]
    | _ => cases hkind
  | chainID => cases key' <;> first | rfl | cases hkind
  | statePruningProgress => cases key' <;> first | rfl | cases hkind

/-- Keys do not collide, and a key that starts like an account's is one: the scans of `copyState`
and of the snapshots find the accounts and nothing else. -/
theorem keys_never_collide :
    Function.Injective LedgerKey.bytes ∧
      ∀ key : LedgerKey, accountKeyStart.isPrefixOf key.bytes = true ↔
        ∃ addr, key = .state (.account addr) := by
  obtain ⟨haccount, -, -, hsplit, hstart⟩ := StateKey.ascii_starts
  refine ⟨bytes_injective, fun key => ⟨fun h => ?_, ?_⟩⟩
  · cases key with
    | state key =>
      obtain ⟨rest, hrest⟩ := List.isPrefixOf_iff_prefix.1 h
      have hfamily : key.family = 0 := by
        rw [← StateKey.familyOf_bytes]
        rw [hstart] at hrest
        rw [bytes] at hrest
        rw [← hrest]
        rfl
      cases key with
      | account addr => exact ⟨addr, rfl⟩
      | _ => cases hfamily
    | splitRule resourceID =>
      rw [bytes, hsplit, hstart] at h
      cases h
    | _ => exact absurd h (by decide +kernel)
  · rintro ⟨addr, rfl⟩
    rw [bytes, StateKey.bytes, haccount, hstart]
    rfl

end LedgerKey

namespace LedgerContent

def value (content : LedgerContent) : StateKey → Option StateValue
  | .account addr => (content.account addr).map .account
  | .code codeHash =>
    if (content.code codeHash).isEmpty then none else some (.code (content.code codeHash))
  | .currentValidatorSet => content.validatorSet.map .validatorSet
  | .validatorSetForChainDuringDynasty chainID dynasty =>
    (content.validatorSetDuring chainID dynasty).map .validatorSet
  | .validatorSetUpdateTxHeightList => content.updateTxHeights.map .heights
  | .chainRegistrarContractAddress => content.chainRegistrar.map .address
  | .tokenBankContractAddress t => (content.getTokenBankContractAddress t).map .address

open Classical in
noncomputable def trie (content : LedgerContent) (bytes : Bytes) : Option StateValue :=
  if h : ∃ key : StateKey, key.bytes = bytes then content.value h.choose else none

theorem trie_bytes (content : LedgerContent) (key : StateKey) :
    content.trie key.bytes = content.value key := by
  have h : ∃ key' : StateKey, key'.bytes = key.bytes := ⟨key, rfl⟩
  rw [trie, dif_pos h, StateKey.bytes_injective h.choose_spec]

/-! ## What an update does to the records -/

structure SameRecords (content content' : LedgerContent) : Prop where
  current : content'.validatorSet = content.validatorSet
  during : content'.validatorSetDuring = content.validatorSetDuring

/-- The validators that the witness knows for the dynasty of the update are the new ones, and
the dynasty is later than the one before. -/
def Installs (x : Executor) (update : SubchainValidatorSetUpdateTx)
    (content content' : LedgerContent) : Prop :=
  ∃ vs witnessed, content.validatorSet = some vs ∧ vs.dynasty < update.dynasty ∧
    x.getValidatorSetByDynasty update.dynasty = some witnessed ∧
    witnessed.dynasty = update.dynasty ∧ content'.validatorSet = some witnessed ∧
    content'.validatorSetDuring = fun c d =>
      if c = x.selfChainID ∧ d = update.dynasty then some witnessed
      else content.validatorSetDuring c d

theorem SameRecords.refl (content : LedgerContent) : SameRecords content content := ⟨rfl, rfl⟩

variable {c₁ c₂ c₃ : LedgerContent}

theorem SameRecords.trans (h : SameRecords c₁ c₂) (h' : SameRecords c₂ c₃) : SameRecords c₁ c₃ :=
  ⟨h'.current.trans h.current, h'.during.trans h.during⟩

theorem SameRecords.installs {x : Executor} {update : SubchainValidatorSetUpdateTx}
    (h : SameRecords c₁ c₂) (h' : Installs x update c₂ c₃) : Installs x update c₁ c₃ := by
  obtain ⟨vs, witnessed, hvs, hlater, hwitness, hdynasty, hset, hduring⟩ := h'
  rw [h.current] at hvs
  rw [h.during] at hduring
  exact ⟨vs, witnessed, hvs, hlater, hwitness, hdynasty, hset, hduring⟩

theorem Installs.sameRecords {x : Executor} {update : SubchainValidatorSetUpdateTx}
    (h : Installs x update c₁ c₂) (h' : SameRecords c₂ c₃) : Installs x update c₁ c₃ := by
  obtain ⟨vs, witnessed, hvs, hlater, hwitness, hdynasty, hset, hduring⟩ := h
  exact ⟨vs, witnessed, hvs, hlater, hwitness, hdynasty, h'.current.trans hset,
    h'.during.trans hduring⟩

end LedgerContent

open LedgerContent (SameRecords Installs)

namespace Executor

variable {x : Executor} {pos : Position} {sel : ViewSelector} {view : StoreView}

theorem sameRecords_of_system {v w : StoreView} (h : w.system = v.system) :
    SameRecords v.store w.store ∧
      w.subchainValidatorSetTransactinProcessed = v.subchainValidatorSetTransactinProcessed := by
  have hcontent : w.system.store = v.system.store := congrArg StoreView.store h
  refine ⟨⟨?_, ?_⟩, ?_⟩
  · show w.system.store.validatorSet = v.system.store.validatorSet
    rw [hcontent]
  · show w.system.store.validatorSetDuring = v.system.store.validatorSetDuring
    rw [hcontent]
  · show w.system.subchainValidatorSetTransactinProcessed = _
    rw [h]
    rfl

variable {out : Outcome}

theorem installs_processUpdate {tx : SubchainValidatorSetUpdateTx}
    (h : x.processValidatorSetUpdate view tx = .ok out) (hok : out.result.isOK) :
    view.subchainValidatorSetTransactinProcessed = false ∧
      out.view.subchainValidatorSetTransactinProcessed = true ∧
      Installs x tx view.store out.view.store := by
  obtain ⟨hsame, -⟩ := sameRecords_of_system (system_makeValidatorAccounts tx.validators view)
  cases updateOutcome h with
  | again => cases hok
  | older => cases hok
  | undecided => cases hok
  | differs => cases hok
  | @installed d witnessed hflag hd hlater hwitness hequals =>
    have hset : newValidatorSet tx = witnessed := ValidatorSet.eq_of_equals hequals
    have hdynasty : witnessed.dynasty = tx.dynasty := by
      rw [← hset]
      exact dynasty_newValidatorSet tx
    obtain ⟨vs, hvs, rfl⟩ := Option.map_eq_some_iff.mp hd
    refine ⟨hflag, rfl, hsame.installs ⟨vs, witnessed, ?_, by omega, hwitness, hdynasty, ?_, ?_⟩⟩
    · exact (StoreView.validatorSet_eq_of_system (system_makeValidatorAccounts _ view)).trans hvs
    · rw [← hset]
      rfl
    · rw [← hset] at hdynasty ⊢
      show (fun c d => if c = x.selfChainID ∧ d = (newValidatorSet tx).dynasty then _ else _) = _
      rw [hdynasty]

theorem sameRecords_processTx {tx : Tx} (h : x.processTx pos sel view tx = .ok out)
    (hok : out.result.isOK) (hkind : isValidatorSetUpdate tx = false) :
    SameRecords view.store out.view.store ∧
      out.view.subchainValidatorSetTransactinProcessed =
        view.subchainValidatorSetTransactinProcessed := by
  cases txOutcome h with
  | refused => cases hok
  | coinbase => exact ⟨.refl _, rfl⟩
  | update => cases hkind
  | send h => exact sameRecords_of_system h.system
  | contract _ hexec h => exact sameRecords_of_system (system_contract hexec h)

theorem installs_processTx {tx : SubchainValidatorSetUpdateTx}
    (h : x.processTx pos sel view (.subchainValidatorSetUpdate tx) = .ok out)
    (hok : out.result.isOK) :
    view.subchainValidatorSetTransactinProcessed = false ∧
      out.view.subchainValidatorSetTransactinProcessed = true ∧
      Installs x tx view.store out.view.store := by
  obtain ⟨_, rfl, -⟩ | ⟨-, h⟩ := processTx_cases h
  · cases hok
  · exact installs_processUpdate h hok

end Executor

namespace Ledger

variable {cfg : LedgerConfig} {block : Block}

def updateOf (cfg : LedgerConfig) (raw : Bytes) : Option SubchainValidatorSetUpdateTx :=
  match txFromBytes cfg.exec.codec raw with
  | some (.subchainValidatorSetUpdate tx) => some tx
  | _ => none

/-- The updates among the transactions, in their order.  All transactions of a block that is
applied have succeeded, so all of them count. -/
def updatesIn (cfg : LedgerConfig) (raws : List Bytes) : List SubchainValidatorSetUpdateTx :=
  raws.filterMap (updateOf cfg)

theorem executeTxs_updates {raws : List Bytes} {l l' : Ledger} {flag flag' : Bool}
    (h : executeTxs cfg block l flag raws = .ok (l', .ok flag')) :
    updatesIn cfg raws = [] ∧ SameRecords l.delivered.store l'.delivered.store ∨
      ∃ update, updatesIn cfg raws = [update] ∧
        l.delivered.subchainValidatorSetTransactinProcessed = false ∧
        Installs cfg.exec update l.delivered.store l'.delivered.store := by
  induction raws generalizing l flag with
  | nil =>
    cases h
    exact .inl ⟨rfl, .refl _⟩
  | cons raw rest ih =>
    obtain ⟨tx, l₁, htx, hstep, h⟩ := executeTxs_cons_eq_ok.1 h
    obtain ⟨out, hout, hres, rfl⟩ := processTx_eq_ok hstep
    have hok : out.result.isOK := by
      rw [← hres]
      rfl
    have hrest := ih h
    by_cases hkind : Executor.isValidatorSetUpdate tx
    · -- the first update; the flag it leaves keeps out a second one
      cases tx with
      | subchainValidatorSetUpdate tx =>
        obtain ⟨hfirst, hdone, hinstalls⟩ := Executor.installs_processTx hout hok
        have hhead : updatesIn cfg (raw :: rest) = tx :: updatesIn cfg rest :=
          List.filterMap_cons_some (by rw [updateOf, htx])
        obtain ⟨hnone, hsame⟩ | ⟨_, -, hflag, -⟩ := hrest
        · exact .inr ⟨tx, by rw [hhead, hnone], hfirst, hinstalls.sameRecords hsame⟩
        · exact absurd (hdone.symm.trans hflag) (by decide)
      | _ => cases hkind
    · obtain ⟨hsame, hflag⟩ :=
        Executor.sameRecords_processTx hout hok (Bool.not_eq_true _ ▸ hkind)
      have hhead : updatesIn cfg (raw :: rest) = updatesIn cfg rest := by
        refine List.filterMap_cons_none ?_
        rw [updateOf, htx]
        cases tx with
        | subchainValidatorSetUpdate tx => exact absurd rfl hkind
        | _ => rfl
      rw [hhead]
      obtain ⟨hnone, hrest⟩ | ⟨update, hone, hprocessed, hinstalls⟩ := hrest
      · exact .inl ⟨hnone, hsame.trans hrest⟩
      · exact .inr ⟨update, hone, hflag.symm.trans hprocessed, hsame.installs hinstalls⟩

def Applied (cfg : LedgerConfig) (block : Block) (content content' : LedgerContent) : Prop :=
  ∃ (l l' : Ledger) (update : Option Bool), l.delivered.store = content ∧
    l.applyBlockTxs cfg block = .ok (l', .ok, update) ∧ l'.delivered.store = content'

theorem Applied.updates {content content' : LedgerContent}
    (h : Applied cfg block content content') :
    updatesIn cfg block.txs = [] ∧ SameRecords content content' ∨
      ∃ update, updatesIn cfg block.txs = [update] ∧
        Installs cfg.exec update content content' := by
  obtain ⟨l, l', flag, rfl, happly, rfl⟩ := h
  obtain ⟨l₁, flag', hexec, -, rfl⟩ := applyBlockTxs_eq_ok happly
  obtain hnone | ⟨update, hone, -, hinstalls⟩ := executeTxs_updates hexec
  · exact .inl hnone
  · exact .inr ⟨update, hone, hinstalls⟩

/-- A sequence of blocks leads from the one state to the other; every block may find another
witness and another ledger around it. -/
def History : LedgerContent → LedgerContent → Prop :=
  Relation.ReflTransGen fun content content' => ∃ cfg block, Applied cfg block content content'

end Ledger

namespace LedgerContent

def IsGenesis (content : LedgerContent) : Prop :=
  ∃ (chainID : Int) (vs : ValidatorSet), content.validatorSet = some vs ∧
    content.validatorSetDuring = fun c d =>
      if c = chainID ∧ d = vs.dynasty then some vs else none

def Recorded (content : LedgerContent) : Prop :=
  ∃ vs, content.validatorSet = some vs ∧
    ∀ c d, (content.validatorSetDuring c d).isSome → d ≤ vs.dynasty

/-- The later state has the validators of the same or a later dynasty, and all records of the
earlier one. -/
structure Extends (content content' : LedgerContent) : Prop where
  dynasty : ∃ vs vs', content.validatorSet = some vs ∧ content'.validatorSet = some vs' ∧
    vs.dynasty ≤ vs'.dynasty
  records : ∀ c d vs, content.validatorSetDuring c d = some vs →
    content'.validatorSetDuring c d = some vs

theorem IsGenesis.recorded {content : LedgerContent} (h : content.IsGenesis) :
    content.Recorded := by
  obtain ⟨chainID, vs, hvs, hduring⟩ := h
  refine ⟨vs, hvs, fun c d hsome => ?_⟩
  rw [hduring] at hsome
  dsimp only at hsome
  split at hsome
  next heq => exact heq.2.le
  · cases hsome

theorem Recorded.extends_self {content : LedgerContent} (h : content.Recorded) :
    Extends content content := by
  obtain ⟨vs, hvs, -⟩ := h
  exact ⟨⟨vs, vs, hvs, hvs, le_rfl⟩, fun _ _ _ h => h⟩

theorem Extends.trans {c₁ c₂ c₃ : LedgerContent} (h : Extends c₁ c₂) (h' : Extends c₂ c₃) :
    Extends c₁ c₃ := by
  obtain ⟨⟨vs₁, vs₂, hvs₁, hvs₂, hle⟩, hrecords⟩ := h
  obtain ⟨⟨vs₂', vs₃, hvs₂', hvs₃, hle'⟩, hrecords'⟩ := h'
  obtain rfl : vs₂ = vs₂' := Option.some.inj (hvs₂.symm.trans hvs₂')
  exact ⟨⟨vs₁, vs₃, hvs₁, hvs₃, hle.trans hle'⟩,
    fun c d vs hvs => hrecords' c d vs (hrecords c d vs hvs)⟩

variable {content content' : LedgerContent}

theorem Recorded.sameRecords (h : content.Recorded) (hsame : SameRecords content content') :
    content'.Recorded ∧ Extends content content' := by
  obtain ⟨vs, hvs, hbound⟩ := h
  have hvs' := hsame.current.trans hvs
  refine ⟨⟨vs, hvs', ?_⟩, ⟨vs, vs, hvs, hvs', le_rfl⟩, ?_⟩
  · rw [hsame.during]
    exact hbound
  · rw [hsame.during]
    exact fun _ _ _ h => h

theorem Recorded.installs {x : Executor} {update : SubchainValidatorSetUpdateTx}
    (h : content.Recorded) (hinstalls : Installs x update content content') :
    content'.Recorded ∧ Extends content content' := by
  obtain ⟨vs, hvs, hbound⟩ := h
  obtain ⟨vs', witnessed, hvs', hlater, -, hdynasty, hset, hduring⟩ := hinstalls
  obtain rfl : vs = vs' := Option.some.inj (hvs.symm.trans hvs')
  refine ⟨⟨witnessed, hset, fun c d hsome => ?_⟩, ⟨vs, witnessed, hvs, hset, by omega⟩, ?_⟩
  · rw [hduring] at hsome
    dsimp only at hsome
    split at hsome
    next heq => omega
    · have := hbound c d hsome
      omega
  · intro c d old hold
    have hle := hbound c d (by rw [hold]; rfl)
    rw [hduring]
    dsimp only
    rw [if_neg fun heq => by omega]
    exact hold

theorem trie_during (content : LedgerContent) (c d : Int) :
    content.trie (StateKey.validatorSetForChainDuringDynasty c d).bytes =
      (content.validatorSetDuring c d).map .validatorSet :=
  content.trie_bytes _

theorem Extends.trie (h : Extends content content') (c d : Int) {v : StateValue}
    (hv : content.trie (StateKey.validatorSetForChainDuringDynasty c d).bytes = some v) :
    content'.trie (StateKey.validatorSetForChainDuringDynasty c d).bytes = some v := by
  rw [trie_during] at hv ⊢
  obtain ⟨vs, hvs, rfl⟩ := Option.map_eq_some_iff.mp hv
  rw [h.records c d vs hvs]
  rfl

end LedgerContent

namespace Ledger

open LedgerContent (Recorded Extends)

theorem Applied.extends {cfg : LedgerConfig} {block : Block} {content content' : LedgerContent}
    (hrecorded : content.Recorded) (h : Applied cfg block content content') :
    content'.Recorded ∧ Extends content content' := by
  obtain ⟨-, hsame⟩ | ⟨update, -, hinstalls⟩ := h.updates
  · exact hrecorded.sameRecords hsame
  · exact hrecorded.installs hinstalls

theorem History.extends {content content' : LedgerContent} (hrecorded : content.Recorded)
    (h : History content content') : content'.Recorded ∧ Extends content content' := by
  induction h with
  | refl => exact ⟨hrecorded, hrecorded.extends_self⟩
  | tail _ hstep ih =>
    obtain ⟨cfg, block, happlied⟩ := hstep
    obtain ⟨hmid, hext⟩ := ih
    obtain ⟨hlast, hnext⟩ := happlied.extends hmid
    exact ⟨hlast, hext.trans hnext⟩

/-- Along the blocks from a genesis state: the dynasty does not decrease and no record is lost
or replaced, and the next block has at most one update, which installs the validators that its
witness knows for a later dynasty. -/
theorem dynasty_history_append_only {genesis content : LedgerContent} (hgenesis : genesis.IsGenesis)
    (hhistory : History genesis content) :
    (∀ content', History content content' →
      (∃ d d', content.validatorSet.map ValidatorSet.dynasty = some d ∧
        content'.validatorSet.map ValidatorSet.dynasty = some d' ∧ d ≤ d') ∧
      ∀ c d v, content.trie (StateKey.validatorSetForChainDuringDynasty c d).bytes = some v →
        content'.trie (StateKey.validatorSetForChainDuringDynasty c d).bytes = some v) ∧
    ∀ cfg block content', Applied cfg block content content' →
      (updatesIn cfg block.txs).length ≤ 1 ∧
      (updatesIn cfg block.txs = [] → content'.validatorSet = content.validatorSet) ∧
      ∀ update ∈ updatesIn cfg block.txs, ∃ vs witnessed, content.validatorSet = some vs ∧
        vs.dynasty < update.dynasty ∧
        cfg.exec.getValidatorSetByDynasty update.dynasty = some witnessed ∧
        witnessed.dynasty = update.dynasty ∧ content'.validatorSet = some witnessed ∧
        content'.trie (StateKey.validatorSetForChainDuringDynasty cfg.exec.selfChainID
          update.dynasty).bytes = some (.validatorSet witnessed) := by
  obtain ⟨hrecorded, -⟩ := hhistory.extends hgenesis.recorded
  constructor
  · intro content' h
    obtain ⟨-, hext⟩ := h.extends hrecorded
    obtain ⟨vs, vs', hvs, hvs', hle⟩ := hext.dynasty
    refine ⟨⟨vs.dynasty, vs'.dynasty, by rw [hvs]; rfl, by rw [hvs']; rfl, hle⟩, ?_⟩
    exact fun c d v => hext.trie c d
  · intro cfg block content' happlied
    obtain ⟨hnone, hsame⟩ | ⟨update, hone, vs, witnessed, hvs, hlater, hwitness, hdynasty, hset,
      hduring⟩ := happlied.updates
    · rw [hnone]
      exact ⟨Nat.zero_le _, fun _ => hsame.current, fun _ h => nomatch h⟩
    · rw [hone]
      refine ⟨le_rfl, fun h => absurd h (by simp), fun update' hmem => ?_⟩
      rw [List.mem_singleton.mp hmem]
      refine ⟨vs, witnessed, hvs, hlater, hwitness, hdynasty, hset, ?_⟩
      rw [LedgerContent.trie_during, hduring]
      dsimp only
      rw [if_pos ⟨rfl, rfl⟩]
      rfl

def dynastyGenesis : LedgerContent :=
  (StoreView.updateValidatorSet { height := 0, store := genesisContent } 360777
    ⟨0, [⟨7, 10⟩]⟩).store

def dynastyConfig : LedgerConfig := sampleConfig (fun _ => some ⟨1, [⟨9, 5⟩]⟩) []

def dynastyBlock : Block := ⟨{ childHeader with stateHash := 2 }, [[1]]⟩

theorem isGenesis_dynastyGenesis : dynastyGenesis.IsGenesis := ⟨360777, ⟨0, [⟨7, 10⟩]⟩, rfl, rfl⟩

theorem dynasty_history_append_only_update :
    ∃ content', Applied dynastyConfig dynastyBlock dynastyGenesis content' ∧
      (updatesIn dynastyConfig dynastyBlock.txs).length ≤ 1 ∧
      ∃ d d', dynastyGenesis.validatorSet.map ValidatorSet.dynasty = some d ∧
        content'.validatorSet.map ValidatorSet.dynasty = some d' ∧ d ≤ d' := by
  have happly : ∃ l', (atGenesis genesisBlock dynastyGenesis).applyBlockTxs dynastyConfig
      dynastyBlock = .ok (l', .ok, some false) := ⟨_, rfl⟩
  obtain ⟨l', happly⟩ := happly
  have happlied : Applied dynastyConfig dynastyBlock dynastyGenesis l'.delivered.store :=
    ⟨_, l', some false, rfl, happly, rfl⟩
  obtain ⟨hlater, hblock⟩ := dynasty_history_append_only isGenesis_dynastyGenesis .refl
  exact ⟨_, happlied, (hblock _ _ _ happlied).1, (hlater _ (.single ⟨_, _, happlied⟩)).1⟩

end Ledger

end ThetaSubchain
