/-
The transaction index (blockchain/tx.go, AddBlock and FinalizePreviousBlocks of
blockchain/chain.go).

A block writes only under hashes of bytes that are not in the index yet, but under the Ethereum
hashes of its transactions in any case, so a block on a fork can take the Ethereum hash of a
finalized transaction over.
-/
import ThetaSubchain.Blockchain.Links
import ThetaSubchain.Ledger.Execution

namespace ThetaSubchain

open Durable Function List Chain.Store

structure TxIndexEntry where
  blockHash : Hash
  blockHeight : UInt64
  index : Nat
deriving DecidableEq

structure EthTransaction where
  nonce : UInt64
  gasPrice : Option Int
  gas : UInt64
  toAddress : Option Address
  value : Int
  data : Bytes
  v : Int
  r : Int
  s : Int

abbrev TxIndex := Hash → Option TxIndexEntry

structure IndexedStore where
  store : Store
  txs : TxIndex

structure TxIndexer where
  cfg : ChainConfig
  codec : TxCodec
  lib : TxLibrary
  keccak256Hash : Bytes → Hash
  decodeSignature : Option Signature → Int × Int × Int
  ethTxHash : EthTransaction → Hash

namespace TxIndexer

variable (ix : TxIndexer)

/-- The Ethereum hash of a transaction; `none` stands for the errors, after which nothing is
inserted. -/
def calcEthTxHash (block : Block) (raw : Bytes) : Option Hash :=
  match txFromBytes ix.codec raw with
  | some (.smartContract tx) =>
    let ethSigningHash := ix.lib.ethSigningHash block.header.chainID tx block.header.height
    if ix.lib.validateEthSignature tx.sender.address ethSigningHash tx.sender.signature then
      let (r, s, v) := ix.decodeSignature tx.sender.signature
      let chainID := ix.lib.mapChainID block.header.chainID block.header.height
      some (ix.ethTxHash
        { nonce := tx.sender.sequence - 1
          gasPrice := tx.gasPrice
          gas := tx.gasLimit
          toAddress := if tx.toAddress = 0 then none else some tx.toAddress
          value := tx.sender.coins.tfuel
          data := tx.data
          v := chainID * 2 + 8 + v
          r := r
          s := s })
    else none
  | _ => none

def insertEthTxHash (block : Block) (raw : Bytes) (entry : TxIndexEntry) (t : TxIndex) : TxIndex :=
  match ix.calcEthTxHash block raw with
  | none => t
  | some ethTxHash => Function.update t ethTxHash (some entry)

def addTx (block : Block) (force : Bool) (t : TxIndex) (tx : Bytes × Nat) : TxIndex :=
  let entry : TxIndexEntry := ⟨ix.cfg.hash block.header, block.header.height, tx.2⟩
  let key := ix.keccak256Hash tx.1
  if !force && (t key).isSome then t
  else ix.insertEthTxHash block tx.1 entry (Function.update t key (some entry))

def addTxsToIndex (block : Block) (force : Bool) (t : TxIndex) : TxIndex :=
  block.txs.zipIdx.foldl (ix.addTx block force) t

/-- The transaction and its block; `none` for one that is not found, and no result at all where
the index is out of the range of the transactions, which panics. -/
def findTxByHash (s : IndexedStore) (hash : Hash) : Option (Option (Bytes × ExtendedBlock)) :=
  match s.txs hash with
  | none => some none
  | some entry =>
    match Chain.findBlock s.store entry.blockHash with
    | none => some none
    | some block => (block.block.txs[entry.index]?).map fun tx => some (tx, block)

def addBlock (block : Block) (isSnapshotRoot : Bool) (s : IndexedStore) :
    Option (Except String ExtendedBlock) × IndexedStore :=
  match (Chain.addBlock ix.cfg block isSnapshotRoot : Proc Unit Store Unit _).run
      ⟨(), s.store, []⟩ with
  | (some (.ok added), t) =>
    (some (.ok added), ⟨t.disk, ix.addTxsToIndex added.block false s.txs⟩)
  | (result, t) => (result, ⟨t.disk, s.txs⟩)

/-- The loop of `FinalizePreviousBlocks` with the index; there is no result if it takes more
iterations. -/
def finalizeLoop : Nat → Hash → BlockStatus → IndexedStore →
    Option (Except String Unit) × IndexedStore
  | 0, _, _, s => (none, s)
  | n + 1, hash, status, s =>
    if hash.isEmpty then (some (.ok ()), s)
    else
      match Chain.findBlock s.store hash with
      | none => (some (.ok ()), s)
      | some block =>
        if block.status.isFinalized then (some (.ok ()), s)
        else if block.status = .disposed then
          (some (.error "Cannot finalize disposed branch"), s)
        else
          -- Force update TX index on block finalization
          finalizeLoop n block.header.parent .indirectlyFinalized
            ⟨Chain.Store.setBlock s.store (ix.cfg.hash block.header) { block with status := status },
              ix.addTxsToIndex block.block true s.txs⟩

def finalizePreviousBlocks (hash : Hash) (s : IndexedStore) :
    Option (Except String Unit) × IndexedStore :=
  ix.finalizeLoop ix.cfg.fuel hash .directlyFinalized s

def keysOf (block : Block) (raw : Bytes) : List Hash :=
  ix.keccak256Hash raw :: (ix.calcEthTxHash block raw).toList

def entryOf (block : Block) (i : Nat) : TxIndexEntry :=
  ⟨ix.cfg.hash block.header, block.header.height, i⟩

variable {ix} {block : Block} {t : TxIndex}

variable {k : Hash}

theorem insertEthTxHash_of_ne {raw : Bytes} {entry : TxIndexEntry}
    (h : ix.calcEthTxHash block raw ≠ some k) : ix.insertEthTxHash block raw entry t k = t k := by
  unfold insertEthTxHash
  cases hcalc : ix.calcEthTxHash block raw with
  | none => rfl
  | some k' => exact update_of_ne (fun heq => h (by rw [hcalc, heq])) _ _

theorem insertEthTxHash_of_eq {raw : Bytes} {entry : TxIndexEntry}
    (h : ix.calcEthTxHash block raw = some k) :
    ix.insertEthTxHash block raw entry t k = some entry := by
  unfold insertEthTxHash
  rw [h]
  exact update_self ..

theorem addTx_force (tx : Bytes × Nat) (k : Hash) :
    ix.addTx block true t tx k =
      if k ∈ ix.keysOf block tx.1 then some (ix.entryOf block tx.2) else t k := by
  show ix.insertEthTxHash block tx.1 _ (update t _ _) k = _
  by_cases heth : ix.calcEthTxHash block tx.1 = some k
  · rw [insertEthTxHash_of_eq heth, if_pos (by simp [keysOf, heth])]
    rfl
  rw [insertEthTxHash_of_ne heth]
  by_cases hkey : k = ix.keccak256Hash tx.1
  · rw [if_pos (by simp [keysOf, hkey]), hkey, update_self]
    rfl
  · have heth' : ¬ k ∈ (ix.calcEthTxHash block tx.1).toList := by simpa using heth
    rw [update_of_ne hkey, if_neg (by simp [keysOf, hkey, heth'])]

theorem addTxs_force_cases (txs : List (Bytes × Nat)) (t : TxIndex) (k : Hash) :
    (∃ tx ∈ txs, k ∈ ix.keysOf block tx.1 ∧
      txs.foldl (ix.addTx block true) t k = some (ix.entryOf block tx.2)) ∨
    (txs.foldl (ix.addTx block true) t k = t k ∧ ∀ tx ∈ txs, k ∉ ix.keysOf block tx.1) := by
  induction txs generalizing t with
  | nil => exact .inr ⟨rfl, nofun⟩
  | cons tx txs ih =>
    obtain ⟨tx', hmem, hkey, hout⟩ | ⟨hout, hnone⟩ := ih (ix.addTx block true t tx)
    · exact .inl ⟨tx', .tail _ hmem, hkey, hout⟩
    · rw [addTx_force] at hout
      by_cases hkey : k ∈ ix.keysOf block tx.1
      · rw [if_pos hkey] at hout
        exact .inl ⟨tx, .head _, hkey, hout⟩
      · rw [if_neg hkey] at hout
        exact .inr ⟨hout, forall_mem_cons.mpr ⟨hkey, hnone⟩⟩

theorem addTx_of_isSome {tx : Bytes × Nat} (hk : (t k).isSome)
    (heth : ix.calcEthTxHash block tx.1 = some k → (t (ix.keccak256Hash tx.1)).isSome) :
    ix.addTx block false t tx k = t k := by
  unfold addTx
  by_cases hin : (t (ix.keccak256Hash tx.1)).isSome
  · rw [if_pos (by simpa using hin)]
  rw [if_neg (by simpa using hin), insertEthTxHash_of_ne fun heq => hin (heth heq)]
  refine update_of_ne (fun heq => hin ?_) _ _
  rw [← heq]
  exact hk

theorem isSome_addTx {tx : Bytes × Nat} (hk : (t k).isSome) :
    (ix.addTx block false t tx k).isSome := by
  by_cases heth : ix.calcEthTxHash block tx.1 = some k → (t (ix.keccak256Hash tx.1)).isSome
  · rw [addTx_of_isSome hk heth]
    exact hk
  · obtain ⟨hkey, hnone⟩ := Classical.not_imp.mp heth
    unfold addTx
    rw [if_neg (by simpa using hnone), insertEthTxHash_of_eq hkey]
    rfl

theorem addTxs_of_isSome (txs : List (Bytes × Nat)) (hk : (t k).isSome)
    (heth : ∀ tx ∈ txs, ix.calcEthTxHash block tx.1 = some k → (t (ix.keccak256Hash tx.1)).isSome) :
    txs.foldl (ix.addTx block false) t k = t k := by
  induction txs generalizing t with
  | nil => rfl
  | cons tx txs ih =>
    have hfirst := addTx_of_isSome hk (heth tx (.head _))
    have hrest := ih (t := ix.addTx block false t tx) (isSome_addTx hk)
      fun tx' hmem heq => isSome_addTx (heth tx' (.tail _ hmem) heq)
    exact hrest.trans hfirst

def kept (d : Store) (h : Hash) : Option (Block × BlockStatus) :=
  (d.block h).map fun eb => (eb.block, eb.status)

def Keyed (ix : TxIndexer) (d : Store) : Prop :=
  ∀ h b st, kept d h = some (b, st) → ix.cfg.hash b.header = h

theorem kept_setBlock (d : Store) (h h' : Hash) (eb : ExtendedBlock) :
    kept (setBlock d h eb) h' =
      if h' = h then some (eb.block, eb.status) else kept d h' := by
  show ((update d.block h (some eb)) h').map _ = _
  by_cases heq : h' = h
  · rw [heq, update_self, if_pos rfl]
    rfl
  · rw [update_of_ne heq, if_neg heq]
    rfl

/-- A block is refused, or stored as pending where nothing was stored; the other blocks and their
statuses are kept. -/
def Enters (ix : TxIndexer) (d : Store) (block : Block)
    (out : Option (Except String ExtendedBlock) × Conf Unit Store Unit) : Prop :=
  (∃ e, out.1 = some (.error e) ∧ out.2.disk = d) ∨
  (∃ eb, out.1 = some (.ok eb) ∧ eb.block = block ∧ kept d (ix.cfg.hash block.header) = none ∧
    ∀ h, kept out.2.disk h =
      if h = ix.cfg.hash block.header then some (block, .pending) else kept d h)

theorem kept_linked {d : Store} (hkeyed : Keyed ix d) (block : Block) (root : Bool) (h : Hash) :
    kept (Chain.linked ix.cfg d block root) h = kept d h := by
  have hkey : Chain.Keyed ix.cfg d := fun h eb hb =>
    hkeyed h eb.block eb.status (by rw [kept, hb]; rfl)
  unfold Chain.linked kept
  split
  · rfl
  rw [Chain.linkToParent_block hkey]
  split
  · rw [Option.map_map]
    rfl
  · rfl

theorem enters_addBlock {d : Store} (hkeyed : Keyed ix d) (block : Block) (root : Bool) :
    Enters ix d block
      ((Chain.addBlock ix.cfg block root : Proc Unit Store Unit _).run ⟨(), d, []⟩) := by
  rw [Chain.run_addBlock_root]
  split
  · exact .inl ⟨_, rfl, rfl⟩
  split
  · exact .inl ⟨_, rfl, rfl⟩
  next hfound =>
    refine .inr ⟨_, rfl, rfl, ?_, fun h => ?_⟩
    · exact congrArg (Option.map _) (Option.not_isSome_iff_eq_none.1 hfound)
    · show ((Chain.indexed _ _ _).block h).map _ = _
      rw [Chain.indexed_block, ← kept_linked hkeyed block root]
      exact kept_setBlock ..

def Finalized (d : Store) (b : Block) : Prop :=
  ∃ h st, kept d h = some (b, st) ∧ st.isFinalized = true

/-- The blocks that a finalization of the hash passes: the parents up to the first finalized
block. -/
inductive Ancestor (d : Store) : Hash → Block → Prop where
  | self {h : Hash} {b : Block} {st : BlockStatus} (hb : kept d h = some (b, st)) : Ancestor d h b
  | parent {h : Hash} {b b' : Block} {st : BlockStatus} (hb : kept d h = some (b, st))
    (hst : st.isFinalized = false) (hanc : Ancestor d b.header.parent b') : Ancestor d h b'

def Leads (s : IndexedStore) (k : Hash) (raw : Bytes) : Prop :=
  ∃ e b st, s.txs k = some e ∧ kept s.store e.blockHash = some (b, st) ∧ st.isFinalized = true ∧
    b.txs[e.index]? = some raw

structure Indexed (ix : TxIndexer) (s : IndexedStore) : Prop where
  keyed : Keyed ix s.store
  voters : ∀ h b st, kept s.store h = some (b, st) → b.header.DistinctVoters
  found : ∀ b, Finalized s.store b → ∀ raw ∈ b.txs, ∀ k ∈ ix.keysOf b raw, Leads s k raw

/-- The blocks have no key in common, unless it is of the same bytes. -/
def Apart (ix : TxIndexer) (b b' : Block) : Prop :=
  ∀ raw ∈ b.txs, ∀ raw' ∈ b'.txs, ∀ k ∈ ix.keysOf b raw, k ∈ ix.keysOf b' raw' → raw = raw'

/-- No transaction of the block has an Ethereum hash that is a key of other bytes. -/
def Spares (ix : TxIndexer) (block b : Block) : Prop :=
  ∀ raw ∈ block.txs, ∀ raw' ∈ b.txs, ∀ k, ix.calcEthTxHash block raw = some k →
    k ∈ ix.keysOf b raw' → raw = raw'

theorem indexed_addBlock {s : IndexedStore} (hs : Indexed ix s) {block : Block} {root : Bool}
    (hvoters : block.header.DistinctVoters)
    (hspares : ∀ b, Finalized s.store b → Spares ix block b) :
    Indexed ix (ix.addBlock block root s).2 := by
  have henters := enters_addBlock hs.keyed block root
  unfold addBlock
  generalize (Chain.addBlock ix.cfg block root : Proc Unit Store Unit _).run ⟨(), s.store, []⟩ = out
    at henters
  obtain ⟨result, t⟩ := out
  obtain ⟨e, hresult, hdisk⟩ | ⟨eb, hresult, heb, hnone, hkept⟩ := henters
  · cases hresult
    show Indexed ix ⟨t.disk, s.txs⟩
    rw [show t.disk = s.store from hdisk]
    exact hs
  cases hresult
  subst heb
  have hold : ∀ h b st, kept t.disk h = some (b, st) → st.isFinalized = true →
      kept s.store h = some (b, st) := by
    intro h b st hb hst
    rw [hkept] at hb
    split at hb
    · cases hb
      cases hst
    · exact hb
  have hnew : ∀ h b st, kept t.disk h = some (b, st) →
      (b = eb.block ∧ h = ix.cfg.hash eb.block.header) ∨ kept s.store h = some (b, st) := by
    intro h b st hb
    rw [hkept] at hb
    split at hb
    · next heq =>
      cases hb
      exact .inl ⟨rfl, heq⟩
    · exact .inr hb
  constructor
  · intro h b st hb
    obtain ⟨rfl, rfl⟩ | hb := hnew h b st hb
    · rfl
    · exact hs.keyed h b st hb
  · intro h b st hb
    obtain ⟨rfl, -⟩ | hb := hnew h b st hb
    · exact hvoters
    · exact hs.voters h b st hb
  · rintro b ⟨h, st, hb, hst⟩ raw hraw k hk
    have hfin : Finalized s.store b := ⟨h, st, hold h b st hb hst, hst⟩
    obtain ⟨e, b', st', he, hb', hst', hat⟩ := hs.found b hfin raw hraw k hk
    have hsame : ix.addTxsToIndex eb.block false s.txs k = s.txs k := by
      refine addTxs_of_isSome _ (by rw [he]; rfl) fun tx htx heth => ?_
      -- the transaction is the finalized one, whose bytes are in the index
      have hmem : tx.1 ∈ eb.block.txs := fst_mem_of_mem_zipIdx htx
      have heq := hspares b hfin tx.1 hmem raw hraw k heth hk
      obtain ⟨e', -, -, he', -⟩ := hs.found b hfin raw hraw _ (.head _ ..)
      rw [heq, he']
      rfl
    refine ⟨e, b', st', hsame.trans he, ?_, hst', hat⟩
    show kept t.disk e.blockHash = _
    rw [hkept, if_neg, hb']
    intro heq
    rw [heq, hnone] at hb'
    cases hb'

section Finalize

variable {s : IndexedStore} {hash : Hash} {eb : ExtendedBlock} {status : BlockStatus}

def marked (ix : TxIndexer) (eb : ExtendedBlock) (status : BlockStatus) (s : IndexedStore) :
    IndexedStore :=
  ⟨Chain.Store.setBlock s.store (ix.cfg.hash eb.header) { eb with status := status },
    ix.addTxsToIndex eb.block true s.txs⟩

theorem kept_marked (h : Hash) : kept (marked ix eb status s).store h =
    if h = ix.cfg.hash eb.header then some (eb.block, status) else kept s.store h :=
  kept_setBlock ..

variable {b : Block}

theorem ancestor_of_marked
    (hkept : kept s.store (ix.cfg.hash eb.header) = some (eb.block, eb.status))
    (hstatus : status.isFinalized = true) {h : Hash}
    (hanc : Ancestor (marked ix eb status s).store h b) : Ancestor s.store h b := by
  induction hanc with
  | self hb =>
    rw [kept_marked] at hb
    split at hb
    · next heq =>
      cases hb
      rw [heq]
      exact .self hkept
    · exact .self hb
  | parent hb hst _ ih =>
    rw [kept_marked] at hb
    split at hb
    · cases hb
      rw [hst] at hstatus
      cases hstatus
    · exact .parent hb hst ih

theorem finalized_of_marked (hfin : Finalized (marked ix eb status s).store b) :
    Finalized s.store b ∨ b = eb.block := by
  obtain ⟨h, st, hb, hst⟩ := hfin
  rw [kept_marked] at hb
  split at hb
  · cases hb
    exact .inr rfl
  · exact .inl ⟨h, st, hb, hst⟩

def Joins (d : Store) (hash : Hash) (b : Block) : Prop := Finalized d b ∨ Ancestor d hash b

theorem joins_of_marked (hkept : kept s.store (ix.cfg.hash eb.header) = some (eb.block, eb.status))
    (hfin : eb.status.isFinalized = false) (hstatus : status.isFinalized = true)
    (hjoins : Joins (marked ix eb status s).store eb.header.parent b) :
    Joins s.store (ix.cfg.hash eb.header) b := by
  obtain hb | hanc := hjoins
  · obtain hb | rfl := finalized_of_marked hb
    · exact .inl hb
    · exact .inr (.self hkept)
  · exact .inr (.parent hkept hfin (ancestor_of_marked hkept hstatus hanc))

theorem indexed_marked (hs : Indexed ix s)
    (hkept : kept s.store (ix.cfg.hash eb.header) = some (eb.block, eb.status))
    (hfin : eb.status.isFinalized = false) (hstatus : status.isFinalized = true)
    (hapart : ∀ b, Finalized s.store b ∨ b = eb.block → Apart ix eb.block b) :
    Indexed ix (marked ix eb status s) := by
  have hblock : ∀ h b st, kept (marked ix eb status s).store h = some (b, st) →
      ∃ st, kept s.store h = some (b, st) := by
    intro h b st hb
    rw [kept_marked] at hb
    split at hb
    · next heq =>
      cases hb
      exact ⟨_, heq ▸ hkept⟩
    · exact ⟨st, hb⟩
  refine ⟨fun h b st hb => ?_, fun h b st hb => ?_, ?_⟩
  · obtain ⟨st', hb⟩ := hblock h b st hb
    exact hs.keyed h b st' hb
  · obtain ⟨st', hb⟩ := hblock h b st hb
    exact hs.voters h b st' hb
  intro b hb raw hraw k hk
  have hb := finalized_of_marked hb
  obtain ⟨tx, htx, hkey, hout⟩ | ⟨hout, hnone⟩ :=
    @addTxs_force_cases ix eb.block eb.block.txs.zipIdx s.txs k
  · have hat := mem_zipIdx_iff_getElem?.mp htx
    have heq := hapart b hb tx.1 (mem_of_getElem? hat) raw hraw k hkey hk
    exact ⟨_, eb.block, status, hout, (kept_marked _).trans (if_pos rfl), hstatus, heq ▸ hat⟩
  obtain hb | rfl := hb
  · obtain ⟨e, b', st', he, hb', hst', hat⟩ := hs.found b hb raw hraw k hk
    refine ⟨e, b', st', hout.trans he, ?_, hst', hat⟩
    rw [kept_marked, if_neg, hb']
    -- the block that is marked now was not finalized
    intro heq
    rw [heq, hkept] at hb'
    cases hb'
    rw [hst'] at hfin
    cases hfin
  · obtain ⟨i, hi⟩ := getElem?_of_mem hraw
    exact absurd hk (hnone (raw, i) (mem_zipIdx_iff_getElem?.mpr hi))

/-- By induction on the iterations: the blocks that join only get fewer. -/
theorem indexed_finalizeLoop (n : Nat) (hash : Hash) (hstatus : status.isFinalized = true)
    (hs : Indexed ix s)
    (hapart : ∀ b b', Joins s.store hash b → Joins s.store hash b' → Apart ix b b') :
    Indexed ix (ix.finalizeLoop n hash status s).2 := by
  induction n generalizing hash status s with
  | zero => exact hs
  | succ n ih =>
    unfold finalizeLoop
    by_cases hempty : hash.isEmpty
    · rw [if_pos hempty]
      exact hs
    rw [if_neg hempty]
    cases hfind : Chain.findBlock s.store hash with
    | none => exact hs
    | some eb =>
      dsimp only
      by_cases hfin : eb.status.isFinalized = true
      · rw [if_pos hfin]
        exact hs
      rw [if_neg hfin]
      by_cases hdisposed : eb.status = .disposed
      · rw [if_pos hdisposed]
        exact hs
      rw [if_neg hdisposed]
      have hkept : kept s.store hash = some (eb.block, eb.status) := by
        rw [kept, show s.store.block hash = _ from hfind]
        rfl
      obtain rfl : ix.cfg.hash eb.header = hash := hs.keyed _ _ _ hkept
      have hfin := Bool.eq_false_iff.mpr hfin
      refine ih (s := marked ix eb status s) eb.header.parent rfl
        (indexed_marked hs hkept hfin hstatus fun b hb => ?_) fun b b' hb hb' => ?_
      · refine hapart _ _ (.inr (.self hkept)) ?_
        obtain hb | rfl := hb
        · exact .inl hb
        · exact .inr (.self hkept)
      · exact hapart b b' (joins_of_marked hkept hfin hstatus hb)
          (joins_of_marked hkept hfin hstatus hb')

end Finalize

inductive Op where
  | addBlock (block : Block) (isSnapshotRoot : Bool)
  | finalizePreviousBlocks (hash : Hash)

def apply (ix : TxIndexer) (s : IndexedStore) : Op → Option IndexedStore
  | .addBlock block isSnapshotRoot =>
    let (result, t) := ix.addBlock block isSnapshotRoot s
    result.map fun _ => t
  | .finalizePreviousBlocks hash =>
    let (result, t) := ix.finalizePreviousBlocks hash s
    result.map fun _ => t

def under (ix : TxIndexer) (digest : Rlp.Item → Hash) (ord : MapOrder) : TxIndexer :=
  { ix with cfg := ix.cfg.under (headerHash digest) ord }

/-- Runs in which every operation reads the maps in an order of its own. -/
inductive Run (ix : TxIndexer) (digest : Rlp.Item → Hash) (meets : IndexedStore → Op → Prop) :
    IndexedStore → Prop where
  | start : Run ix digest meets ⟨Store.empty, fun _ => none⟩
  | step {s s' : IndexedStore} {op : Op} (ord : MapOrder) (h : Run ix digest meets s)
    (hmeets : meets s op) (hstep : (ix.under digest ord).apply s op = some s') :
    Run ix digest meets s'

/-- A block that is added has no certificate with two votes of one voter and no Ethereum hash that
is a key of other finalized bytes, and the blocks that a finalization leaves finalized have no key
of different bytes in common. -/
def Harmless (ix : TxIndexer) (s : IndexedStore) : Op → Prop
  | .addBlock block _ =>
    block.header.DistinctVoters ∧ ∀ b, Finalized s.store b → Spares ix block b
  | .finalizePreviousBlocks hash =>
    ∀ b b', Joins s.store hash b → Joins s.store hash b' → Apart ix b b'

theorem indexed_apply {s s' : IndexedStore} {op : Op} (hs : Indexed ix s)
    (hop : Harmless ix s op) (h : ix.apply s op = some s') : Indexed ix s' := by
  cases op with
  | addBlock block root =>
    obtain ⟨_, -, rfl⟩ := Option.map_eq_some_iff.mp h
    exact indexed_addBlock hs hop.1 hop.2
  | finalizePreviousBlocks hash =>
    obtain ⟨_, -, rfl⟩ := Option.map_eq_some_iff.mp h
    exact indexed_finalizeLoop _ hash rfl hs hop

variable {digest : Rlp.Item → Hash}

theorem Indexed.under {s : IndexedStore} {ord : MapOrder} (hs : Indexed (ix.under digest ord) s)
    (ord' : MapOrder) : Indexed (ix.under digest ord') s :=
  ⟨fun h b st hb => (headerHash_eq (hs.voters h b st hb) ord ord').trans (hs.keyed h b st hb),
    hs.voters, hs.found⟩

theorem indexed_run {s : IndexedStore} (h : Run ix digest (Harmless ix) s) (ord : MapOrder) :
    Indexed (ix.under digest ord) s := by
  induction h with
  | start =>
    refine ⟨fun h b st hb => ?_, fun h b st hb => ?_, fun b ⟨h, st, hb, _⟩ => ?_⟩
    all_goals cases hb
  | step o _ hop hstep ih =>
    have hnext : Indexed (ix.under digest o) _ := indexed_apply (ih.under o) hop hstep
    exact hnext.under ord

/-- The transactions of finalized blocks are found by the hash of their bytes and by their
Ethereum hash, in every run of harmless operations. -/
theorem finalized_found {s : IndexedStore} (h : Run ix digest (Harmless ix) s) {hash : Hash}
    {eb : ExtendedBlock} (heb : Chain.findBlock s.store hash = some eb)
    (hfin : eb.status.isFinalized = true) {raw : Bytes} (hraw : raw ∈ eb.block.txs) {k : Hash}
    (hk : k = ix.keccak256Hash raw ∨ ix.calcEthTxHash eb.block raw = some k) :
    ∃ eb', findTxByHash s k = some (some (raw, eb')) ∧ eb'.status.isFinalized = true ∧
      raw ∈ eb'.block.txs := by
  have hkept : kept s.store hash = some (eb.block, eb.status) := by
    rw [kept, show s.store.block hash = _ from heb]
    rfl
  have hkey : k ∈ ix.keysOf eb.block raw := by
    obtain rfl | heth := hk
    · exact .head _ ..
    · simp [keysOf, heth]
  obtain ⟨e, b, st, he, hb, hst, hat⟩ :=
    (indexed_run h .id).found eb.block ⟨hash, eb.status, hkept, hfin⟩ raw hraw k hkey
  obtain ⟨eb', heb', heq⟩ := Option.map_eq_some_iff.mp hb
  cases heq
  refine ⟨eb', ?_, hst, mem_of_getElem? hat⟩
  unfold findTxByHash
  rw [he]
  dsimp only
  rw [show Chain.findBlock s.store e.blockHash = _ from heb']
  dsimp only
  rw [hat]
  rfl

def ethSignedTx (thetaWei : Int) : Tx :=
  .smartContract
    { sender := { address := 1, coins := ⟨some thetaWei, some 0⟩, sequence := 1 }
      toAddress := 2, gasLimit := 100, gasPrice := some 1, data := [] }

def sampleIndexer : TxIndexer where
  cfg := { hash := headerHash Chain.epochDigest .id, chainID := [1], root := 1, fuel := 4 }
  codec := tableCodec [ethSignedTx 0, ethSignedTx 1]
  lib := plainTxLibrary
  keccak256Hash := fun raw => BitVec.ofNat 256 (100 + Rlp.toNat raw)
  decodeSignature := fun _ => (0, 0, 0)
  ethTxHash := fun tx => BitVec.ofNat 256 (500 + tx.nonce.toNat)

def sampleBlock (epoch height : UInt64) (parent : Hash) (txs : List Bytes) : Block where
  header :=
    { chainID := [1], epoch := epoch, height := height, parent := parent, hcc := ⟨none, 0⟩
      txHash := 0, receiptHash := 0, bloom := 0, stateHash := 0, timestamp := none, proposer := 0
      signature := none }
  txs := txs

def sampleOps : List Op :=
  [.addBlock (sampleBlock 1 0 0 []) true, .finalizePreviousBlocks 1,
    .addBlock (sampleBlock 2 1 1 [[0]]) false, .finalizePreviousBlocks 2]

def runOps (ix : TxIndexer) (ops : List Op) : Option IndexedStore :=
  ops.foldlM ix.apply ⟨Store.empty, fun _ => none⟩

def foundBy (s : IndexedStore) (k : Hash) : Option (Bytes × BlockStatus) :=
  (findTxByHash s k).join.map fun (raw, eb) => (raw, eb.status)

def observed (ops : List Op) : Option (List (Option BlockStatus) × Option (Bytes × BlockStatus)) :=
  (runOps sampleIndexer ops).map fun s =>
    ([1, 2, 3].map fun h => (s.store.block h).map ExtendedBlock.status, foundBy s 500)

/-- Once the block 3 on a fork has been added, the Ethereum hash 500 of the transaction that is
finalized in the block 2 leads to other bytes in the pending block 3. -/
theorem ethTxHash_taken_over :
    sampleIndexer.calcEthTxHash (sampleBlock 2 1 1 [[0]]) [0] = some 500 ∧
    observed sampleOps =
      some ([some .directlyFinalized, some .directlyFinalized, none],
        some ([0], .directlyFinalized)) ∧
    observed (sampleOps ++ [.addBlock (sampleBlock 3 1 1 [[1]]) false]) =
      some ([some .directlyFinalized, some .directlyFinalized, some .pending],
        some ([1], .pending)) := by
  decide

def sampleRoot : Block := sampleBlock 1 0 0 [[0]]

theorem finalized_found_root :
    ∃ s, Run sampleIndexer Chain.epochDigest (Harmless sampleIndexer) s ∧
      ∃ eb, Chain.findBlock s.store 1 = some eb ∧
      eb.block = sampleRoot ∧ eb.status = .directlyFinalized ∧
      ∃ eb', findTxByHash s 500 = some (some ([0], eb')) ∧ eb'.status.isFinalized = true ∧
        [0] ∈ eb'.block.txs := by
  let s₀ : IndexedStore := ⟨Store.empty, fun _ => none⟩
  let s₁ := (sampleIndexer.addBlock sampleRoot true s₀).2
  let s₂ := ((sampleIndexer.under Chain.epochDigest .reverse).finalizePreviousBlocks 1 s₁).2
  have hrun₁ : Run sampleIndexer Chain.epochDigest (Harmless sampleIndexer) s₁ := by
    have hop : Harmless sampleIndexer s₀ (.addBlock sampleRoot true) := by
      refine ⟨?_, ?_⟩
      · rintro _ ⟨⟩
      · rintro b ⟨h, st, hb, -⟩
        cases hb
    exact .step .id .start hop rfl
  -- the root is the only block
  have honly : ∀ h b st, kept s₁.store h = some (b, st) → b = sampleRoot := by
    intro h b st hb
    change (update (fun _ => none) _ _ h : Option ExtendedBlock).map _ = _ at hb
    by_cases heq : h = sampleIndexer.cfg.hash sampleRoot.header
    · rw [heq, update_self] at hb
      cases hb
      rfl
    · rw [update_of_ne heq] at hb
      cases hb
  have hanc : ∀ h b, Ancestor s₁.store h b → b = sampleRoot := by
    intro h b hanc
    induction hanc with
    | self hb => exact honly _ _ _ hb
    | parent _ _ _ ih => exact ih
  have hjoins : ∀ b, Joins s₁.store 1 b → b = sampleRoot := by
    rintro b (⟨h, st, hb, -⟩ | hb)
    · exact honly h b st hb
    · exact hanc 1 b hb
  have hrun₂ : Run sampleIndexer Chain.epochDigest (Harmless sampleIndexer) s₂ := by
    have hop : Harmless sampleIndexer s₁ (.finalizePreviousBlocks 1) := by
      intro b b' hb hb' raw hraw raw' hraw' k _ _
      rw [hjoins b hb] at hraw
      rw [hjoins b' hb'] at hraw'
      exact (mem_singleton.mp hraw).trans (mem_singleton.mp hraw').symm
    exact .step .reverse hrun₁ hop rfl
  let eb : ExtendedBlock := ⟨sampleRoot, [], .directlyFinalized, false⟩
  have heb : Chain.findBlock s₂.store 1 = some eb := by decide +kernel
  exact ⟨s₂, hrun₂, eb, heb, rfl, rfl,
    finalized_found hrun₂ heb rfl (mem_singleton_self _) (.inr (by decide))⟩

end TxIndexer

end ThetaSubchain
