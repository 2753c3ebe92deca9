/-
Exporting a snapshot and loading the file on an empty database.

The loader derives the validators from the proof trios, and the exporter takes these from a list in
the state that never changes, so the file is accepted exactly if the validators are still those of
the genesis state.
-/
import ThetaSubchain.Snapshot.History
import ThetaSubchain.Snapshot.StateSection

namespace ThetaSubchain

open Database Ending Option List Rlp

namespace Snapshot

open ValidatorSelection (filterValidators)

def Reads {α : Type} (decode : Bytes → Option α) (stored : Option Bytes) (value : α) : Prop :=
  ∃ data, stored = some data ∧ data ≠ [] ∧ decode data = some value

structure HoldsContent (state : TrieContent) (content : LedgerContent) : Prop where
  validatorSet : ∀ vs, content.validatorSet = some vs →
    Reads decodeValidatorSet (state currentValidatorSetKey) vs
  updateTxHeights : ∀ hl, content.updateTxHeights = some hl →
    Reads decodeHeightList (state validatorSetUpdateTxHeightListKey) hl

def BlocksStored (cfg : SnapshotConfig) (n : ℕ) (block : ℕ → Block) (db : Database) : Prop :=
  ∀ i ≤ n, ∀ e, db.nodes (cfg.hash (block i).header) = some e →
    (cfg.decodeBlock e).map ExtendedBlock.header = some (block i).header

/-- A node with the finalized chain of a history.  The chain store and the database hold each
block and each node under its hash, and no two of the headers that occur have the same hash. -/
structure HonestNode (x : SnapshotExporter) (codec : TxCodec) (d : Store) (db : Database)
    (lastFinalizedBlock : Hash) (n : ℕ) (block : ℕ → Block) (content : ℕ → LedgerContent) :
    Prop where
  history : History x.toSnapshotConfig codec n block content
  stored : ∀ h b, d.block h = some b → x.hash b.header = h
  storedHash : ∀ k ≤ n, ∀ h b, d.block h = some b → x.hash b.header = x.hash (block k).header →
    b.header = (block k).header
  chainHash : ∀ k ≤ n, ∀ i ≤ n, x.hash (block i).header = x.hash (block k).header →
    (block i).header = (block k).header
  finalized : ∀ h b, d.block h = some b → b.status.isDirectlyFinalized →
    ∃ k ≤ n, b.header = (block k).header
  lastFinalized : ∀ b, d.block lastFinalizedBlock = some b → ∃ k ≤ n, b.header = (block k).header
  genesisParent : d.block (block 0).header.parent = none
  genesis : ∀ b, (Chain.findBlocksByHeight d genesisBlockHeight).head? = some b →
    b.header = (block 0).header
  /-- A node that was itself started from a snapshot has the trio from there. -/
  genesisTrio : ∀ t, db.getTrio x.toSnapshotConfig genesisBlockHeight = some t →
    t.second.header = (block 0).header
  laws : TrieLaws x db.nodes
  stateRoot : ∀ k ≤ n, (block k).header.stateHash.isEmpty = false ∧
    (block k).header.stateHash ≠ x.emptyRoot
  /-- A state may have been pruned, but never in part. -/
  state : ∀ k ≤ n, (db.nodes (block k).header.stateHash).isSome →
    StoredState x db.nodes (block k).header.stateHash ∧
      HoldsContent (trieContent x db.nodes (block k).header.stateHash) (content k)
  blocks : BlocksStored x.toSnapshotConfig n block db
  codecs : ∀ k ≤ n, ∀ eb, eb.header = (block k).header →
    (x.decodeBlock (x.encodeBlock eb)).map ExtendedBlock.header = some eb.header
  checkpoints : ∀ h, 0 < h → (x.lastCheckPointHeight h).toNat ≤ h.toNat ∧
    h.toNat < (x.lastCheckPointHeight h).toNat + x.checkpointInterval

section RoundTrip

variable {x : SnapshotExporter} {codec : TxCodec} {d : Store} {db : Database}
  {lastFinalizedBlock : Hash} {n : ℕ} {block : ℕ → Block} {content : ℕ → LedgerContent}

theorem getDecoded_of_reads {α : Type} {decode : Bytes → Option α} {sv : StateView} {key : Bytes}
    {value : α} (message : String) (h : Reads decode (sv.get key) value) :
    sv.getDecoded decode message key = .ok (some value) := by
  obtain ⟨data, hdata, hne, hdecode⟩ := h
  unfold StateView.getDecoded
  rw [hdata]
  cases data with
  | nil => exact absurd rfl hne
  | cons b data => simp [hdecode]

theorem getValidatorSetFromSV_of_holds {sv : StateView} {c : LedgerContent} {vs : ValidatorSet}
    (hsv : HoldsContent sv.get c) (hvs : c.validatorSet = some vs) :
    getValidatorSetFromSV sv = .ok (filterValidators vs) := by
  have hget : sv.getValidatorSet = .ok (some vs) :=
    getDecoded_of_reads _ (hsv.validatorSet vs hvs)
  rw [getValidatorSetFromSV, hget]
  rfl

namespace HonestNode

variable (node : HonestNode x codec d db lastFinalizedBlock n block content)

include node

theorem stateOf_eq_ok {k : ℕ} (hk : k ≤ n) {sv : StateView}
    (h : stateOf x db (block k).header = .ok sv) :
    sv = ⟨(block k).header.height, (block k).header.stateHash,
        trieContent x db.nodes (block k).header.stateHash⟩ ∧
      StoredState x db.nodes (block k).header.stateHash ∧ HoldsContent sv.get (content k) := by
  obtain ⟨hempty, hne⟩ := node.stateRoot k hk
  rw [stateOf, deref_eq_ok] at h
  cases hroot : db.nodes (block k).header.stateHash with
  | none => simp [newStoreView, hempty, hne, hroot] at h
  | some e =>
    obtain ⟨hstored, hholds⟩ := node.state k hk (by rw [hroot]; rfl)
    rw [newStoreView_of_root x.toSnapshotConfig _ hempty hne hroot, some.injEq] at h
    rw [← h]
    exact ⟨rfl, hstored, hholds⟩

theorem parent_header {k : ℕ} (hk : k ≤ n) {b : ExtendedBlock}
    (hb : Chain.findBlock d (block k).header.parent = some b) :
    0 < k ∧ b.header = (block (k - 1)).header := by
  cases k with
  | zero =>
    rw [Chain.findBlock, node.genesisParent] at hb
    cases hb
  | succ k =>
    have hlink := node.history.link k (by omega)
    have hhash := node.stored _ b hb
    exact ⟨by omega, node.storedHash k (by omega) _ b hb (hhash.trans hlink)⟩

omit node in
theorem checkpointLoop_of_le {height : UInt64} {curr : ExtendedBlock}
    (h : curr.header.height ≤ height) (fuel : ℕ) :
    checkpointLoop d height fuel curr = .ok (curr, []) := by
  unfold checkpointLoop
  rw [if_pos h]

theorem checkpointLoop_eq_ok {height : UInt64} {fuel k : ℕ} (hk : k ≤ n) (hle : height.toNat ≤ k)
    {curr checkpoint : ExtendedBlock} (hcurr : curr.header = (block k).header)
    {headers : List BlockHeader} (h : checkpointLoop d height fuel curr = .ok (checkpoint, headers)) :
    checkpoint.header = (block height.toNat).header ∧
      (∀ header ∈ headers, ∃ i ≤ n, header = (block i).header) ∧
      ∀ i, height.toNat ≤ i → i < k → (block i).header ∈ headers := by
  induction k generalizing fuel curr headers with
  | zero =>
    -- the genesis block is not above any height
    have hdone : curr.header.height ≤ height := by
      rw [UInt64.le_iff_toNat_le, hcurr, node.history.height_eq hk]
      exact Nat.zero_le _
    rw [checkpointLoop_of_le hdone] at h
    cases h
    rw [Nat.le_zero.1 hle]
    exact ⟨hcurr, fun header hmem => absurd hmem not_mem_nil, fun i _ hi => by omega⟩
  | succ k ih =>
    have hheight : curr.header.height.toNat = k + 1 := by rw [hcurr, node.history.height_eq hk]
    by_cases hdone : curr.header.height ≤ height
    · have hsame : height.toNat = k + 1 := by
        have := UInt64.le_iff_toNat_le.1 hdone
        omega
      rw [checkpointLoop_of_le hdone] at h
      cases h
      rw [hsame]
      exact ⟨hcurr, fun header hmem => absurd hmem not_mem_nil, fun i _ hi => by omega⟩
    · have hlt : height.toNat ≤ k := by
        have := UInt64.lt_iff_toNat_lt.1 (UInt64.not_le.1 hdone)
        omega
      unfold checkpointLoop at h
      rw [if_neg hdone] at h
      cases fuel with
      | zero => cases h
      | succ fuel =>
        cases hparent : Chain.findBlock d curr.header.parent with
        | none =>
          simp only [hparent] at h
          cases h
        | some parent =>
          simp only [hparent] at h
          obtain ⟨⟨checkpoint', rest⟩, hrest, hreturn⟩ := bind_eq_ok.1 h
          cases hreturn
          rw [hcurr] at hparent
          obtain ⟨-, hheader⟩ := node.parent_header hk hparent
          obtain ⟨hcheckpoint, hmem, hall⟩ := ih (by omega) hlt hheader hrest
          refine ⟨hcheckpoint, ?_, ?_⟩
          · intro header hin
            rcases mem_cons.1 hin with rfl | hin
            · exact ⟨k, by omega, hheader⟩
            · exact hmem header hin
          · intro i hi hik
            by_cases hlast : i = k
            · rw [hlast]
              exact mem_cons.2 (.inl hheader.symm)
            · exact .tail _ (hall i hi (by omega))

theorem proofTrio_eq_ok {t : SnapshotBlockTrio} (h : proofTrio x d db genesisBlockHeight = .ok t) :
    t.second.header = (block 0).header := by
  unfold proofTrio at h
  cases htrio : db.getTrio x.toSnapshotConfig genesisBlockHeight with
  | some stored =>
    rw [htrio] at h
    cases h
    exact node.genesisTrio t htrio
  | none =>
    simp only [htrio, if_true] at h
    cases hhead : (Chain.findBlocksByHeight d genesisBlockHeight).head? with
    | none =>
      rw [hhead] at h
      cases h
    | some b =>
      rw [hhead] at h
      cases h
      exact node.genesis b hhead

end HonestNode

structure Exported (x : SnapshotExporter) (db : Database) (n : ℕ) (block : ℕ → Block)
    (writeStates : ExportViews → Except Refusal (List SnapshotTrieRecord)) (m : ℕ)
    (file : SnapshotFile) : Prop where
  pos : 0 < m
  second : file.metadata.tailTrio.second.header = (block m).header
  first : file.metadata.tailTrio.first.header = (block (m - 1)).header
  proofTrios : ∃ t, file.metadata.proofTrios = [t] ∧ t.second.header = (block 0).header
  checkpoint : ∃ j ≤ m, m < j + x.checkpointInterval ∧
    file.lastCheckpoint.checkpointHeader = (block j).header ∧
    (∀ header ∈ file.lastCheckpoint.intermediateHeaders, ∃ i ≤ n, header = (block i).header) ∧
    ∀ i, j ≤ i → i < m → (block i).header ∈ file.lastCheckpoint.intermediateHeaders
  states : ∃ v, writeStates v = .ok file.records ∧ StoredViews x db v ∧
    v.genesis.root = (block 0).header.stateHash ∧
    v.snapshot.height = (block m).header.height ∧ v.snapshot.root = (block m).header.stateHash

variable {writeStates : ExportViews → Except Refusal (List SnapshotTrieRecord)}
  {file : SnapshotFile} {m : ℕ}

theorem exported_of_exportSnapshot
    (node : HonestNode x codec d db lastFinalizedBlock n block content) {version : ℕ}
    {height : UInt64} {b : ExtendedBlock}
    (hfind : findSnapshotBlock d lastFinalizedBlock height = .ok b) (hm : m ≤ n)
    (hb : b.header = (block m).header)
    (h : exportSnapshot x d db version writeStates lastFinalizedBlock height = .ok file) :
    file.version = version ∧ Exported x db n block writeStates m file := by
  unfold exportSnapshot at h
  obtain ⟨b', hfind', h₀⟩ := bind_eq_ok.1 h
  obtain ⟨sv, hsv, h₁⟩ := bind_eq_ok.1 h₀
  obtain ⟨⟨checkpoint, headers⟩, hloop, h₂⟩ := bind_eq_ok.1 h₁
  obtain ⟨stored, hstored, h₃⟩ := bind_eq_ok.1 h₂
  obtain ⟨hl, hhl, h₄⟩ := bind_eq_ok.1 h₃
  obtain ⟨trios, htrios, h₅⟩ := bind_eq_ok.1 h₄
  obtain ⟨parent, hparent, h₆⟩ := bind_eq_ok.1 h₅
  obtain ⟨committed, -, h₇⟩ := bind_eq_ok.1 h₆
  obtain ⟨child, -, h₈⟩ := bind_eq_ok.1 h₇
  obtain ⟨vsProof, -, h₉⟩ := bind_eq_ok.1 h₈
  obtain ⟨genesis, hgenesis, h₁₀⟩ := bind_eq_ok.1 h₉
  obtain ⟨genesisSV, hgenesisSV, h₁₁⟩ := bind_eq_ok.1 h₁₀
  obtain ⟨checkpointSV, hcheckpointSV, h₁₂⟩ := bind_eq_ok.1 h₁₁
  obtain ⟨parentSV, hparentSV, h₁₃⟩ := bind_eq_ok.1 h₁₂
  obtain ⟨records, hrecords, hreturn⟩ := bind_eq_ok.1 h₁₃
  cases hreturn
  rw [hfind] at hfind'
  cases hfind'
  rw [hb] at hsv
  -- the height list holds the genesis height only
  obtain ⟨rfl, hsnapshot, hholds⟩ := node.stateOf_eq_ok hm hsv
  have hlist : hl = [genesisBlockHeight] := by
    have hread := getDecoded_of_reads "Error reading height list %X, error: %v"
      (hholds.updateTxHeights _ (node.history.updateTxHeights_eq hm))
    rw [StateView.getValidatorSetUpdateTxHeightList, hread, Except.ok.injEq] at hstored
    rw [deref_eq_ok, ← hstored, some.injEq] at hhl
    exact hhl.symm
  obtain ⟨t, rfl, htrio⟩ : ∃ t, trios = [t] ∧ t.second.header = (block 0).header := by
    have hall := mapM_eq_ok.1 htrios
    rw [hlist] at hall
    obtain ⟨t, rest, ht, hnil, rfl⟩ := forall₂_cons_left_iff.1 hall
    cases hnil
    exact ⟨t, rfl, node.proofTrio_eq_ok ht⟩
  rw [hlist, deref_eq_ok] at hgenesis
  have hheader : (block 0).header = genesis := htrio.symm.trans (some.inj hgenesis)
  rw [← hheader] at hgenesisSV
  obtain ⟨rfl, hgenesisState, -⟩ := node.stateOf_eq_ok (Nat.zero_le n) hgenesisSV
  -- the parent is the block before
  obtain ⟨hpos, hparentHeader⟩ : 0 < m ∧ parent.header = (block (m - 1)).header := by
    unfold findParent at hparent
    rw [hb] at hparent
    cases hstore : Chain.findBlock d (block m).header.parent with
    | none =>
      rw [hstore] at hparent
      cases hparent
    | some parent' =>
      rw [hstore] at hparent
      cases hparent
      exact node.parent_header hm hstore
  rw [hparentHeader] at hparentSV
  obtain ⟨rfl, hparentState, -⟩ := node.stateOf_eq_ok (by omega) hparentSV
  -- the checkpoint lies on the way back
  have hheight : b.header.height.toNat = m := by rw [hb, node.history.height_eq hm]
  obtain ⟨hle, hlt⟩ := node.checkpoints b.header.height (by
    rw [UInt64.lt_iff_toNat_lt, hheight]
    exact hpos)
  rw [hheight] at hle hlt
  obtain ⟨hcheckpoint, hheaders, hall⟩ := node.checkpointLoop_eq_ok hm hle hb hloop
  refine ⟨rfl, hpos, hb, hparentHeader, ⟨t, rfl, htrio⟩, ⟨_, hle, hlt, hcheckpoint, hheaders, hall⟩,
    _, hrecords, ⟨hgenesisState, fun sv hview => ?_, hparentState, hsnapshot⟩, rfl, rfl, rfl⟩
  unfold checkpointView at hcheckpointSV
  by_cases hskip : b.header.height ≠ x.lastCheckPointHeight b.header.height
  · rw [if_pos hskip, hcheckpoint] at hcheckpointSV
    obtain ⟨sv', hsv', hsome⟩ := map_eq_ok.1 hcheckpointSV
    obtain ⟨rfl, hstate, -⟩ := node.stateOf_eq_ok (hle.trans hm) hsv'
    rw [mem_def, ← hsome, some.injEq] at hview
    rw [← hview]
    exact hstate
  · rw [if_neg hskip] at hcheckpointSV
    cases hcheckpointSV
    cases hview

structure KeepsBlocks (cfg : SnapshotConfig) (n : ℕ) (block : ℕ → Block) (db db' : Database) :
    Prop where
  stored : BlocksStored cfg n block db → BlocksStored cfg n block db'
  present : ∀ h, (db.nodes h).isSome → (db'.nodes h).isSome

section Blocks

variable {cfg : SnapshotConfig} {db₁ db₂ db₃ : Database}

theorem KeepsBlocks.refl : KeepsBlocks cfg n block db₁ db₁ := ⟨id, fun _ => id⟩

theorem KeepsBlocks.trans (h : KeepsBlocks cfg n block db₁ db₂)
    (h' : KeepsBlocks cfg n block db₂ db₃) : KeepsBlocks cfg n block db₁ db₃ :=
  ⟨fun hdb => h'.stored (h.stored hdb), fun hash hhash => h'.present hash (h.present hash hhash)⟩

theorem Filled.keepsBlocks (hsrc : BlocksStored cfg n block db) (h : Filled db.nodes db₁ db₂) :
    KeepsBlocks cfg n block db₁ db₂ := by
  have hcases : ∀ hash, db₂.nodes hash = db₁.nodes hash ∨
      ∃ e, db.nodes hash = some e ∧ db₂.nodes hash = some e := by
    intro hash
    cases hnode : db.nodes hash with
    | none =>
      refine .inl (h.outside hash.bytes fun hash' hsome heq => ?_)
      rw [← Hash.bytes_injective heq, hnode] at hsome
      cases hsome
    | some e =>
      rcases h.inside hash e hnode with hsame | hnew
      · exact .inl hsame
      · exact .inr ⟨e, rfl, hnew⟩
  constructor
  · intro hstored i hi e he
    rcases hcases (cfg.hash (block i).header) with hsame | ⟨e', he', hnew⟩
    · exact hstored i hi e (hsame ▸ he)
    · rw [he, some.injEq] at hnew
      exact hsrc i hi e (hnew ▸ he')
  · intro hash hhash
    rcases hcases hash with hsame | ⟨e', -, hnew⟩
    · rw [hsame]
      exact hhash
    · rw [hnew]
      rfl

theorem nodes_putTrio (t : SnapshotBlockTrio) : (db₁.putTrio cfg t).nodes = db₁.nodes := by
  funext h
  refine Function.update_of_ne (fun heq => ?_) _ _
  have hlen := congrArg length heq
  have hname : "prooftrio_".toUTF8.toList.length = 10 := by decide +kernel
  have hdigits := Decimal.length_ofNat_le (k := 20) (by omega)
    (show t.first.header.height.toNat < 10 ^ 20 from
      lt_trans t.first.header.height.toNat_lt (by norm_num))
  rw [Hash.bytes, length_fixedBytes, trioKey, length_append, hname] at hlen
  omega

theorem nodes_saveProofTrios (cfg : SnapshotConfig) (db₁ : Database) (metadata : SnapshotMetadata) :
    (saveProofTrios cfg db₁ metadata).nodes = db₁.nodes := by
  unfold saveProofTrios
  induction metadata.proofTrios generalizing db₁ with
  | nil => rfl
  | cons t trios ih => rw [foldl_cons, ih, nodes_putTrio]

theorem keepsBlocks_saveProofTrios (metadata : SnapshotMetadata) :
    KeepsBlocks cfg n block db₁ (saveProofTrios cfg db₁ metadata) := by
  have hnodes := nodes_saveProofTrios cfg db₁ metadata
  refine ⟨fun h i hi e he => h i hi e ?_, fun hash hhash => ?_⟩
  · rw [← hnodes]
    exact he
  · rw [hnodes]
    exact hhash

end Blocks

namespace HonestNode

variable (node : HonestNode x codec d db lastFinalizedBlock n block content) {db₁ : Database}

include node

theorem keepsBlocks_putNewBlock {k : ℕ} (hk : k ≤ n) {eb : ExtendedBlock}
    (heb : eb.header = (block k).header) :
    KeepsBlocks x.toSnapshotConfig n block db₁ (db₁.putNewBlock x.toSnapshotConfig eb) := by
  unfold putNewBlock
  by_cases hfound : (db₁.getBlock x.toSnapshotConfig (x.hash eb.header)).isSome
  · rw [if_pos hfound]
    exact .refl
  · rw [if_neg hfound, putBlock]
    constructor
    · intro hstored i hi e he
      by_cases hsame : x.hash (block i).header = x.hash eb.header
      · rw [hsame, nodes_put_self, some.injEq] at he
        rw [← he, node.codecs k hk eb heb, heb]
        rw [heb] at hsame
        exact congrArg some (node.chainHash i hi k hk hsame.symm)
      · rw [nodes_put_of_ne _ hsame] at he
        exact hstored i hi e he
    · intro hash hhash
      by_cases hsame : hash = x.hash eb.header
      · rw [hsame, nodes_put_self]
        rfl
      · rw [nodes_put_of_ne _ hsame]
        exact hhash

omit node in
theorem isSome_putNewBlock (eb : ExtendedBlock) :
    ((db₁.putNewBlock x.toSnapshotConfig eb).nodes (x.hash eb.header)).isSome := by
  unfold putNewBlock
  by_cases hfound : (db₁.getBlock x.toSnapshotConfig (x.hash eb.header)).isSome
  · rw [if_pos hfound]
    unfold getBlock at hfound
    cases hnode : db₁.nodes (x.hash eb.header) with
    | some e => rfl
    | none =>
      rw [show db₁ (x.hash eb.header).bytes = none from hnode] at hfound
      cases hfound
  · rw [if_neg hfound, putBlock, nodes_put_self]
    rfl

theorem foldl_putNewBlock (db₁ : Database) {headers : List BlockHeader}
    (hchain : ∀ header ∈ headers, ∃ i ≤ n, header = (block i).header) :
    let db₂ := headers.foldl
      (fun db h => db.putNewBlock x.toSnapshotConfig ⟨⟨h, []⟩, [], .pending, false⟩) db₁
    KeepsBlocks x.toSnapshotConfig n block db₁ db₂ ∧
      ∀ header ∈ headers, (db₂.nodes (x.hash header)).isSome := by
  induction headers generalizing db₁ with
  | nil => exact ⟨.refl, fun header hmem => nomatch hmem⟩
  | cons header headers ih =>
    obtain ⟨k, hk, hheader⟩ := hchain header (by simp)
    obtain ⟨hkeeps, hpresent⟩ := ih
      (db₁.putNewBlock x.toSnapshotConfig ⟨⟨header, []⟩, [], .pending, false⟩)
      fun header' hmem => hchain header' (by simp [hmem])
    refine ⟨(node.keepsBlocks_putNewBlock hk hheader).trans hkeeps, fun header' hmem => ?_⟩
    rcases mem_cons.1 hmem with rfl | hrest
    · exact hkeeps.present _ (isSome_putNewBlock ⟨⟨header', []⟩, [], .pending, false⟩)
    · exact hpresent header' hrest

theorem saveLastCheckpoint_spec (db₁ : Database) {lastCheckpoint : LastCheckpoint} {j : ℕ}
    (hj : j ≤ n) (hcheckpoint : lastCheckpoint.checkpointHeader = (block j).header)
    (hchain : ∀ header ∈ lastCheckpoint.intermediateHeaders, ∃ i ≤ n, header = (block i).header) :
    KeepsBlocks x.toSnapshotConfig n block db₁
        (saveLastCheckpoint x.toSnapshotConfig db₁ lastCheckpoint) ∧
      ∀ header ∈ lastCheckpoint.intermediateHeaders,
        ((saveLastCheckpoint x.toSnapshotConfig db₁ lastCheckpoint).nodes
          (x.hash header)).isSome := by
  obtain ⟨hkeeps, hpresent⟩ := node.foldl_putNewBlock
    (db₁.putNewBlock x.toSnapshotConfig
      ⟨⟨lastCheckpoint.checkpointHeader, []⟩, [], .trusted, false⟩) hchain
  exact ⟨(node.keepsBlocks_putNewBlock hj hcheckpoint).trans hkeeps, hpresent⟩

theorem descendsLoop_eq (hstored : BlocksStored x.toSnapshotConfig n block db₁) {j k fuel : ℕ}
    (hk : k ≤ n) (hjk : j ≤ k) (hfuel : k < j + fuel)
    (hpresent : ∀ i, j < i → i ≤ k → (db₁.nodes (x.hash (block i).header)).isSome) :
    descendsLoop x.toSnapshotConfig db₁ (x.hash (block j).header) fuel
      (x.hash (block k).header) = .ok true := by
  induction fuel generalizing k with
  | zero => omega
  | succ fuel ih =>
    unfold descendsLoop
    by_cases hsame : x.hash (block k).header = x.hash (block j).header
    · rw [if_pos hsame]
    · rw [if_neg hsame]
      have hne : j ≠ k := fun heq => hsame (by rw [heq])
      obtain ⟨e, he⟩ := isSome_iff_exists.1 (hpresent k (by omega) le_rfl)
      obtain ⟨eb, heb, hheader⟩ := map_eq_some_iff.1 (hstored k hk e he)
      have hget : db₁.getBlock x.toSnapshotConfig (x.hash (block k).header) = some eb := by
        rw [getBlock, show db₁ (x.hash (block k).header).bytes = some e from he]
        exact heb
      obtain ⟨i, rfl⟩ : ∃ i, k = i + 1 := ⟨k - 1, by omega⟩
      simp only [hget, hheader, node.history.link i (by omega)]
      exact ih (by omega) (by omega) (by omega) fun l hjl hl => hpresent l hjl (by omega)

theorem saveTailBlocks_eq (db₁ : Database) {m : ℕ} (hm : m ≤ n) (hpos : 0 < m)
    {metadata : SnapshotMetadata} (hfirst : metadata.tailTrio.first.header = (block (m - 1)).header)
    (hsecond : metadata.tailTrio.second.header = (block m).header) {sv : StateView}
    (hholds : HoldsContent sv.get (content m)) :
    ∃ db₂, saveTailBlocks x.toSnapshotConfig metadata sv db₁ = .ok ((block m).header, db₂) ∧
      KeepsBlocks x.toSnapshotConfig n block db₁ db₂ ∧
      (db₂.nodes (x.hash (block m).header)).isSome := by
  have hheights : sv.getValidatorSetUpdateTxHeightList = .ok (some [genesisBlockHeight]) :=
    getDecoded_of_reads _ (hholds.updateTxHeights _ (node.history.updateTxHeights_eq hm))
  have hheight : (block m).header.height ≠ genesisBlockHeight := by
    intro heq
    have htoNat := node.history.height_eq hm
    rw [heq, show genesisBlockHeight.toNat = 0 from rfl] at htoNat
    omega
  refine ⟨_, by
    simp only [saveTailBlocks, hheights, hsecond, hheight, ne_eq, not_false_eq_true, if_true]
    rfl, ?_, ?_⟩
  · exact (node.keepsBlocks_putNewBlock (k := m - 1) (by omega) hfirst).trans
      (node.keepsBlocks_putNewBlock hm rfl)
  · exact isSome_putNewBlock _

end HonestNode

def GenesisExpected (cfg : SnapshotConfig) (genesis : BlockHeader) : Prop :=
  genesis.chainID = mainnetChainID → cfg.genesisHash = mainnetGenesisBlockHash

theorem checkGenesisBlock_iff {cfg : SnapshotConfig} {genesis : BlockHeader} {db₁ : Database}
    {gsv : StateView} {vs vs' : ValidatorSet} (hheight : genesis.height = genesisBlockHeight)
    (hhash : cfg.hash genesis = cfg.genesisHash)
    (hview : newStoreView cfg db₁ genesis.height genesis.stateHash = some gsv)
    (hset : getValidatorSetFromSV gsv = .ok vs) :
    checkGenesisBlock cfg genesis db₁ = .ok vs' ↔ GenesisExpected cfg genesis ∧ vs = vs' := by
  have hresult : (do
      let gsv ← deref (newStoreView cfg db₁ genesis.height genesis.stateHash)
      getValidatorSetFromSV gsv) = (.ok vs : Except Refusal ValidatorSet) := by
    rw [hview]
    exact hset
  unfold checkGenesisBlock GenesisExpected
  rw [hresult, hhash, if_neg (not_not.2 hheight)]
  by_cases hchain : genesis.chainID = mainnetChainID
  · by_cases hmain : cfg.genesisHash = mainnetGenesisBlockHash
    · simp [hchain, hmain]
    · simp [hchain, hmain]
  · simp [hchain]

variable (node : HonestNode x codec d db lastFinalizedBlock n block content)
include node

theorem checkSnapshot_iff
    (hm : m ≤ n) (hpos : 0 < m) {metadata : SnapshotMetadata} {t : SnapshotBlockTrio}
    (hsecond : metadata.tailTrio.second.header = (block m).header)
    (htrios : metadata.proofTrios = [t]) (ht : t.second.header = (block 0).header)
    {sv gsv : StateView} (hroot : sv.root = (block m).header.stateHash)
    (hholds : HoldsContent sv.get (content m)) {db₁ : Database}
    (hview : newStoreView x.toSnapshotConfig db₁ (block 0).header.height (block 0).header.stateHash
      = some gsv) (hgenesis : HoldsContent gsv.get (content 0)) :
    checkSnapshot x.toSnapshotConfig sv metadata db₁ = .ok () ↔
      History.NoUpdate codec block m ∧ GenesisExpected x.toSnapshotConfig (block 0).header := by
  obtain ⟨vs, hvs⟩ := node.history.exists_validatorSet (Nat.zero_le n)
  obtain ⟨vs', hvs'⟩ := node.history.exists_validatorSet hm
  have hheight : metadata.tailTrio.second.header.height ≠ genesisBlockHeight := by
    intro heq
    have htoNat := node.history.height_eq hm
    rw [← hsecond, heq, show genesisBlockHeight.toNat = 0 from rfl] at htoNat
    omega
  have hproven : ∀ w, checkProofTrios x.toSnapshotConfig db₁ metadata.proofTrios = .ok (some w) ↔
      GenesisExpected x.toSnapshotConfig (block 0).header ∧ filterValidators vs = w := by
    intro w
    rw [htrios, ← checkGenesisBlock_iff node.history.genesisHeight node.history.genesisHash hview
      (getValidatorSetFromSV_of_holds hgenesis hvs), ← ht]
    unfold checkProofTrios
    rw [bind_eq_ok]
    constructor
    · rintro ⟨w', hcheck, hreturn⟩
      cases hreturn
      exact mapError_eq_ok.1 hcheck
    · intro hcheck
      exact ⟨w, mapError_eq_ok.2 hcheck, rfl⟩
  rw [checkSnapshot_eq_ok hheight, hsecond,
    ← node.history.filterValidators_eq_iff hm hvs hvs']
  simp only [hroot, hproven, getValidatorSetFromSV_of_holds hholds hvs', true_and,
    Except.ok.injEq]
  constructor
  · rintro ⟨w, ⟨hexpected, hw⟩, hw'⟩
    exact ⟨hw.trans hw'.symm, hexpected⟩
  · rintro ⟨heq, hexpected⟩
    exact ⟨_, ⟨hexpected, rfl⟩, heq.symm⟩

theorem Restored.holds (hm : m ≤ n) {v : ExportViews} (hviews : StoredViews x db v)
    (hgenesis : v.genesis.root = (block 0).header.stateHash)
    (hroot : v.snapshot.root = (block m).header.stateHash) {db₁ : Database} {state : LoadedState}
    (h : Restored x db v db₁ state) :
    state.sv.root = (block m).header.stateHash ∧ HoldsContent state.sv.get (content m) ∧
      ∃ gsv, newStoreView x.toSnapshotConfig state.db (block 0).header.height
          (block 0).header.stateHash = some gsv ∧ HoldsContent gsv.get (content 0) := by
  have hsnapshot := (node.state m hm
    (by rw [← hroot]; exact hviews.snapshot.complete.state _ .root)).2
  have hfirst := hgenesis ▸ hviews.genesis
  obtain ⟨hempty, hne, e, he⟩ := hfirst.opens node.laws
  have hsame : ∀ y, x.trie.Reach db.nodes (block 0).header.stateHash y →
      db.nodes y = state.db.nodes y := fun y hy => (h.genesis y (hgenesis ▸ hy)).symm
  have hopen := newStoreView_of_root x.toSnapshotConfig (block 0).header.height hempty hne
    ((hsame _ .root).symm.trans he)
  simp only [← NodeStore.Format.read_congr hsame] at hopen
  refine ⟨by rw [h.sv, hroot], ?_, _, hopen, (node.state 0 (Nat.zero_le n) (by rw [he]; rfl)).2⟩
  rw [h.sv, hroot]
  exact hsnapshot

theorem checkCheckpoint_eq_ok
    (hm : m ≤ n) (hfile : Exported x db n block writeStates m file) (hversion : 2 ≤ file.version)
    {db₁ : Database}
    (hkeeps : KeepsBlocks x.toSnapshotConfig n block (saveCheckpoint x.toSnapshotConfig .empty
      file) db₁) (hsecond : (db₁.nodes (x.hash (block m).header)).isSome) :
    checkCheckpoint x.toSnapshotConfig db₁ (block m).header file = .ok () := by
  obtain ⟨j, hjm, hinterval, hcheckpoint, hheaders, hall⟩ := hfile.checkpoint
  have hempty : BlocksStored x.toSnapshotConfig n block .empty := by
    intro i hi e he
    cases he
  obtain ⟨hsaved, hpresent⟩ :=
    node.saveLastCheckpoint_spec .empty (hjm.trans hm) hcheckpoint hheaders
  rw [saveCheckpoint, if_pos hversion] at hkeeps
  have hloop := node.descendsLoop_eq (hkeeps.stored (hsaved.stored hempty)) hm hjm hinterval
    fun i hji him => by
      by_cases hlast : i = m
      · rw [hlast]
        exact hsecond
      · exact hkeeps.present _ (hpresent _ (hall i hji.le (by omega)))
  rw [checkCheckpoint, if_pos hversion, mapError_eq_ok, checkLastCheckpoint, hcheckpoint,
    hloop]
  rfl

theorem loadSnapshot_iff (hm : m ≤ n) (hfile : Exported x db n block writeStates m file)
    (hversion : file.version = 2 ∨ file.version = 3)
    (hload : ∀ v, writeStates v = .ok file.records → StoredViews x db v → v.snapshot.height =
      (block m).header.height → v.snapshot.root = (block m).header.stateHash → ∀ db₁, ∃ state,
      loadState x.toSnapshotConfig db₁ file = .ok state ∧ Restored x db v db₁ state) :
    (∃ loaded, loadSnapshot x.toSnapshotConfig .empty file = .ok ((block m).header, loaded)) ↔
      History.NoUpdate codec block m ∧ GenesisExpected x.toSnapshotConfig (block 0).header := by
  obtain ⟨v, hrecords, hviews, hgenesis, hheight, hroot⟩ := hfile.states
  obtain ⟨state, hstate, hrestored⟩ := hload v hrecords hviews hheight hroot
    (saveCheckpoint x.toSnapshotConfig .empty file)
  obtain ⟨hsvRoot, hholds, gsv, hview, hgenesisHolds⟩ :=
    hrestored.holds node hm hviews hgenesis hroot
  obtain ⟨t, htrios, ht⟩ := hfile.proofTrios
  have hcheck : checkVersion x.toSnapshotConfig file.version state.sv file.metadata state.db =
      .ok () ↔ History.NoUpdate codec block m ∧
        GenesisExpected x.toSnapshotConfig (block 0).header := by
    rw [checkVersion, if_neg (by omega)]
    exact checkSnapshot_iff node hm hfile.pos hfile.second htrios ht hsvRoot hholds hview
      hgenesisHolds
  rw [← hcheck]
  constructor
  · rintro ⟨loaded, hloaded⟩
    obtain ⟨state', hstate', haccepted, -⟩ := loadSnapshot_eq_ok.1 hloaded
    rw [hstate, Except.ok.injEq] at hstate'
    rw [hstate']
    exact haccepted
  · intro haccepted
    obtain ⟨db₂, htail, hkeeps, hsecond⟩ := node.saveTailBlocks_eq
      (saveProofTrios x.toSnapshotConfig state.db file.metadata) hm hfile.pos hfile.first
      hfile.second hholds
    have hkept : KeepsBlocks x.toSnapshotConfig n block
        (saveCheckpoint x.toSnapshotConfig .empty file) db₂ :=
      (hrestored.filled.keepsBlocks node.blocks).trans
        ((keepsBlocks_saveProofTrios file.metadata).trans hkeeps)
    obtain ⟨vs, hvs⟩ := node.history.exists_validatorSet hm
    refine ⟨⟨state.sv, db₂⟩, loadSnapshot_eq_ok.2 ⟨state, hstate, haccepted, htail,
      checkCheckpoint_eq_ok node hm hfile (by omega) hkept hsecond, ⟨vs, ?_⟩, rfl⟩⟩
    exact getDecoded_of_reads _ (hholds.validatorSet vs hvs)

omit node

/-- The file of either exporter is accepted on an empty database exactly if no block up to the
snapshot block has a `SubchainValidatorSetUpdateTx`. -/
theorem exported_accepted_iff_no_update
    (node : HonestNode x codec d db lastFinalizedBlock n block content) {height : UInt64}
    {b : ExtendedBlock} (hfind : findSnapshotBlock d lastFinalizedBlock height = .ok b) {m : ℕ}
    (hm : m ≤ n) (hb : b.header = (block m).header) {file : SnapshotFile}
    (hexport : exportSnapshotV2 x d db lastFinalizedBlock height = .ok file ∨
      exportSnapshotV3 x d db lastFinalizedBlock height = .ok file) :
    (∃ loaded, loadSnapshot x.toSnapshotConfig .empty file = .ok (b.header, loaded)) ↔
      History.NoUpdate codec block m ∧ GenesisExpected x.toSnapshotConfig (block 0).header := by
  rw [hb]
  rcases hexport with h₂ | h₃
  · obtain ⟨hversion, hfile⟩ := exported_of_exportSnapshot node hfind hm hb h₂
    refine loadSnapshot_iff node hm hfile (.inl hversion) fun v hrecords hviews _ _ db₁ => ?_
    exact loadState_writeStatesV2 node.laws hviews hversion hrecords db₁
  · obtain ⟨hversion, hfile⟩ := exported_of_exportSnapshot node hfind hm hb h₃
    refine loadSnapshot_iff node hm hfile (.inr hversion) fun v hrecords hviews hh hr db₁ => ?_
    rw [← hfile.second] at hh hr
    exact loadState_writeStatesV3 node.laws hviews hversion hrecords hh hr db₁

end RoundTrip

/-! ## A chain whose second block replaces the validator

The states are single nodes with the validator set and the height list. -/

theorem keybytesToHex_injective : Function.Injective keybytesToHex := by
  intro a b h
  have hnibbles := append_cancel_right h
  clear h
  induction a generalizing b with
  | nil =>
    cases b with
    | nil => rfl
    | cons y b => cases hnibbles
  | cons y a ih =>
    cases b with
    | nil => cases hnibbles
    | cons z b =>
      simp only [flatMap_cons, cons_append, nil_append, cons.injEq] at hnibbles
      obtain ⟨hhigh, hlow, hrest⟩ := hnibbles
      have hbyte : y = z := by
        have h₁ := congrArg UInt8.toNat hhigh
        have h₂ := congrArg UInt8.toNat hlow
        simp only [UInt8.toNat_div, UInt8.toNat_mod, UInt8.reduceToNat] at h₁ h₂
        refine UInt8.toNat_inj.1 ?_
        omega
      rw [hbyte, ih hrest]

def nextSet : ValidatorSet := ⟨1, [⟨9, 5⟩]⟩

abbrev Pairs := List (Bytes × Bytes)

def pairsRoot (pairs : Pairs) : Hash := codecKeccak (plainNode pairs)

def tripPairs (vs : ValidatorSet) : Pairs :=
  [(currentValidatorSetKey, Rlp.encode vs.toItem),
    (validatorSetUpdateTxHeightListKey, Rlp.encode (.list [.list [.uint 0]]))]

def tripRoot (vs : ValidatorSet) : Hash := pairsRoot (tripPairs vs)

def storagePairs : Pairs := [(Rlp.fixedBytes 32 5, [6])]

/-- A contract; its account is the root of its storage. -/
def contractPairs : Pairs := [(accountKeyStart ++ [7], (pairsRoot storagePairs).bytes)]

def tripTries : List Pairs := [tripPairs plainSet, tripPairs nextSet, storagePairs, contractPairs]

def putTries (tries : List Pairs) (db : Database) : Database :=
  tries.foldr (fun pairs db => db.put (pairsRoot pairs).bytes (plainNode pairs)) db

def tripDB : Database := putTries tripTries .empty

def tripEntries (content : TrieContent) : Pairs :=
  (tripTries.flatten.map Prod.fst).dedup.filterMap fun k => (content k).map fun v => (k, v)

def tripTrieNodes (content : TrieContent) : List Bytes :=
  if (tripEntries content).isEmpty then [] else [plainNode (tripEntries content)]

def tripTrieRoot (content : TrieContent) : Hash :=
  if (tripEntries content).isEmpty then 0 else codecKeccak (plainNode (tripEntries content))

def pairOfItem : Rlp.Item → Option (Bytes × Bytes)
  | .list [.str k, .str v] => some (k, v)
  | _ => none

def tripTraverse (s : NodeStore.Store Hash Bytes) (root : Hash) : List (Bytes × Bytes) :=
  match (s root).bind Rlp.decode with
  | some (.list items) => items.filterMap pairOfItem
  | _ => []

def tripBlock : ℕ → Block
  | 0 => ⟨plainHeader 0 0 none, []⟩
  | 1 => ⟨plainHeader 1 1 none, [[0]]⟩
  | 2 => ⟨{ plainHeader 2 2 none with stateHash := tripRoot nextSet }, [[0], [1]]⟩
  | _ => ⟨{ plainHeader 3 3 none with stateHash := tripRoot nextSet }, []⟩

def tripExporter : SnapshotExporter :=
  { plainConfig with
    trieRoot := tripTrieRoot
    trieNodes := tripTrieNodes
    accountRoot := fun v => some (.ofNat _ (Rlp.toNat v))
    decodeBlock := fun b => some ⟨tripBlock (Rlp.toNat b), [], .pending, false⟩
    lastCheckPointHeight := fun h => (h - 1) / 100 * 100 + 1
    traverse := tripTraverse
    nodeIterator := fun _ root => [root]
    differenceIterator := fun _ base root => if root = base then [] else [root]
    prove := fun _ _ _ => some [] }

def tripStored : List ExtendedBlock :=
  [⟨tripBlock 0, [2], .directlyFinalized, false⟩, ⟨tripBlock 1, [3], .directlyFinalized, false⟩,
    ⟨tripBlock 2, [4], .directlyFinalized, false⟩, ⟨tripBlock 3, [], .committed, false⟩]

def tripStore : Store :=
  { Store.empty with
    block := fun h => tripStored.find? fun b => plainConfig.hash b.header = h
    blocksByHeight := fun height => some [BitVec.ofNat 256 (height.toNat + 1)] }

def tripLedgerConfig : LedgerConfig :=
  { Ledger.sampleConfig (fun _ => some nextSet) [] with
    rootHash := fun c => tripRoot (c.validatorSet.getD plainSet) }

def tripLedger (c : LedgerContent) : Ledger :=
  { Ledger.sampleLedger with delivered := { height := 0, store := c } }

def tripContent : ℕ → LedgerContent
  | 0 => { Ledger.genesisContent with updateTxHeights := some [genesisBlockHeight] }
  | k + 1 =>
    match (tripLedger (tripContent k)).applyBlockTxs tripLedgerConfig (tripBlock (k + 1)) with
    | .ok (l, _) => l.delivered.store
    | .error _ => tripContent k

theorem trip_history :
    History tripExporter.toSnapshotConfig tripLedgerConfig.exec.codec 2 tripBlock tripContent where
  genesisHeight := rfl
  genesisHash := by decide
  validators := rfl
  updateTxHeights := rfl
  link := by decide
  height := by decide
  executed := by
    intro k hk
    have hr : ((tripLedger (tripContent k)).applyBlockTxs tripLedgerConfig
        (tripBlock (k + 1))).toOption.map (·.2.1) = some .ok := by
      interval_cases k
      · decide +kernel
      · decide +kernel
    cases happly : (tripLedger (tripContent k)).applyBlockTxs tripLedgerConfig (tripBlock (k + 1)) with
    | error e =>
      rw [happly] at hr
      cases hr
    | ok out =>
      obtain ⟨l', res, update⟩ := out
      rw [happly] at hr
      obtain rfl : res = .ok := some.inj hr
      refine ⟨tripLedgerConfig, tripLedger (tripContent k), l', update, rfl, ?_, rfl, ?_⟩
      · exact happly
      · rw [tripContent, happly]

theorem trip_states : ∀ pairs ∈ tripTries,
    (plainNode pairs).length < 2 ^ 64 ∧ (pairsRoot pairs).isEmpty = false ∧ pairs ≠ [] ∧
    tripDB.nodes (pairsRoot pairs) = some (plainNode pairs) ∧ tripEntries (pairs.lookup ·) = pairs ∧
    (pairs.map Prod.fst).Nodup ∧ ∀ p ∈ pairs, p.2 ≠ [] ∧ p.1 ≠ svStart ∧ p.1 ≠ svEnd ∧
      (accountKeyStart.isPrefixOf p.1 = true → ∃ storage ∈ tripTries,
        tripExporter.accountRoot p.2 = some (pairsRoot storage)) := by
  decide +kernel

variable {pairs : Pairs}

theorem nodes_tripDB (hp : pairs ∈ tripTries) :
    tripDB.nodes (pairsRoot pairs) = some (plainNode pairs) :=
  (trip_states pairs hp).2.2.2.1

theorem exists_of_nodes_putTries {tries : List Pairs} {h : Hash} {e : Bytes}
    (he : (putTries tries .empty).nodes h = some e) :
    ∃ pairs ∈ tries, h = pairsRoot pairs ∧ e = plainNode pairs := by
  induction tries with
  | nil => cases he
  | cons pairs tries ih =>
    have hput : putTries (pairs :: tries) .empty =
        (putTries tries .empty).put (pairsRoot pairs).bytes (plainNode pairs) := rfl
    rw [hput] at he
    by_cases hroot : h = pairsRoot pairs
    · rw [hroot, nodes_put_self, some.injEq] at he
      exact ⟨pairs, mem_cons_self, hroot, he.symm⟩
    · rw [nodes_put_of_ne _ hroot] at he
      obtain ⟨pairs', hmem, hpairs'⟩ := ih he
      exact ⟨pairs', mem_cons_of_mem _ hmem, hpairs'⟩

theorem decode_plainNode (hp : pairs ∈ tripTries) :
    decode (plainNode pairs) = some (.list (pairs.map fun p => .list [.str p.1, .str p.2])) :=
  decode_encode (trip_states pairs hp).1

theorem plainTrie_reach {s : NodeStore.Store Hash Bytes} {root h : Hash} :
    plainTrie.Reach s root h ↔ h = root := by
  constructor
  · intro hreach
    cases hreach with
    | root => rfl
    | ref _ _ hc => cases hc
  · rintro rfl
    exact .root

theorem exists_of_complete {r : Hash} (hr : plainTrie.Complete tripDB.nodes r) :
    ∃ pairs ∈ tripTries, r = pairsRoot pairs := by
  obtain ⟨e, he⟩ := isSome_iff_exists.1 (hr r .root)
  obtain ⟨pairs, hp, hroot, -⟩ := exists_of_nodes_putTries he
  exact ⟨pairs, hp, hroot⟩

theorem findSome?_plainValue (pairs : Pairs) (k : Bytes) :
    (pairs.map fun p => (.list [.str p.1, .str p.2] : Rlp.Item)).findSome?
      (plainValue (keybytesToHex k)) = pairs.lookup k := by
  induction pairs with
  | nil => rfl
  | cons p pairs ih =>
    obtain ⟨key, value⟩ := p
    rw [map_cons, findSome?_cons, ih, plainValue, lookup_cons]
    by_cases hk : k = key
    · simp [hk]
    · simp [keybytesToHex_injective.eq_iff, beq_false_of_ne hk, Ne.symm hk]

theorem trieContent_pairsRoot (hp : pairs ∈ tripTries) :
    trieContent tripExporter tripDB.nodes (pairsRoot pairs) = (pairs.lookup ·) := by
  funext k
  have htrie : tripExporter.trie = plainTrie := rfl
  have hformat : plainTrie.follow = plainFollow := rfl
  rw [trieContent, htrie]
  simp only [NodeStore.Format.read, NodeStore.Format.readFrom, nodes_tripDB hp, hformat,
    plainFollow, decode_plainNode hp, findSome?_plainValue]
  cases pairs.lookup k <;> rfl

theorem tripTraverse_pairsRoot (hp : pairs ∈ tripTries) :
    tripTraverse tripDB.nodes (pairsRoot pairs) = pairs := by
  rw [tripTraverse, nodes_tripDB hp, bind_some, decode_plainNode hp]
  show (pairs.map _).filterMap pairOfItem = pairs
  rw [filterMap_map]
  exact filterMap_some

theorem mem_iff_lookup {k v : Bytes} (h : (pairs.map Prod.fst).Nodup) :
    (k, v) ∈ pairs ↔ pairs.lookup k = some v := by
  induction pairs with
  | nil => simp
  | cons p pairs ih =>
    obtain ⟨key, value⟩ := p
    obtain ⟨hnew, h⟩ := nodup_cons.1 h
    rw [mem_cons, ih h, lookup_cons]
    by_cases hk : k = key
    · have hnone : pairs.lookup key ≠ some v := fun hv => hnew (mem_map.2 ⟨_, (ih h).2 (hk ▸ hv), hk⟩)
      simp [hk, hnone, eq_comm]
    · simp [hk, beq_false_of_ne hk]

theorem mem_pairs (hp : pairs ∈ tripTries) {k v : Bytes} :
    (k, v) ∈ pairs ↔ trieContent tripExporter tripDB.nodes (pairsRoot pairs) k = some v := by
  rw [trieContent_pairsRoot hp]
  exact mem_iff_lookup (trip_states pairs hp).2.2.2.2.2.1

theorem nodes_tripDB_emptyRoot : tripDB.nodes tripExporter.emptyRoot = none := by
  refine eq_none_iff_forall_ne_some.2 fun e he => ?_
  obtain ⟨pairs, hp, hroot, -⟩ := exists_of_nodes_putTries he
  have hne := (trip_states pairs hp).2.1
  rw [← hroot] at hne
  cases hne

theorem trip_laws : TrieLaws tripExporter tripDB.nodes where
  nonempty := by
    intro h e he
    obtain ⟨pairs, hp, rfl, -⟩ := exists_of_nodes_putTries he
    exact (trip_states pairs hp).2.1
  noEmptyRoot := nodes_tripDB_emptyRoot
  emptyTrie := by
    refine ⟨?_, ?_, ?_⟩
    · show tripTraverse tripDB.nodes tripExporter.emptyRoot = []
      rw [tripTraverse, nodes_tripDB_emptyRoot]
      rfl
    · show tripTrieRoot (fun _ => none) = 0
      simp [tripTrieRoot, tripEntries]
    · show tripTrieNodes (fun _ => none) = []
      simp [tripTrieNodes, tripEntries]
  addressed := by
    intro r _ h e _ he
    obtain ⟨pairs, -, hroot, hnode⟩ := exists_of_nodes_putTries he
    rw [hroot, hnode]
    rfl
  values := by
    intro r hr k v hv
    obtain ⟨pairs, hp, rfl⟩ := exists_of_complete hr
    exact ((trip_states pairs hp).2.2.2.2.2.2 (k, v) ((mem_pairs hp).2 hv)).1
  traverse := by
    intro r hr k v
    obtain ⟨pairs, hp, rfl⟩ := exists_of_complete hr
    rw [← trieContent, ← mem_pairs hp]
    show (k, v) ∈ tripTraverse _ _ ↔ _
    rw [tripTraverse_pairsRoot hp]
  distinct := by
    intro r hr
    obtain ⟨pairs, hp, rfl⟩ := exists_of_complete hr
    show ((tripTraverse _ _).map Prod.fst).Nodup
    rw [tripTraverse_pairsRoot hp]
    exact (trip_states pairs hp).2.2.2.2.2.1
  nodeIterator := by
    intro r _ h _
    exact mem_singleton.trans plainTrie_reach.symm
  difference := by
    intro b r _ _ h _
    show h ∈ (if r = b then [] else [r]) ↔ plainTrie.Reach _ r h ∧ ¬ plainTrie.Reach _ b h
    rw [plainTrie_reach, plainTrie_reach]
    by_cases hrb : r = b
    · simp [hrb]
    · simp only [hrb, if_false, mem_singleton]
      exact ⟨fun heq => ⟨heq, heq ▸ hrb⟩, And.left⟩
  trieRoot := by
    intro r hr
    obtain ⟨pairs, hp, rfl⟩ := exists_of_complete hr
    show tripTrieRoot (trieContent tripExporter tripDB.nodes (pairsRoot pairs)) = pairsRoot pairs
    obtain ⟨-, -, hne, -, hentries, -⟩ := trip_states pairs hp
    rw [tripTrieRoot, trieContent_pairsRoot hp, hentries, if_neg (by simpa using hne)]
    rfl
  trieNodes := by
    intro r hr e
    obtain ⟨pairs, hp, rfl⟩ := exists_of_complete hr
    show e ∈ tripTrieNodes (trieContent tripExporter tripDB.nodes (pairsRoot pairs)) ↔ _
    obtain ⟨-, -, hne, -, hentries, -⟩ := trip_states pairs hp
    rw [tripTrieNodes, trieContent_pairsRoot hp, hentries, if_neg (by simpa using hne),
      mem_singleton]
    constructor
    · rintro rfl
      exact ⟨_, .root, nodes_tripDB hp⟩
    · rintro ⟨h, hreach, hh⟩
      rw [plainTrie_reach.1 hreach, nodes_tripDB hp, some.injEq] at hh
      exact hh.symm

theorem complete_pairsRoot (hp : pairs ∈ tripTries) :
    plainTrie.Complete tripDB.nodes (pairsRoot pairs) := by
  intro h hreach
  rw [plainTrie_reach.1 hreach, nodes_tripDB hp]
  rfl

theorem pairsRoot_storedState (hp : pairs ∈ tripTries) :
    StoredState tripExporter tripDB.nodes (pairsRoot pairs) := by
  have hkeys : ∀ pairs ∈ tripTries, ∀ k v,
      trieContent tripExporter tripDB.nodes (pairsRoot pairs) k = some v →
        k ≠ svStart ∧ k ≠ svEnd := by
    intro pairs hp k v hv
    obtain ⟨-, hstart, hend, -⟩ := (trip_states pairs hp).2.2.2.2.2.2 (k, v) ((mem_pairs hp).2 hv)
    exact ⟨hstart, hend⟩
  have hstorage : ∀ r, StorageRoot tripExporter.toSnapshotConfig tripDB.nodes (pairsRoot pairs) r →
      ∃ storage ∈ tripTries, r = pairsRoot storage := by
    rintro r ⟨key, value, hkey, hread, hroot, -⟩
    obtain ⟨storage, hmem, haccount⟩ :=
      ((trip_states pairs hp).2.2.2.2.2.2 (key, value) ((mem_pairs hp).2 hread)).2.2.2 hkey
    exact ⟨storage, hmem, some.inj (hroot.symm.trans haccount)⟩
  refine ⟨⟨complete_pairsRoot hp, fun r hr => ?_⟩, fun _ _ _ _ => rfl, hkeys pairs hp, ?_⟩
  · obtain ⟨storage, hmem, rfl⟩ := hstorage r hr
    exact complete_pairsRoot hmem
  · intro r hr
    obtain ⟨storage, hmem, rfl⟩ := hstorage r hr
    exact hkeys storage hmem

def tripSets : List ValidatorSet := [plainSet, nextSet]

theorem tripPairs_mem (vs : ValidatorSet) (hvs : vs ∈ tripSets) : tripPairs vs ∈ tripTries := by
  rcases mem_cons.1 hvs with rfl | hvs
  · exact mem_cons_self
  · obtain rfl := mem_singleton.1 hvs
    exact mem_cons_of_mem _ mem_cons_self

theorem tripRoot_holdsContent {vs : ValidatorSet} (hvs : vs ∈ tripSets) {c : LedgerContent}
    (hset : c.validatorSet = some vs) (hheights : c.updateTxHeights = some [genesisBlockHeight]) :
    HoldsContent (trieContent tripExporter tripDB.nodes (tripRoot vs)) c := by
  have hread : ∀ vs ∈ tripSets,
      (tripPairs vs).lookup currentValidatorSetKey = some (encode vs.toItem) ∧
      encode vs.toItem ≠ [] ∧ decodeValidatorSet (encode vs.toItem) = some vs ∧
      (tripPairs vs).lookup validatorSetUpdateTxHeightListKey =
        some (encode (.list [.list [.uint 0]])) := by decide +kernel
  obtain ⟨hvalidators, hne, hdecode, hlist⟩ := hread vs hvs
  rw [tripRoot, trieContent_pairsRoot (tripPairs_mem vs hvs)]
  constructor
  · intro vs' hvs'
    rw [hset, some.injEq] at hvs'
    exact ⟨_, hvalidators, hne, hvs' ▸ hdecode⟩
  · intro hl hhl
    rw [hheights, some.injEq] at hhl
    have hvalue : encode (.list [.list [.uint 0]]) ≠ [] ∧
        decodeHeightList (encode (.list [.list [.uint 0]])) = some [genesisBlockHeight] := by
      decide
    exact ⟨_, hlist, hvalue.1, hhl ▸ hvalue.2⟩

theorem mem_tripStored {h : Hash} {b : ExtendedBlock} (hb : tripStore.block h = some b) :
    b ∈ tripStored ∧ tripExporter.hash b.header = h := by
  have hfind : tripStored.find? (fun b => plainConfig.hash b.header = h) = some b := hb
  have hhash := find?_some hfind
  exact ⟨mem_of_find?_eq_some hfind, of_decide_eq_true hhash⟩

theorem tripExporter_checkpoints (h : UInt64) (hpos : 0 < h) :
    (tripExporter.lastCheckPointHeight h).toNat ≤ h.toNat ∧
      h.toNat < (tripExporter.lastCheckPointHeight h).toNat + tripExporter.checkpointInterval := by
  have hlt := h.toNat_lt
  have hpos' : 0 < h.toNat := UInt64.lt_iff_toNat_lt.1 hpos
  have hone : (1 : UInt64) ≤ h := UInt64.le_iff_toNat_le.2 hpos'
  have htoNat : (tripExporter.lastCheckPointHeight h).toNat = (h.toNat - 1) / 100 * 100 + 1 := by
    show ((h - 1) / 100 * 100 + 1 : UInt64).toNat = _
    rw [UInt64.toNat_add, UInt64.toNat_mul, UInt64.toNat_div, UInt64.toNat_sub_of_le _ _ hone]
    show ((h.toNat - 1) / 100 * 100 % 2 ^ 64 + 1) % 2 ^ 64 = _
    omega
  have hinterval : tripExporter.checkpointInterval = 100 := rfl
  omega

theorem trip_node : HonestNode tripExporter tripLedgerConfig.exec.codec tripStore tripDB 3 2
    tripBlock tripContent where
  history := trip_history
  stored := fun h b hb => (mem_tripStored hb).2
  storedHash := by
    have hall : ∀ k ≤ 2, ∀ b ∈ tripStored,
        tripExporter.hash b.header = tripExporter.hash (tripBlock k).header →
          b.header = (tripBlock k).header := by decide +kernel
    intro k hk h b hb
    exact hall k hk b (mem_tripStored hb).1
  chainHash := by decide +kernel
  finalized := by
    have hall : ∀ b ∈ tripStored, b.status.isDirectlyFinalized →
        ∃ k ≤ 2, b.header = (tripBlock k).header := by decide +kernel
    intro h b hb
    exact hall b (mem_tripStored hb).1
  lastFinalized := by
    intro b hb
    have hlast : (tripStore.block 3).map ExtendedBlock.header = some (tripBlock 2).header := by
      decide +kernel
    rw [hb, map_some, some.injEq] at hlast
    exact ⟨2, le_rfl, hlast⟩
  genesisParent := by decide
  genesis := by
    intro b hb
    have hhead : ((Chain.findBlocksByHeight tripStore genesisBlockHeight).head?).map
        ExtendedBlock.header = some (tripBlock 0).header := by decide +kernel
    rw [hb, map_some, some.injEq] at hhead
    exact hhead
  genesisTrio := by
    intro t ht
    have hnone : tripDB (trioKey genesisBlockHeight) = none := by decide +kernel
    rw [getTrio, hnone] at ht
    cases ht
  laws := trip_laws
  stateRoot := by decide +kernel
  state := by
    have hall : ∀ k ≤ 2, ∃ vs ∈ tripSets, (tripBlock k).header.stateHash = tripRoot vs ∧
        (tripContent k).validatorSet = some vs := by decide +kernel
    intro k hk _
    obtain ⟨vs, hvs, hroot, hset⟩ := hall k hk
    rw [hroot]
    exact ⟨pairsRoot_storedState (tripPairs_mem vs hvs),
      tripRoot_holdsContent hvs hset (trip_history.updateTxHeights_eq hk)⟩
  blocks := by
    have hnone : ∀ i ≤ 2, tripDB.nodes (tripExporter.hash (tripBlock i).header) = none := by
      decide +kernel
    intro i hi e he
    rw [hnone i hi] at he
    cases he
  codecs := by
    intro k hk eb heb
    show some (tripBlock (toNat (fixedBytes 8 eb.header.height.toNat))).header = _
    rw [toNat_fixedBytes eb.header.height.toNat_lt, heb, trip_history.height_eq hk]
  checkpoints := tripExporter_checkpoints

def tripExport (version : ℕ) (height : UInt64) : Except Refusal SnapshotFile :=
  if version = 2 then exportSnapshotV2 tripExporter tripStore tripDB 3 height
  else exportSnapshotV3 tripExporter tripStore tripDB 3 height

def tripLoad (version : ℕ) (height : UInt64) : Except Refusal BlockHeader := do
  let file ← tripExport version height
  let (header, _) ← loadSnapshot tripExporter.toSnapshotConfig .empty file
  return header

theorem exported_accepted_iff_no_update_first :
    findSnapshotBlock tripStore 3 1 = .ok ⟨tripBlock 1, [3], .directlyFinalized, false⟩ ∧
    ∀ version ∈ [2, 3], ∃ file, tripExport version 1 = .ok file ∧
      ∃ loaded, loadSnapshot tripExporter.toSnapshotConfig .empty file =
        .ok ((tripBlock 1).header, loaded) := by
  have hexported : ∀ version ∈ [2, 3], (tripExport version 1).toOption.isSome = true := by
    decide +kernel
  have hnoUpdate : History.NoUpdate tripLedgerConfig.exec.codec tripBlock 1 := by
    intro i hi
    obtain rfl : i = 0 := by omega
    rintro ⟨raw, hraw, tx, htx⟩
    obtain rfl : raw = [0] := mem_singleton.1 hraw
    cases htx
  have hchain : GenesisExpected tripExporter.toSnapshotConfig (tripBlock 0).header := by
    intro hmain
    revert hmain
    decide +kernel
  have hfind : findSnapshotBlock tripStore 3 1 =
      .ok ⟨tripBlock 1, [3], .directlyFinalized, false⟩ := by decide +kernel
  refine ⟨hfind, fun version hversion => ?_⟩
  cases hexport : tripExport version 1 with
  | error e =>
    have hsome := hexported version hversion
    rw [hexport] at hsome
    cases hsome
  | ok file =>
    refine ⟨file, rfl, (exported_accepted_iff_no_update trip_node hfind (m := 1) (by omega) rfl
      ?_).2 ⟨hnoUpdate, hchain⟩⟩
    unfold tripExport at hexport
    split_ifs at hexport
    · exact .inl hexport
    · exact .inr hexport

/-- Both exporters accept the block that replaces the validator, and the loader rejects
their files. -/
theorem exported_after_update_rejected :
    HonestNode tripExporter tripLedgerConfig.exec.codec tripStore tripDB 3 2 tripBlock tripContent ∧
    (∃ b, findSnapshotBlock tripStore 3 2 = .ok b ∧ b.header = (tripBlock 2).header ∧
      b.status = .directlyFinalized) ∧
    ∀ version ∈ [2, 3], ∃ file, tripExport version 2 = .ok file ∧
      (∀ loaded, loadSnapshot tripExporter.toSnapshotConfig .empty file ≠ .ok loaded) ∧
      tripLoad version 2 = .error (.error "Snapshot state validation failed: %v") := by
  refine ⟨trip_node, ⟨⟨tripBlock 2, [4], .directlyFinalized, false⟩, by decide +kernel, rfl, rfl⟩,
    ?_⟩
  have hloads : ∀ version ∈ [2, 3], (tripExport version 2).toOption.isSome = true ∧
      tripLoad version 2 = .error (.error "Snapshot state validation failed: %v") := by
    decide +kernel
  intro version hversion
  obtain ⟨hsome, hload⟩ := hloads version hversion
  cases hexport : tripExport version 2 with
  | error e =>
    rw [hexport] at hsome
    cases hsome
  | ok file =>
    refine ⟨file, rfl, fun loaded hloaded => ?_, hload⟩
    rw [tripLoad, hexport] at hload
    simp only [bind, Except.bind, hloaded] at hload
    cases hload

end Snapshot

end ThetaSubchain
