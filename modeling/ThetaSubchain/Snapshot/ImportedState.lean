/-
The state that a snapshot of version 3 or 4 leaves in the database.

The loader writes the records under whatever keys they name, so nothing ties what is read to what
the state root commits to.
-/
import ThetaSubchain.Snapshot.Acceptance

namespace ThetaSubchain

open NodeStore.Format List Ending

namespace Snapshot

section Imported

variable (cfg : SnapshotConfig)

/-- The root of the storage of an account in a state.  A storage without entries has no
nodes. -/
def StorageRoot (s : NodeStore.Store Hash Bytes) (root r : Hash) : Prop :=
  ∃ key value, accountKeyStart.isPrefixOf key = true ∧
    cfg.trie.read s root (keybytesToHex key) = some value ∧ cfg.accountRoot value = some r ∧
    r.isEmpty = false ∧ r ≠ cfg.emptyRoot

structure StateComplete (s : NodeStore.Store Hash Bytes) (root : Hash) : Prop where
  state : cfg.trie.Complete s root
  storage : ∀ r, StorageRoot cfg s root r → cfg.trie.Complete s r

structure CommittedTrie (root : Hash) where
  nodes : NodeStore.Store Hash Bytes
  addressed : cfg.trie.Addressed nodes
  complete : StateComplete cfg nodes root

def stateDB (db : Database) (file : SnapshotFile) : Database :=
  loadStateV3 (saveLastCheckpoint cfg db file.lastCheckpoint) file.records

variable {cfg} in
structure ImportsCommitted {root : Hash} (c : CommittedTrie cfg root) (db : Database)
    (file : SnapshotFile) (sv : StateView) : Prop where
  addressed : ∀ r ∈ file.records, r.k = (cfg.trie.hash r.v).bytes
  state : ∀ h, cfg.trie.Reach c.nodes root h → ((stateDB cfg db file).nodes h).isSome
  storage : ∀ r, StorageRoot cfg c.nodes root r → ∀ h, cfg.trie.Reach c.nodes r h →
    ((stateDB cfg db file).nodes h).isSome
  values : ∀ key, sv.get key = cfg.trie.read c.nodes root (keybytesToHex key)
  slots : ∀ r, StorageRoot cfg c.nodes root r → ∀ path,
    cfg.trie.read (stateDB cfg db file).nodes r path = cfg.trie.read c.nodes r path

def nodesOver (db : Database) (records : List SnapshotTrieRecord) : NodeStore.Store Hash Bytes :=
  fun h =>
    match records.reverse.find? (fun r => r.k = h.bytes) with
    | some r => some r.v
    | none => db.nodes h

/-- Each record is named by its hash, and every reference that is reached from the root leads
to a record or to a node that was there before. -/
structure RecordsClosed (db : Database) (file : SnapshotFile) : Prop where
  addressed : ∀ r ∈ file.records, r.k = (cfg.trie.hash r.v).bytes
  complete : StateComplete cfg
    (nodesOver (saveLastCheckpoint cfg db file.lastCheckpoint) file.records)
    file.metadata.tailTrio.second.header.stateHash

variable {cfg} in
/-- No other encoding in use has the hash of a committed node: neither a record of the file
nor what the database holds before, the checkpoint blocks of the file included. -/
structure NoCollision {root : Hash} (c : CommittedTrie cfg root) (db : Database)
    (file : SnapshotFile) : Prop where
  records : ∀ r ∈ file.records, ∀ h e, c.nodes h = some e → cfg.trie.hash e = cfg.trie.hash r.v →
    e = r.v
  database : Consistent c.nodes (saveLastCheckpoint cfg db file.lastCheckpoint).nodes

variable {cfg}

theorem loadStateV3_nodes (db : Database) (records : List SnapshotTrieRecord) :
    (loadStateV3 db records).nodes = nodesOver db records := by
  induction records using reverseRecOn generalizing db with
  | nil => rfl
  | append_singleton records r ih =>
    funext h
    have hstep : (loadStateV3 db (records ++ [r])).nodes h =
        if r.k = h.bytes then some r.v else (loadStateV3 db records).nodes h := by
      simp only [loadStateV3, foldl_append, foldl_cons, foldl_nil, Database.nodes,
        Database.put, Function.update_apply, eq_comm (a := h.bytes)]
    rw [hstep, ih]
    by_cases hk : r.k = h.bytes
    · simp [nodesOver, hk]
    · simp [nodesOver, hk]

variable {db : Database} {root : Hash}

theorem get_of_newStoreView {height : UInt64} {sv : StateView}
    (hsv : newStoreView cfg db height root = some sv) {k : Bytes} (hk : (sv.get k).isSome)
    (key : Bytes) : sv.get key = cfg.trie.read db.nodes root (keybytesToHex key) := by
  unfold newStoreView at hsv
  by_cases hempty : (root.isEmpty || root == cfg.emptyRoot) = true
  · rw [if_pos hempty] at hsv
    cases hsv
    cases hk
  · rw [if_neg hempty] at hsv
    cases hnode : db.nodes root with
    | none => simp [hnode] at hsv
    | some e =>
      simp only [hnode, Option.some.injEq] at hsv
      rw [← hsv]

theorem isSome_of_getValidatorSet {sv : StateView} {vs : ValidatorSet}
    (h : sv.getValidatorSet = .ok (some vs)) : (sv.get currentValidatorSetKey).isSome := by
  have hbind := getDecoded_eq_ok h
  cases hget : sv.get currentValidatorSetKey with
  | none => simp [hget] at hbind
  | some data => rfl

theorem get_of_accepted {file : SnapshotFile} {header : BlockHeader} {loaded : LoadedState}
    (haccepted : loadSnapshot cfg db file = .ok (header, loaded)) (hversion : 3 ≤ file.version)
    (key : Bytes) :
    loaded.sv.get key = cfg.trie.read (stateDB cfg db file).nodes
      file.metadata.tailTrio.second.header.stateHash (keybytesToHex key) := by
  obtain ⟨state, hstate, -, -, -, ⟨vs, hvs⟩, hsv⟩ := loadSnapshot_eq_ok.1 haccepted
  rw [loadState, if_pos hversion] at hstate
  obtain ⟨sv, hview, hreturn⟩ := Ending.bind_eq_ok.1 hstate
  cases hreturn
  have hsave : saveCheckpoint cfg db file = saveLastCheckpoint cfg db file.lastCheckpoint :=
    if_pos (by omega)
  rw [deref_eq_ok, hsave] at hview
  rw [hsv]
  exact get_of_newStoreView hview (isSome_of_getValidatorSet hvs) key

theorem storageRoot_congr {s t : NodeStore.Store Hash Bytes} {root r : Hash}
    (h : ∀ path, cfg.trie.read s root path = cfg.trie.read t root path) :
    StorageRoot cfg s root r ↔ StorageRoot cfg t root r := by
  unfold StorageRoot
  simp only [h]

theorem stateComplete_iff (c : CommittedTrie cfg root) {s : NodeStore.Store Hash Bytes}
    (h : Consistent c.nodes s) :
    StateComplete cfg s root ↔
      (∀ x, cfg.trie.Reach c.nodes root x → (s x).isSome) ∧
        ∀ r, StorageRoot cfg c.nodes root r → ∀ x, cfg.trie.Reach c.nodes r x → (s x).isSome := by
  have hstate := complete_iff c.complete.state h
  have hstorage := fun r hr => complete_iff (c.complete.storage r hr) h
  constructor
  · intro hs
    have hsame := c.complete.state.read_eq hs.state h
    exact ⟨hstate.1 hs.state, fun r hr =>
      (hstorage r hr).1 (hs.storage r ((storageRoot_congr hsame).2 hr))⟩
  · rintro ⟨hroot, hslots⟩
    have hs := hstate.2 hroot
    have hsame := c.complete.state.read_eq hs h
    refine ⟨hs, fun r hr => ?_⟩
    have hr' := (storageRoot_congr hsame).1 hr
    exact (hstorage r hr').2 (hslots r hr')

theorem consistent_of_addressed {c : CommittedTrie cfg root} {file : SnapshotFile}
    (hfree : NoCollision c db file)
    (haddressed : ∀ r ∈ file.records, r.k = (cfg.trie.hash r.v).bytes) :
    Consistent c.nodes
      (nodesOver (saveLastCheckpoint cfg db file.lastCheckpoint) file.records) := by
  intro h e e' he he'
  unfold nodesOver at he'
  cases hfind : file.records.reverse.find? (fun r => r.k = h.bytes) with
  | none =>
    rw [hfind] at he'
    exact hfree.database h e e' he he'
  | some r =>
    rw [hfind] at he'
    cases he'
    have hr : r ∈ file.records := mem_reverse.1 (mem_of_find?_eq_some hfind)
    have hk : r.k = h.bytes := by simpa using find?_some hfind
    have hhash : cfg.trie.hash r.v = h :=
      Hash.bytes_injective ((haddressed r hr).symm.trans hk)
    exact hfree.records r hr h e he ((c.addressed h e he).trans hhash.symm)

/-- An accepted file of version 3 or 4 leaves the committed state in the database exactly if
its records are named by their hashes and closed under references. -/
theorem importsCommitted_iff_recordsClosed {db : Database} {file : SnapshotFile}
    {header : BlockHeader} {loaded : LoadedState}
    (haccepted : loadSnapshot cfg db file = .ok (header, loaded))
    (hversion : file.version = 3 ∨ file.version = 4)
    (c : CommittedTrie cfg file.metadata.tailTrio.second.header.stateHash)
    (hfree : NoCollision c db file) :
    ImportsCommitted c db file loaded.sv ↔ RecordsClosed cfg db file := by
  have hnodes : (stateDB cfg db file).nodes =
      nodesOver (saveLastCheckpoint cfg db file.lastCheckpoint) file.records :=
    loadStateV3_nodes _ _
  have hget := get_of_accepted haccepted (show 3 ≤ file.version by omega)
  constructor
  · intro h
    have hcons := consistent_of_addressed hfree h.addressed
    refine ⟨h.addressed, (stateComplete_iff c hcons).2 ⟨?_, ?_⟩⟩
    · exact hnodes ▸ h.state
    · exact hnodes ▸ h.storage
  · intro h
    have hcons := consistent_of_addressed hfree h.addressed
    obtain ⟨hstate, hstorage⟩ := (stateComplete_iff c hcons).1 h.complete
    have hread := c.complete.state.read_eq h.complete.state hcons
    refine ⟨h.addressed, hnodes ▸ hstate, hnodes ▸ hstorage, fun key => ?_, fun r hr path => ?_⟩
    · rw [hget, hnodes, hread]
    · have hcomplete := h.complete.storage r ((storageRoot_congr hread).2 hr)
      rw [hnodes]
      exact (c.complete.storage r hr).read_eq hcomplete hcons path

end Imported

/-! ## Files of the chain with one validator -/

def plainFile (version : Nat) (node : Bytes) : SnapshotFile where
  version := version
  lastCheckpoint := ⟨plainMetadata.tailTrio.second.header, []⟩
  metadata := plainMetadata
  records := [⟨plainRoot.bytes, node⟩]

def plainNodes : NodeStore.Store Hash Bytes :=
  fun h => if h = plainRoot then some (plainState plainSet []) else none

theorem eq_of_plainNodes {h : Hash} {e : Bytes} (he : plainNodes h = some e) :
    h = plainRoot ∧ e = plainState plainSet [] := by
  by_cases hroot : h = plainRoot
  · rw [plainNodes, if_pos hroot] at he
    cases he
    exact ⟨hroot, rfl⟩
  · rw [plainNodes, if_neg hroot] at he
    cases he

theorem plainTrie_complete {s : NodeStore.Store Hash Bytes} (h : (s plainRoot).isSome) :
    plainTrie.Complete s plainRoot := by
  intro x hx
  cases hx with
  | root => exact h
  | ref _ _ hc => cases hc

theorem plainConfig_stateComplete {s : NodeStore.Store Hash Bytes} (h : (s plainRoot).isSome) :
    StateComplete plainConfig s plainRoot := by
  refine ⟨plainTrie_complete h, ?_⟩
  rintro r ⟨key, value, -, -, hroot, -⟩
  cases hroot

def plainCommittedTrie : CommittedTrie plainConfig plainRoot where
  nodes := plainNodes
  addressed := by
    intro h e he
    obtain ⟨rfl, rfl⟩ := eq_of_plainNodes he
    rfl
  complete := plainConfig_stateComplete (by rw [plainNodes, if_pos rfl]; rfl)

theorem importsCommitted_iff_recordsClosed_plain :
    ∃ header loaded, loadSnapshot plainConfig .empty (plainFile 3 (plainState plainSet [])) =
        .ok (header, loaded) ∧
      ImportsCommitted plainCommittedTrie .empty (plainFile 3 (plainState plainSet []))
        loaded.sv := by
  have hloaded : (loadSnapshot plainConfig .empty
      (plainFile 3 (plainState plainSet []))).toOption.isSome = true := by decide +kernel
  cases hload : loadSnapshot plainConfig .empty (plainFile 3 (plainState plainSet [])) with
  | error e =>
    rw [hload] at hloaded
    cases hloaded
  | ok out =>
    obtain ⟨header, loaded⟩ := out
    have hfree : NoCollision plainCommittedTrie .empty (plainFile 3 (plainState plainSet [])) := by
      constructor
      · intro r hr h e he _
        obtain ⟨-, rfl⟩ := eq_of_plainNodes he
        rw [mem_singleton.1 hr]
      · intro h e e' he he'
        obtain ⟨rfl, rfl⟩ := eq_of_plainNodes he
        have hnone : (saveLastCheckpoint plainConfig .empty
            (plainFile 3 (plainState plainSet [])).lastCheckpoint).nodes plainRoot = none := by
          decide +kernel
        rw [hnone] at he'
        cases he'
    have hclosed : RecordsClosed plainConfig .empty (plainFile 3 (plainState plainSet [])) := by
      refine ⟨fun r hr => ?_, plainConfig_stateComplete ?_⟩
      · rw [mem_singleton.1 hr]
        rfl
      · decide +kernel
    exact ⟨header, loaded, rfl,
      (importsCommitted_iff_recordsClosed hload (.inl rfl) plainCommittedTrie hfree).2 hclosed⟩

def forgedNode : Bytes := plainState plainSet [([1], [9])]

/-- A record under the root that does not have that hash is accepted, and the entry it adds is
read from the imported state. -/
theorem forged_record_imported :
    plainConfig.trie.read plainCommittedTrie.nodes plainRoot (keybytesToHex [1]) = none ∧
    ∀ version ∈ [3, 4], ∃ header loaded,
      loadSnapshot plainConfig .empty (plainFile version forgedNode) = .ok (header, loaded) ∧
      (∃ r ∈ (plainFile version forgedNode).records, r.k ≠ (plainConfig.trie.hash r.v).bytes) ∧
      loaded.sv.get [1] = some [9] ∧
      ¬ ImportsCommitted plainCommittedTrie .empty (plainFile version forgedNode) loaded.sv := by
  have hloaded : ∀ version ∈ [3, 4], ((loadSnapshot plainConfig .empty
      (plainFile version forgedNode)).toOption.map fun out => out.2.sv.get [1]) =
        some (some [9]) := by decide +kernel
  have hrecord : plainRoot.bytes ≠ (plainConfig.trie.hash forgedNode).bytes := by decide +kernel
  have hnone : plainConfig.trie.read plainCommittedTrie.nodes plainRoot (keybytesToHex [1]) =
      none := by decide +kernel
  refine ⟨hnone, fun version hversion => ?_⟩
  specialize hloaded version hversion
  cases hload : loadSnapshot plainConfig .empty (plainFile version forgedNode) with
  | error e =>
    rw [hload] at hloaded
    cases hloaded
  | ok out =>
    obtain ⟨header, loaded⟩ := out
    rw [hload] at hloaded
    have hget : loaded.sv.get [1] = some [9] := Option.some.inj hloaded
    refine ⟨header, loaded, rfl, ⟨_, mem_singleton.2 rfl, hrecord⟩, hget, fun h => ?_⟩
    exact hrecord (h.addressed _ (mem_singleton.2 rfl))

end Snapshot

end ThetaSubchain
