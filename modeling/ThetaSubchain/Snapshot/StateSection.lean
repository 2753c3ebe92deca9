/-
The state section of a snapshot, written by the exporter and read by the loader.

Version 2 rebuilds each trie from its entries; the variable for the current account says whether a
nested view is a storage trie.  Version 3 copies nodes, and the differences that are left out chain
up to the genesis state, which is written as a whole.
-/
import ThetaSubchain.Snapshot.Export
import ThetaSubchain.Snapshot.ImportedState

namespace ThetaSubchain

open NodeStore.Format List Ending

namespace Snapshot

/-! ## Databases filled from a store of nodes -/

/-- Nothing but nodes of the store has been written, each under its place in the store. -/
structure Filled (src : NodeStore.Store Hash Bytes) (db db' : Database) : Prop where
  outside : ∀ key, (∀ h, (src h).isSome → key ≠ h.bytes) → db' key = db key
  inside : ∀ h e, src h = some e → db'.nodes h = db.nodes h ∨ db'.nodes h = some e

section Filled

variable {src : NodeStore.Store Hash Bytes} {db db' db'' : Database}

theorem Filled.refl (src : NodeStore.Store Hash Bytes) (db : Database) : Filled src db db :=
  ⟨fun _ _ => rfl, fun _ _ _ => .inl rfl⟩

theorem Filled.trans (h₁ : Filled src db db') (h₂ : Filled src db' db'') : Filled src db db'' where
  outside key hkey := (h₂.outside key hkey).trans (h₁.outside key hkey)
  inside h e he := by
    rcases h₂.inside h e he with hsame | hnew
    · rw [hsame]
      exact h₁.inside h e he
    · exact .inr hnew

theorem Filled.keeps (hf : Filled src db db') {h : Hash} (hh : (src h).isSome)
    (heq : db.nodes h = src h) : db'.nodes h = src h := by
  obtain ⟨e, he⟩ := Option.isSome_iff_exists.1 hh
  rcases hf.inside h e he with hsame | hnew
  · rw [hsame, heq]
  · rw [hnew, he]

theorem filled_put {h : Hash} {e : Bytes} (he : src h = some e) :
    Filled src db (db.put h.bytes e) where
  outside key hkey := by
    have hne : key ≠ h.bytes := hkey h (by rw [he]; rfl)
    rw [Database.put, Function.update_of_ne hne]
  inside h' e' he' := by
    by_cases hh : h' = h
    · right
      rw [hh, he, Option.some.injEq] at he'
      rw [hh, db.nodes_put_self, he']
    · left
      exact db.nodes_put_of_ne hh e

theorem loadStateV3_filled (db : Database) (records : List SnapshotTrieRecord)
    (hrec : ∀ r ∈ records, ∃ h e, src h = some e ∧ r = ⟨h.bytes, e⟩) :
    Filled src db (loadStateV3 db records) ∧
      ∀ h e, (⟨h.bytes, e⟩ : SnapshotTrieRecord) ∈ records →
        (loadStateV3 db records).nodes h = src h := by
  induction records generalizing db with
  | nil => exact ⟨.refl src db, fun h e hmem => nomatch hmem⟩
  | cons r records ih =>
    obtain ⟨h, e, he, rfl⟩ := hrec r (by simp)
    obtain ⟨hfilled, hfound⟩ := ih (db.put h.bytes e) fun r hr => hrec r (by simp [hr])
    refine ⟨(filled_put he).trans hfilled, fun h' e' hmem => ?_⟩
    rcases mem_cons.1 hmem with heq | hrest
    · simp only [SnapshotTrieRecord.mk.injEq] at heq
      have hh : h' = h := Hash.bytes_injective heq.1
      rw [hh]
      exact hfilled.keeps (by rw [he]; rfl) ((db.nodes_put_self h e).trans he.symm)
    · exact hfound h' e' hrest

end Filled

/-- What the library guarantees for the tries in a store.  No node has the empty hash or the
root of the empty trie. -/
structure TrieLaws (x : SnapshotExporter) (s : NodeStore.Store Hash Bytes) : Prop where
  nonempty : ∀ h e, s h = some e → h.isEmpty = false
  noEmptyRoot : s x.emptyRoot = none
  emptyTrie : x.traverse s x.emptyRoot = [] ∧ x.trieRoot (fun _ => none) = x.emptyRoot ∧
    x.trieNodes (fun _ => none) = []
  addressed : ∀ r, x.trie.Complete s r → ∀ h e, x.trie.Reach s r h → s h = some e →
    x.trie.hash e = h
  /-- An update with an empty value deletes a key. -/
  values : ∀ r, x.trie.Complete s r → ∀ k v,
    x.trie.read s r (keybytesToHex k) = some v → v ≠ []
  traverse : ∀ r, x.trie.Complete s r → ∀ k v,
    (k, v) ∈ x.traverse s r ↔ x.trie.read s r (keybytesToHex k) = some v
  distinct : ∀ r, x.trie.Complete s r → ((x.traverse s r).map Prod.fst).Nodup
  nodeIterator : ∀ r, x.trie.Complete s r → ∀ h, h.isEmpty = false →
    (h ∈ x.nodeIterator s r ↔ x.trie.Reach s r h)
  difference : ∀ b r, x.trie.Complete s b → x.trie.Complete s r → ∀ h, h.isEmpty = false →
    (h ∈ x.differenceIterator s b r ↔ x.trie.Reach s r h ∧ ¬ x.trie.Reach s b h)
  trieRoot : ∀ r, x.trie.Complete s r →
    x.trieRoot (fun k => x.trie.read s r (keybytesToHex k)) = r
  trieNodes : ∀ r, x.trie.Complete s r → ∀ e,
    e ∈ x.trieNodes (fun k => x.trie.read s r (keybytesToHex k)) ↔
      ∃ h, x.trie.Reach s r h ∧ s h = some e

def trieContent (x : SnapshotExporter) (s : NodeStore.Store Hash Bytes) (r : Hash) : TrieContent :=
  fun k => x.trie.read s r (keybytesToHex k)

/-- A state that is stored as a whole.  Its keys are built by the key constructors and those of
the storage are hashes, so none of them is a marker. -/
structure StoredState (x : SnapshotExporter) (s : NodeStore.Store Hash Bytes) (r : Hash) :
    Prop where
  complete : StateComplete x.toSnapshotConfig s r
  accounts : ∀ k v, accountKeyStart.isPrefixOf k = true → trieContent x s r k = some v →
    (x.accountRoot v).isSome
  keys : ∀ k v, trieContent x s r k = some v → k ≠ svStart ∧ k ≠ svEnd
  storageKeys : ∀ r', StorageRoot x.toSnapshotConfig s r r' → ∀ k v,
    trieContent x s r' k = some v → k ≠ svStart ∧ k ≠ svEnd

section Laws

variable {x : SnapshotExporter} {db : Database} {r : Hash}

def Opens (x : SnapshotExporter) (s : NodeStore.Store Hash Bytes) (r : Hash) : Prop :=
  r = x.emptyRoot ∨ x.trie.Complete s r

/-- A state whose records can be read back.  The storage of its accounts matters only if it is
written. -/
structure Exportable (x : SnapshotExporter) (s : NodeStore.Store Hash Bytes) (r : Hash)
    (needAccountStorage : Bool) : Prop where
  opens : Opens x s r
  accounts : ∀ k v, accountKeyStart.isPrefixOf k = true → trieContent x s r k = some v →
    (x.accountRoot v).isSome
  keys : ∀ k v, trieContent x s r k = some v → k ≠ svStart ∧ k ≠ svEnd
  storage : needAccountStorage = true → ∀ r', StorageRoot x.toSnapshotConfig s r r' →
    x.trie.Complete s r' ∧ ∀ k v, trieContent x s r' k = some v → k ≠ svStart ∧ k ≠ svEnd

theorem StoredState.exportable (h : StoredState x db.nodes r) (flag : Bool) :
    Exportable x db.nodes r flag :=
  ⟨.inr h.complete.state, h.accounts, h.keys,
    fun _ r' hr' => ⟨h.complete.storage r' hr', h.storageKeys r' hr'⟩⟩

def Rebuilt (x : SnapshotExporter) (db db' : Database) (r : Hash) : Prop :=
  ∀ h e, x.trie.Reach db.nodes r h → db.nodes h = some e → db'.nodes h = some e

theorem Rebuilt.filled {db₁ db₂ : Database} (hr : Rebuilt x db db₁ r)
    (hf : Filled db.nodes db₁ db₂) : Rebuilt x db db₂ r := fun h e hh he =>
  (hf.keeps (by rw [he]; rfl) ((hr h e hh he).trans he.symm)).trans he

variable (laws : TrieLaws x db.nodes)
include laws

theorem trieContent_emptyRoot : trieContent x db.nodes x.emptyRoot = fun _ => none := by
  funext k
  rw [trieContent, NodeStore.Format.read, readFrom, laws.noEmptyRoot]

variable {k v : Bytes}

theorem opens_storage (hstate : Exportable x db.nodes r true)
    {r' : Hash} (hk : accountKeyStart.isPrefixOf k = true)
    (hv : trieContent x db.nodes r k = some v) (hr' : x.accountRoot v = some r')
    (hne : r'.isEmpty = false) :
    Opens x db.nodes r' ∧
      ∀ k v, trieContent x db.nodes r' k = some v → k ≠ svStart ∧ k ≠ svEnd := by
  by_cases hempty : r' = x.emptyRoot
  · refine ⟨.inl hempty, fun k v hkv => ?_⟩
    rw [hempty, trieContent_emptyRoot laws] at hkv
    cases hkv
  · obtain ⟨hcomplete, hkeys⟩ := hstate.storage rfl r' ⟨k, v, hk, hv, hr', hne, hempty⟩
    exact ⟨.inr hcomplete, hkeys⟩

theorem mem_traverse (hr : Opens x db.nodes r) :
    (k, v) ∈ x.traverse db.nodes r ↔ trieContent x db.nodes r k = some v := by
  rcases hr with rfl | hr
  · rw [laws.emptyTrie.1, trieContent_emptyRoot laws]
    simp
  · exact laws.traverse r hr k v

theorem trieRoot_content (hr : Opens x db.nodes r) : x.trieRoot (trieContent x db.nodes r) = r := by
  rcases hr with rfl | hr
  · rw [trieContent_emptyRoot laws]
    exact laws.emptyTrie.2.1
  · exact laws.trieRoot r hr

theorem save_filled (hr : Opens x db.nodes r) (db' : Database) :
    Filled db.nodes db' (save x.toSnapshotConfig db' (trieContent x db.nodes r)) ∧
      Rebuilt x db (save x.toSnapshotConfig db' (trieContent x db.nodes r)) r := by
  have heq : save x.toSnapshotConfig db' (trieContent x db.nodes r) = loadStateV3 db'
      ((x.trieNodes (trieContent x db.nodes r)).map fun n => ⟨(x.trie.hash n).bytes, n⟩) := by
    rw [loadStateV3, foldl_map]
    rfl
  rcases hr with rfl | hr
  · rw [heq, trieContent_emptyRoot laws, laws.emptyTrie.2.2]
    refine ⟨.refl _ _, fun h e hreach he => ?_⟩
    rw [hreach.eq_root laws.noEmptyRoot, laws.noEmptyRoot] at he
    cases he
  · have hnodes : ∀ n ∈ x.trieNodes (trieContent x db.nodes r),
        db.nodes (x.trie.hash n) = some n := by
      intro n hn
      obtain ⟨h, hreach, hh⟩ := (laws.trieNodes r hr n).1 hn
      rw [laws.addressed r hr h n hreach hh, hh]
    obtain ⟨hfilled, hfound⟩ := loadStateV3_filled db'
      ((x.trieNodes (trieContent x db.nodes r)).map fun n => ⟨(x.trie.hash n).bytes, n⟩)
      fun rec hrec => by
        obtain ⟨n, hn, rfl⟩ := mem_map.1 hrec
        exact ⟨_, n, hnodes n hn, rfl⟩
    rw [heq]
    refine ⟨hfilled, fun h e hreach he => ?_⟩
    refine (hfound h e (mem_map.2 ⟨e, (laws.trieNodes r hr e).2 ⟨h, hreach, he⟩, ?_⟩)).trans he
    rw [laws.addressed r hr h e hreach he]

omit laws

def NodeRecords (db : Database) (records : List SnapshotTrieRecord) : Prop :=
  ∀ rec ∈ records, ∃ h e, db.nodes h = some e ∧ rec = ⟨h.bytes, e⟩

def HasNode (records : List SnapshotTrieRecord) (h : Hash) : Prop :=
  ∃ e, (⟨h.bytes, e⟩ : SnapshotTrieRecord) ∈ records

theorem writeNode_eq_ok {h : Hash} {rec : SnapshotTrieRecord} (hw : writeNode db h = .ok rec) :
    ∃ e, db.nodes h = some e ∧ rec = ⟨h.bytes, e⟩ := by
  unfold writeNode at hw
  cases hnode : db.nodes h with
  | none =>
    rw [hnode] at hw
    cases hw
  | some e =>
    rw [hnode] at hw
    exact ⟨e, rfl, (Except.ok.inj hw).symm⟩

variable {records : List SnapshotTrieRecord} {b : Hash}

theorem writeTrie_eq_ok (h : writeTrie x db r b = .ok records) :
    ((if b.isEmpty then x.nodeIterator db.nodes r
      else x.differenceIterator db.nodes b r).filter fun h => !h.isEmpty).mapM (writeNode db) =
        .ok records := by
  unfold writeTrie at h
  by_cases hexists : (!trieExists x db r || !trieExists x db b) = true
  · rw [if_pos hexists] at h
    cases h
  · rwa [if_neg hexists] at h

theorem nodeRecords_writeTrie (h : writeTrie x db r b = .ok records) : NodeRecords db records := by
  intro rec hrec
  obtain ⟨y, -, hy⟩ := exists_of_mem_mapM (writeTrie_eq_ok h) hrec
  obtain ⟨e, he, hrec'⟩ := writeNode_eq_ok hy
  exact ⟨y, e, he, hrec'⟩

include laws

theorem hasNode_writeTrie (h : writeTrie x db r b = .ok records)
    (hr : x.trie.Complete db.nodes r) (hb : b.isEmpty = true ∨ x.trie.Complete db.nodes b)
    {y : Hash} (hy : x.trie.Reach db.nodes r y)
    (hnot : b.isEmpty = true ∨ ¬ x.trie.Reach db.nodes b y) : HasNode records y := by
  obtain ⟨e, he⟩ := Option.isSome_iff_exists.1 (hr y hy)
  have hne := laws.nonempty y e he
  have hmem : y ∈ (if b.isEmpty then x.nodeIterator db.nodes r
      else x.differenceIterator db.nodes b r).filter fun h => !h.isEmpty := by
    refine mem_filter.2 ⟨?_, by simp [hne]⟩
    by_cases hempty : b.isEmpty = true
    · rw [if_pos hempty]
      exact (laws.nodeIterator r hr y hne).2 hy
    · rw [if_neg hempty]
      exact (laws.difference b r (hb.resolve_left hempty) hr y hne).2
        ⟨hy, hnot.resolve_left hempty⟩
  obtain ⟨rec, hrec, hw⟩ := exists_mem_mapM (writeTrie_eq_ok h) hmem
  obtain ⟨e', -, rfl⟩ := writeNode_eq_ok hw
  exact ⟨e', hrec⟩

omit laws

theorem NodeRecords.append {r₁ r₂ : List SnapshotTrieRecord} (h₁ : NodeRecords db r₁)
    (h₂ : NodeRecords db r₂) : NodeRecords db (r₁ ++ r₂) := by
  intro rec hrec
  rcases mem_append.1 hrec with hrec | hrec
  · exact h₁ rec hrec
  · exact h₂ rec hrec

theorem NodeRecords.flatten {rs : List (List SnapshotTrieRecord)}
    (h : ∀ records ∈ rs, NodeRecords db records) : NodeRecords db rs.flatten := by
  intro rec hrec
  obtain ⟨records, hmem, hrec⟩ := mem_flatten.1 hrec
  exact h records hmem rec hrec

theorem HasNode.mono {r₁ r₂ : List SnapshotTrieRecord} {h : Hash} (hh : HasNode r₁ h)
    (hsub : r₁ ⊆ r₂) : HasNode r₂ h := by
  obtain ⟨e, he⟩ := hh
  exact ⟨e, hsub he⟩

variable {flag : Bool}

theorem writeStoreViewV3_eq_ok {sv : StateView} (h : writeStoreViewV3 x db sv flag b = .ok records) :
    NodeRecords db records ∧ ∃ state, writeTrie x db sv.root b = .ok state ∧ state ⊆ records := by
  obtain ⟨state, hstate, hrest⟩ := bind_eq_ok.1 h
  have hnodes := nodeRecords_writeTrie hstate
  cases flag with
  | false =>
    rw [← Except.ok.inj hrest]
    exact ⟨hnodes, state, hstate, List.Subset.refl _⟩
  | true =>
    obtain ⟨storage, hstorage, hreturn⟩ := bind_eq_ok.1 hrest
    cases hreturn
    refine ⟨hnodes.append (.flatten ?_), state, hstate, subset_append_left _ _⟩
    intro records hrecords
    obtain ⟨entry, -, hentry⟩ := exists_of_mem_mapM hstorage hrecords
    obtain ⟨root, -, hroot⟩ := bind_eq_ok.1 hentry
    cases root with
    | none =>
      cases hroot
      intro rec hrec
      cases hrec
    | some root => exact nodeRecords_writeTrie hroot

include laws

theorem writeStatesV3_spec {v : ExportViews}
    (h : writeStatesV3 x db v = .ok records) (hg : x.trie.Complete db.nodes v.genesis.root)
    (hp : x.trie.Complete db.nodes v.parent.root) (hs : x.trie.Complete db.nodes v.snapshot.root) :
    NodeRecords db records ∧ (∀ y, x.trie.Reach db.nodes v.genesis.root y → HasNode records y) ∧
      ∀ y, x.trie.Reach db.nodes v.snapshot.root y → HasNode records y := by
  obtain ⟨genesis, hgenesis, h₁⟩ := bind_eq_ok.1 h
  obtain ⟨checkpoint, hcheckpoint, h₂⟩ := bind_eq_ok.1 h₁
  obtain ⟨parent, hparent, h₃⟩ := bind_eq_ok.1 h₂
  obtain ⟨snapshot, hsnapshot, hreturn⟩ := bind_eq_ok.1 h₃
  cases hreturn
  obtain ⟨ngenesis, gstate, hgstate, hgsub⟩ := writeStoreViewV3_eq_ok hgenesis
  obtain ⟨nparent, pstate, hpstate, hpsub⟩ := writeStoreViewV3_eq_ok hparent
  obtain ⟨nsnapshot, sstate, hsstate, hssub⟩ := writeStoreViewV3_eq_ok hsnapshot
  have ncheckpoint : NodeRecords db checkpoint.flatten := by
    refine .flatten fun records hrecords => ?_
    obtain ⟨sv, -, hsv⟩ := exists_of_mem_mapM hcheckpoint hrecords
    exact (writeStoreViewV3_eq_ok hsv).1
  have hasGenesis : ∀ y, x.trie.Reach db.nodes v.genesis.root y →
      HasNode (genesis ++ checkpoint.flatten ++ parent ++ snapshot) y := by
    intro y hy
    have hnode := hasNode_writeTrie laws hgstate hg (.inl rfl) hy (.inl rfl)
    exact (hnode.mono hgsub).mono fun rec hrec => by simp [hrec]
  refine ⟨((ngenesis.append ncheckpoint).append nparent).append nsnapshot, hasGenesis, ?_⟩
  intro y hy
  -- a node is written with the first of the three states that has it
  by_cases hyp : x.trie.Reach db.nodes v.parent.root y
  · by_cases hyg : x.trie.Reach db.nodes v.genesis.root y
    · exact hasGenesis y hyg
    · have hnode := hasNode_writeTrie laws hpstate hp (.inr hg) hyp (.inr hyg)
      exact (hnode.mono hpsub).mono fun rec hrec => by simp [hrec]
  · have hnode := hasNode_writeTrie laws hsstate hs (.inr hp) hy (.inr hyp)
    exact (hnode.mono hssub).mono fun rec hrec => by simp [hrec]

omit laws

def contentOf (c : TrieContent) (entries : List (Bytes × Bytes)) : TrieContent :=
  entries.foldl (fun c e => updateTrie c e.1 e.2) c

variable {c : TrieContent} {entries : List (Bytes × Bytes)}

theorem contentOf_eq_some (hnodup : (entries.map Prod.fst).Nodup)
    (hvalue : ∀ e ∈ entries, e.2 ≠ []) :
    contentOf c entries k = some v ↔
      (k, v) ∈ entries ∨ k ∉ entries.map Prod.fst ∧ c k = some v := by
  induction entries generalizing c with
  | nil => simp [contentOf]
  | cons e entries ih =>
    obtain ⟨hfresh, hrest⟩ := nodup_cons.1 hnodup
    have hne : e.2.isEmpty = false := by
      rw [isEmpty_eq_false_iff]
      exact hvalue e (by simp)
    have hstep := ih (c := updateTrie c e.1 e.2) hrest fun e' he' => hvalue e' (by simp [he'])
    rw [contentOf, foldl_cons]
    rw [contentOf] at hstep
    rw [hstep, updateTrie, Function.update_apply, hne]
    by_cases hk : k = e.1
    · subst hk
      have hnot : (e.1, v) ∉ entries := fun hmem => hfresh (mem_map.2 ⟨_, hmem, rfl⟩)
      simp [hfresh, hnot, Prod.ext_iff, eq_comm]
    · simp [hk, Prod.ext_iff]

include laws

theorem contentOf_traverse (hr : Opens x db.nodes r) :
    contentOf (fun _ => none) (x.traverse db.nodes r) = trieContent x db.nodes r := by
  have hnodup : ((x.traverse db.nodes r).map Prod.fst).Nodup := by
    rcases hr with rfl | hr
    · rw [laws.emptyTrie.1]
      exact nodup_nil
    · exact laws.distinct r hr
  have hvalue : ∀ e ∈ x.traverse db.nodes r, e.2 ≠ [] := by
    intro e he
    rcases hr with rfl | hr
    · rw [laws.emptyTrie.1] at he
      cases he
    · exact laws.values r hr _ _ ((laws.traverse r hr e.1 e.2).1 he)
  funext k
  refine Option.ext fun v => ?_
  rw [contentOf_eq_some hnodup hvalue, mem_traverse laws hr]
  simp

omit laws

theorem bytestoi_itobytes (n : UInt64) : bytestoi (itobytes n) = .ok n := by
  have hlen : (itobytes n).length = 8 := by simp [itobytes]
  have htake : (itobytes n).take 8 = itobytes n := take_of_length_le hlen.le
  have hlt : n.toNat < 256 ^ 8 := n.toNat_lt
  rw [bytestoi, if_neg (by omega), htake, itobytes, reverse_reverse,
    Rlp.toNat_fixedBytes hlt, UInt64.ofNat_toNat]

def Loads (x : SnapshotExporter) (l : StateLoad) (records : List SnapshotTrieRecord)
    (l' : StateLoad) : Prop :=
  records.foldlM (loadRecordV2 x.toSnapshotConfig) l = .ok l'

theorem Loads.nil (l : StateLoad) : Loads x l [] l := rfl

theorem Loads.cons {l l₁ l' : StateLoad} {record : SnapshotTrieRecord}
    (h : loadRecordV2 x.toSnapshotConfig l record = .ok l₁) (hrest : Loads x l₁ records l') :
    Loads x l (record :: records) l' := by
  rw [Loads, foldlM_cons, h]
  exact hrest

theorem Loads.append {l l₁ l' : StateLoad} {records records' : List SnapshotTrieRecord}
    (h : Loads x l records l₁) (hrest : Loads x l₁ records' l') :
    Loads x l (records ++ records') l' := by
  rw [Loads, foldlM_append, h]
  exact hrest

theorem loadRecordV2_start (l : StateLoad) (n : UInt64) :
    loadRecordV2 x.toSnapshotConfig l ⟨svStart, itobytes n⟩ =
      .ok { l with svStack := ⟨n, fun _ => none⟩ :: l.svStack } := by
  rw [loadRecordV2, if_pos rfl, bytestoi_itobytes]
  rfl

variable {l : StateLoad} {n : UInt64}

theorem loadRecordV2_end (hstack : l.svStack = [⟨n, c⟩]) :
    loadRecordV2 x.toSnapshotConfig l ⟨svEnd, itobytes n⟩ =
      .ok ⟨save x.toSnapshotConfig l.db c, [], some ⟨n, x.trieRoot c, c⟩, none⟩ := by
  have hne : svEnd ≠ svStart := by decide
  rw [loadRecordV2, if_neg hne, if_pos rfl]
  simp [hstack, bytestoi_itobytes, Except.bind, bind, pure, Except.pure]

theorem loadRecordV2_end_storage {o : OpenView} (hstack : l.svStack = [⟨n, c⟩, o])
    (hheight : o.height = n) (hroot : l.account = some (x.trieRoot c)) :
    loadRecordV2 x.toSnapshotConfig l ⟨svEnd, itobytes n⟩ =
      .ok ⟨save x.toSnapshotConfig l.db c, [o], some ⟨n, x.trieRoot c, c⟩, none⟩ := by
  have hne : svEnd ≠ svStart := by decide
  rw [loadRecordV2, if_neg hne, if_pos rfl]
  simp [hstack, hheight, hroot, deref, bytestoi_itobytes, Except.bind, bind, pure, Except.pure]

variable {rest : List OpenView} {view : OpenView}

theorem loadRecordV2_entry (hstack : l.svStack = view :: rest) (hk : k ≠ svStart ∧ k ≠ svEnd)
    (haccount : l.account.isSome ∨ accountKeyStart.isPrefixOf k = false) :
    loadRecordV2 x.toSnapshotConfig l ⟨k, v⟩ = .ok { l with
      svStack := { view with content := updateTrie view.content k v } :: rest } := by
  rw [loadRecordV2, if_neg hk.1, if_neg hk.2]
  rcases haccount with hsome | hkey
  · obtain ⟨root, hroot⟩ := Option.isSome_iff_exists.1 hsome
    simp [hstack, hroot]
  · simp [hstack, hkey]

theorem loadRecordV2_account {root : Hash} (hstack : l.svStack = view :: rest)
    (hk : k ≠ svStart ∧ k ≠ svEnd) (hnone : l.account = none)
    (hkey : accountKeyStart.isPrefixOf k = true) (hroot : x.accountRoot v = some root) :
    loadRecordV2 x.toSnapshotConfig l ⟨k, v⟩ = .ok { l with
      svStack := { view with content := updateTrie view.content k v } :: rest
      account := if root.isEmpty then none else some root } := by
  rw [loadRecordV2, if_neg hk.1, if_neg hk.2]
  simp [hstack, hnone, hkey, hroot]

theorem loads_storageEntries (hkeys : ∀ e ∈ entries, e.1 ≠ svStart ∧ e.1 ≠ svEnd)
    (hstack : l.svStack = view :: rest) (haccount : l.account.isSome) :
    Loads x l (entryRecords entries)
      { l with svStack := { view with content := contentOf view.content entries } :: rest } := by
  induction entries generalizing l view with
  | nil =>
    have heq : l = { l with svStack := { view with content := contentOf view.content [] } :: rest } := by
      cases l
      cases hstack
      rfl
    rw [← heq]
    exact .nil l
  | cons e entries ih =>
    refine .cons (loadRecordV2_entry hstack (hkeys e (by simp)) (.inl haccount)) ?_
    exact ih (l := { l with svStack := _ :: rest }) (fun e' he' => hkeys e' (by simp [he'])) rfl
      haccount

/-- Between two entries of the state view at the bottom of the stack.  If the storage of each
account is written after it, no account is left open. -/
structure InView (n : UInt64) (c : TrieContent) (needAccountStorage : Bool) (l : StateLoad) :
    Prop where
  stack : l.svStack = [⟨n, c⟩]
  account : needAccountStorage = true → l.account = none

theorem storageOf_eq_ok {entry : Bytes × Bytes} {root : Option Hash}
    (h : storageOf x entry = .ok root) :
    (accountKeyStart.isPrefixOf entry.1 = false ∧ root = none) ∨
      accountKeyStart.isPrefixOf entry.1 = true ∧ ∃ r, x.accountRoot entry.2 = some r ∧
        root = if r.isEmpty then none else some r := by
  unfold storageOf at h
  by_cases hkey : accountKeyStart.isPrefixOf entry.1 = true
  · rw [if_pos hkey] at h
    cases hroot : x.accountRoot entry.2 with
    | none =>
      rw [hroot] at h
      cases h
    | some r =>
      rw [hroot] at h
      exact .inr ⟨hkey, r, rfl, (Except.ok.inj h).symm⟩
  · rw [if_neg hkey] at h
    exact .inl ⟨Bool.eq_false_of_not_eq_true hkey, (Except.ok.inj h).symm⟩

include laws

theorem loads_storage {root : Hash} (hroot : Opens x db.nodes root)
    (hkeys : ∀ k v, trieContent x db.nodes root k = some v → k ≠ svStart ∧ k ≠ svEnd)
    (hstack : l.svStack = [⟨n, c⟩]) (haccount : l.account = some root) :
    ∃ l', Loads x l (bracketed n (entryRecords (x.traverse db.nodes root))) l' ∧
      l'.svStack = [⟨n, c⟩] ∧ l'.account = none ∧ Filled db.nodes l.db l'.db ∧
      Rebuilt x db l'.db root := by
  have hsome : l.account.isSome := by rw [haccount]; rfl
  have hentries := loads_storageEntries (x := x)
    (fun e he => hkeys e.1 e.2 ((mem_traverse laws hroot).1 he))
    (l := { l with svStack := ⟨n, fun _ => none⟩ :: l.svStack }) rfl hsome
  have hend := loadRecordV2_end_storage (x := x) (o := ⟨n, c⟩) (n := n)
    (c := trieContent x db.nodes root)
    (l := { l with svStack := [⟨n, trieContent x db.nodes root⟩, ⟨n, c⟩] }) rfl rfl
    (by rw [trieRoot_content laws hroot]; exact haccount)
  rw [contentOf_traverse laws hroot, hstack] at hentries
  refine ⟨_, .cons (loadRecordV2_start l n) (.append ?_ (.cons hend (.nil _))), rfl, rfl,
    save_filled laws hroot l.db⟩
  rw [hstack]
  exact hentries

theorem loads_writeEntry (hstate : Exportable x db.nodes r flag)
    {entry : Bytes × Bytes} (hentry : entry ∈ x.traverse db.nodes r)
    (hw : writeEntry x db n flag entry = .ok records) (hl : InView n c flag l) :
    ∃ l', Loads x l records l' ∧ InView n (updateTrie c entry.1 entry.2) flag l' ∧
      Filled db.nodes l.db l'.db ∧
      (flag = true → ∀ root, storageOf x entry = .ok (some root) → Rebuilt x db l'.db root) := by
  obtain ⟨k, v⟩ := entry
  have hv := (mem_traverse laws hstate.opens).1 hentry
  have hk := hstate.keys k v hv
  cases flag with
  | false =>
    rw [← Except.ok.inj hw]
    by_cases hplain : l.account.isSome ∨ accountKeyStart.isPrefixOf k = false
    · exact ⟨_, .cons (loadRecordV2_entry hl.stack hk hplain) (.nil _), ⟨rfl, nofun⟩, .refl _ _,
        nofun⟩
    · obtain ⟨hnone, hkey⟩ := not_or.1 hplain
      rw [Option.not_isSome_iff_eq_none] at hnone
      rw [Bool.not_eq_false] at hkey
      obtain ⟨root, hroot⟩ := Option.isSome_iff_exists.1 (hstate.accounts k v hkey hv)
      exact ⟨_, .cons (loadRecordV2_account hl.stack hk hnone hkey hroot) (.nil _), ⟨rfl, nofun⟩,
        .refl _ _, nofun⟩
  | true =>
    have hnone := hl.account rfl
    obtain ⟨storage, hstorage, hrest⟩ := bind_eq_ok.1 hw
    rw [hstorage]
    rcases storageOf_eq_ok hstorage with ⟨hkey, rfl⟩ | ⟨hkey, root, hroot, rfl⟩
    · rw [← Except.ok.inj hrest]
      exact ⟨_, .cons (loadRecordV2_entry hl.stack hk (.inr hkey)) (.nil _),
        ⟨rfl, fun _ => hnone⟩, .refl _ _, nofun⟩
    · have haccount := loadRecordV2_account hl.stack hk hnone hkey hroot
      by_cases hempty : root.isEmpty = true
      · rw [if_pos hempty] at hrest haccount ⊢
        rw [← Except.ok.inj hrest]
        exact ⟨_, .cons haccount (.nil _), ⟨rfl, fun _ => rfl⟩, .refl _ _, nofun⟩
      · rw [if_neg hempty] at hrest haccount ⊢
        obtain ⟨hopens, hkeys⟩ := opens_storage laws hstate hkey hv hroot
          (Bool.eq_false_of_not_eq_true hempty)
        have hexists : trieExists x db root = true := by
          by_contra hnot
          simp [hnot] at hrest
        simp only [hexists, if_true] at hrest
        rw [← Except.ok.inj hrest]
        obtain ⟨l', hloads, hstack, hdone, hfilled, hbuilt⟩ := loads_storage laws hopens hkeys
          (l := { l with
            svStack := [⟨n, updateTrie c k v⟩]
            account := some root }) rfl rfl
        refine ⟨l', .cons haccount hloads, ⟨hstack, fun _ => hdone⟩, hfilled, fun _ root' h => ?_⟩
        cases h
        exact hbuilt

theorem loads_entries (hstate : Exportable x db.nodes r flag)
    (hsub : ∀ e ∈ entries, e ∈ x.traverse db.nodes r) {body : List (List SnapshotTrieRecord)}
    (hw : List.Forall₂ (fun e records => writeEntry x db n flag e = .ok records) entries body)
    (hl : InView n c flag l) :
    ∃ l', Loads x l body.flatten l' ∧ InView n (contentOf c entries) flag l' ∧
      Filled db.nodes l.db l'.db ∧ (flag = true → ∀ e ∈ entries, ∀ root,
        storageOf x e = .ok (some root) → Rebuilt x db l'.db root) := by
  induction hw generalizing l c with
  | nil => exact ⟨l, .nil l, hl, .refl _ _, nofun⟩
  | cons hentry hrest ih =>
    obtain ⟨l₁, hloads₁, hl₁, hfilled₁, hbuilt₁⟩ :=
      loads_writeEntry laws hstate (hsub _ mem_cons_self) hentry hl
    obtain ⟨l', hloads, hl', hfilled, hbuilt⟩ :=
      ih (fun e he => hsub e (.tail _ he)) hl₁
    refine ⟨l', hloads₁.append hloads, hl', hfilled₁.trans hfilled, fun hflag e he root hroot => ?_⟩
    rcases mem_cons.1 he with rfl | he
    · exact (hbuilt₁ hflag root hroot).filled hfilled
    · exact hbuilt hflag e he root hroot

omit laws

structure BetweenViews (l : StateLoad) : Prop where
  stack : l.svStack = []
  account : l.account = none

/-- The tries in the records of a view: its own, and the storage that is written with it. -/
def ExportedTrie (x : SnapshotExporter) (db : Database) (sv : StateView) (flag : Bool)
    (root : Hash) : Prop :=
  root = sv.root ∨
    flag = true ∧ ∃ e ∈ x.traverse db.nodes sv.root, storageOf x e = .ok (some root)

def loadedView (x : SnapshotExporter) (db : Database) (sv : StateView) : StateView :=
  ⟨sv.height, sv.root, trieContent x db.nodes sv.root⟩

include laws

theorem loads_writeStoreView {sv : StateView}
    (hstate : Exportable x db.nodes sv.root flag) (hw : writeStoreView x db sv flag = .ok records)
    (hl : BetweenViews l) :
    ∃ l', Loads x l records l' ∧ BetweenViews l' ∧ l'.sv = some (loadedView x db sv) ∧
      Filled db.nodes l.db l'.db ∧
      ∀ root, ExportedTrie x db sv flag root → Rebuilt x db l'.db root := by
  have hr := hstate.opens
  obtain ⟨body, hbody, hreturn⟩ := bind_eq_ok.1 hw
  rw [← Except.ok.inj hreturn]
  obtain ⟨l₁, hloads, hl₁, hfilled, hbuilt⟩ := loads_entries laws hstate (fun _ he => he)
    (mapM_eq_ok.1 hbody)
    (l := { l with svStack := ⟨sv.height, fun _ => none⟩ :: l.svStack })
    (c := fun _ => none) ⟨by rw [hl.stack], fun _ => hl.account⟩
  have hstack := hl₁.stack
  rw [contentOf_traverse laws hr] at hstack
  obtain ⟨hsaved, hstate'⟩ := save_filled laws hr l₁.db
  refine ⟨_, .cons (loadRecordV2_start l sv.height)
    (hloads.append (.cons (loadRecordV2_end hstack) (.nil _))), ⟨rfl, rfl⟩, ?_,
    hfilled.trans hsaved, ?_⟩
  · rw [trieRoot_content laws hr]
    rfl
  · rintro root (rfl | ⟨hflag, e, he, hroot⟩)
    · exact hstate'
    · exact (hbuilt hflag e he root hroot).filled hsaved

theorem loads_writeStoreViews {views : List (StateView × Bool)}
    (hstate : ∀ p ∈ views, Exportable x db.nodes p.1.root p.2)
    {written : List (List SnapshotTrieRecord)}
    (hw : List.Forall₂ (fun p records => writeStoreView x db p.1 p.2 = .ok records) views written)
    (hl : BetweenViews l) :
    ∃ l', Loads x l written.flatten l' ∧ BetweenViews l' ∧
      l'.sv = (views.getLast?.map fun p => loadedView x db p.1).or l.sv ∧
      Filled db.nodes l.db l'.db ∧
      ∀ p ∈ views, ∀ root, ExportedTrie x db p.1 p.2 root → Rebuilt x db l'.db root := by
  induction hw generalizing l with
  | nil => exact ⟨l, .nil l, hl, rfl, .refl _ _, nofun⟩
  | cons hview hrest ih =>
    obtain ⟨l₁, hloads₁, hl₁, hsv₁, hfilled₁, hbuilt₁⟩ :=
      loads_writeStoreView laws (hstate _ mem_cons_self) hview hl
    obtain ⟨l', hloads, hl', hsv, hfilled, hbuilt⟩ :=
      ih (fun p hp => hstate p (.tail _ hp)) hl₁
    refine ⟨l', hloads₁.append hloads, hl', ?_, hfilled₁.trans hfilled, fun p hp root hroot => ?_⟩
    · rw [hsv, hsv₁, getLast?_cons]
      cases hlast : getLast? _ <;> rfl
    · rcases mem_cons.1 hp with rfl | hp
      · exact (hbuilt₁ root hroot).filled hfilled
      · exact hbuilt p hp root hroot

omit laws

theorem loadStateV2_of_loads {db₁ : Database} (hl : Loads x { db := db₁ } records l)
    (hbetween : BetweenViews l) :
    loadStateV2 x.toSnapshotConfig db₁ records = .ok (l.sv, l.db) := by
  rw [loadStateV2, hl]
  simp [hbetween.stack, bind, Except.bind, pure, Except.pure]

structure StoredViews (x : SnapshotExporter) (db : Database) (v : ExportViews) : Prop where
  genesis : StoredState x db.nodes v.genesis.root
  checkpoint : ∀ sv ∈ v.checkpoint, StoredState x db.nodes sv.root
  parent : StoredState x db.nodes v.parent.root
  snapshot : StoredState x db.nodes v.snapshot.root

/-- The state of the snapshot block is open, that of the genesis block is in the database, and
besides nodes of the exporter nothing has been written. -/
structure Restored (x : SnapshotExporter) (db : Database) (v : ExportViews) (db₁ : Database)
    (state : LoadedState) : Prop where
  sv : state.sv =
    ⟨v.snapshot.height, v.snapshot.root, trieContent x db.nodes v.snapshot.root⟩
  genesis : ∀ h, x.trie.Reach db.nodes v.genesis.root h → state.db.nodes h = db.nodes h
  filled : Filled db.nodes db₁ state.db

include laws

theorem loadState_writeStatesV2 {v : ExportViews}
    (hv : StoredViews x db v) {file : SnapshotFile} (hversion : file.version = 2)
    (hrecords : writeStatesV2 x db v = .ok file.records) (db₁ : Database) :
    ∃ state, loadState x.toSnapshotConfig db₁ file = .ok state ∧ Restored x db v db₁ state := by
  obtain ⟨genesis, hgenesis, h₁⟩ := bind_eq_ok.1 hrecords
  obtain ⟨checkpoint, hcheckpoint, h₂⟩ := bind_eq_ok.1 h₁
  obtain ⟨parent, hparent, h₃⟩ := bind_eq_ok.1 h₂
  obtain ⟨snapshot, hsnapshot, hreturn⟩ := bind_eq_ok.1 h₃
  have hstored : ∀ p ∈ (v.genesis, false) :: (v.checkpoint.toList.map (·, true) ++
      [(v.parent, true), (v.snapshot, true)]), StoredState x db.nodes p.1.root := by
    intro p hp
    simp only [mem_cons, mem_append, mem_map, Option.mem_toList, not_mem_nil,
      or_false] at hp
    rcases hp with rfl | ⟨sv, hsv, rfl⟩ | rfl | rfl
    · exact hv.genesis
    · exact hv.checkpoint sv hsv
    · exact hv.parent
    · exact hv.snapshot
  have hwritten : List.Forall₂ (fun p records => writeStoreView x db p.1 p.2 = .ok records)
      ((v.genesis, false) :: (v.checkpoint.toList.map (·, true) ++
        [(v.parent, true), (v.snapshot, true)])) (genesis :: (checkpoint ++ [parent, snapshot])) :=
    .cons hgenesis (rel_append (forall₂_map_left_iff.2 (mapM_eq_ok.1 hcheckpoint))
      (.cons hparent (.cons hsnapshot .nil)))
  obtain ⟨l, hl, hbetween, hsv, hfilled, hbuilt⟩ := loads_writeStoreViews laws
    (fun p hp => (hstored p hp).exportable p.2) hwritten (l := { db := db₁ }) ⟨rfl, rfl⟩
  have hload := loadStateV2_of_loads hl hbetween
  have hflat : (genesis :: (checkpoint ++ [parent, snapshot])).flatten = file.records := by
    rw [← Except.ok.inj hreturn]
    simp
  have hlast : l.sv = some (loadedView x db v.snapshot) := by
    rw [hsv]
    simp [getLast?_cons]
  rw [hflat, hlast] at hload
  refine ⟨⟨loadedView x db v.snapshot, l.db⟩, ?_, rfl, fun h hh => ?_, hfilled⟩
  · rw [loadState, if_neg (by omega), hload]
    rfl
  · obtain ⟨e, he⟩ := Option.isSome_iff_exists.1 (hv.genesis.complete.state h hh)
    rw [he]
    exact hbuilt _ mem_cons_self _ (.inl rfl) h e hh he

omit laws

theorem newStoreView_of_root (cfg : SnapshotConfig) {db' : Database} (height : UInt64)
    {e : Bytes} (hempty : r.isEmpty = false) (hne : r ≠ cfg.emptyRoot)
    (hroot : db'.nodes r = some e) :
    newStoreView cfg db' height r =
      some ⟨height, r, fun k => cfg.trie.read db'.nodes r (keybytesToHex k)⟩ := by
  simp [newStoreView, hempty, hne, hroot]

include laws

theorem StoredState.opens (hstate : StoredState x db.nodes r) :
    r.isEmpty = false ∧ r ≠ x.emptyRoot ∧ ∃ e, db.nodes r = some e := by
  obtain ⟨e, he⟩ := Option.isSome_iff_exists.1 (hstate.complete.state r .root)
  refine ⟨laws.nonempty r e he, fun heq => ?_, e, he⟩
  rw [heq, laws.noEmptyRoot] at he
  cases he

theorem loadState_writeStatesV3 {v : ExportViews}
    (hv : StoredViews x db v) {file : SnapshotFile} (hversion : file.version = 3)
    (hrecords : writeStatesV3 x db v = .ok file.records)
    (hheight : v.snapshot.height = file.metadata.tailTrio.second.header.height)
    (hroot : v.snapshot.root = file.metadata.tailTrio.second.header.stateHash) (db₁ : Database) :
    ∃ state, loadState x.toSnapshotConfig db₁ file = .ok state ∧ Restored x db v db₁ state := by
  obtain ⟨hnodes, hgenesis, hsnapshot⟩ := writeStatesV3_spec laws hrecords
    hv.genesis.complete.state hv.parent.complete.state hv.snapshot.complete.state
  obtain ⟨hfilled, hfound⟩ := loadStateV3_filled db₁ file.records hnodes
  have hhas : ∀ h, HasNode file.records h → (loadStateV3 db₁ file.records).nodes h = db.nodes h :=
    fun h ⟨e, he⟩ => hfound h e he
  obtain ⟨hempty, hne, e, he⟩ := hv.snapshot.opens laws
  have hread : ∀ k, x.trie.read (loadStateV3 db₁ file.records).nodes v.snapshot.root
      (keybytesToHex k) = trieContent x db.nodes v.snapshot.root k := fun k =>
    (read_congr (fun h hh => (hhas h (hsnapshot h hh)).symm) _).symm
  have hopen := newStoreView_of_root x.toSnapshotConfig v.snapshot.height hempty hne
    ((hhas _ (hsnapshot _ .root)).trans he)
  simp only [hread] at hopen
  refine ⟨⟨⟨v.snapshot.height, v.snapshot.root, trieContent x db.nodes v.snapshot.root⟩,
    loadStateV3 db₁ file.records⟩, ?_, rfl, fun h hh => hhas h (hgenesis h hh), hfilled⟩
  rw [loadState, if_pos (by omega), ← hheight, ← hroot]
  simp only [hopen]
  rfl

end Laws

end Snapshot

end ThetaSubchain
