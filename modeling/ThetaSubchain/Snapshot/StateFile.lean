/-
The bytes of a state section of version 2, and of a file of records of any kind (core/snapshot.go).

Each record is written as the length of its encoding and the encoding, and the loader reads records
until the file ends.
-/
import ThetaSubchain.Snapshot.RoundTrip

namespace ThetaSubchain

open List

namespace Snapshot

def encode (r : SnapshotTrieRecord) : Bytes :=
  Rlp.encode (.list [.str r.k, .str r.v])

def writeRecord (r : SnapshotTrieRecord) : Bytes :=
  itobytes (UInt64.ofNat (encode r).length) ++ encode r

def readRecord (file : Bytes) : Except Refusal (Option (SnapshotTrieRecord × Bytes)) :=
  if file.isEmpty then .ok none
  else if file.length < 8 then .error (.error "Failed to read snapshot record, %v")
  else do
    let size ← bytestoi file
    let rest := file.drop 8
    if 2 ^ 63 ≤ size.toNat then .error (.panicked "makeslice: len out of range")
    -- the end of the file is also what is reported if there are no bytes to read or to decode
    else if rest.isEmpty || size == 0 then .ok none
    else if rest.length < size.toNat then .error (.error "Failed to read snapshot record, %v")
    else match Rlp.decode (rest.take size.toNat) with
      | some (.list [.str k, .str v]) => .ok (some (⟨k, v⟩, rest.drop size.toNat))
      | _ => .error (.error "Failed to read snapshot record, %v")

/-- The records up to the end of the file or to an error.  Each takes a byte or more. -/
def readRecords : ℕ → Bytes → List SnapshotTrieRecord × Option Refusal
  | 0, _ => ([], none)
  | n + 1, file =>
    match readRecord file with
    | .error e => ([], some e)
    | .ok none => ([], none)
    | .ok (some (record, rest)) =>
      let (records, e) := readRecords n rest
      (record :: records, e)

/-- `loadStateV2` on a file: what comes before an error is handled first. -/
def loadStateFileV2 (cfg : SnapshotConfig) (db : Database) (file : Bytes) :
    Except Refusal (Option StateView × Database) :=
  match readRecords (file.length + 1) file with
  | (records, none) => loadStateV2 cfg db records
  | (records, some e) => do
    let _ ← records.foldlM (loadRecordV2 cfg) { db := db }
    .error e

theorem length_itobytes (n : UInt64) : (itobytes n).length = 8 := by simp [itobytes]

theorem bytestoi_append (n : UInt64) (rest : Bytes) : bytestoi (itobytes n ++ rest) = .ok n := by
  have hlen := length_itobytes n
  have htake : (itobytes n ++ rest).take 8 = (itobytes n).take 8 :=
    take_append_of_le_length hlen.ge
  have h := bytestoi_itobytes n
  rw [bytestoi, if_neg (by omega)] at h
  rw [bytestoi, if_neg (by rw [length_append]; omega), htake]
  exact h

def writeBytes (raw : Bytes) : Bytes := itobytes (UInt64.ofNat raw.length) ++ raw

section Objects

variable {α : Type} (failed : String) (decode : Bytes → Option α)

/-- `ReadRecord` into an object that `decode` reads, with the text its caller reports an error
under.  Nothing is returned for io.EOF, which every caller takes for the end of the file. -/
def readObject (file : Bytes) : Except Refusal (Option (α × Bytes)) :=
  if file.isEmpty then .ok none
  else if file.length < 8 then .error (.error failed)
  else do
    let size ← bytestoi file
    let rest := file.drop 8
    if 2 ^ 63 ≤ size.toNat then .error (.panicked "makeslice: len out of range")
    else if rest.isEmpty || size == 0 then .ok none
    else if rest.length < size.toNat then .error (.error failed)
    else match decode (rest.take size.toNat) with
      | some obj => .ok (some (obj, rest.drop size.toNat))
      | none => .error (.error failed)

def readObjects : ℕ → Bytes → List α × Option Refusal
  | 0, _ => ([], none)
  | n + 1, file =>
    match readObject failed decode file with
    | .error e => ([], some e)
    | .ok none => ([], none)
    | .ok (some (obj, rest)) =>
      let (objs, e) := readObjects n rest
      (obj :: objs, e)

theorem readObject_length {n : ℕ} (h : n < 2 ^ 63) (rest : Bytes) :
    readObject failed decode (itobytes (UInt64.ofNat n) ++ rest) =
      if rest.isEmpty || n == 0 then .ok none
      else if rest.length < n then .error (.error failed)
      else match decode (rest.take n) with
        | some obj => .ok (some (obj, rest.drop n))
        | none => .error (.error failed) := by
  have hn : (UInt64.ofNat n).toNat = n := by
    rw [UInt64.toNat_ofNat']
    omega
  have hzero : (UInt64.ofNat n == 0) = (n == 0) := by
    rw [Bool.eq_iff_iff, beq_iff_eq, beq_iff_eq, ← UInt64.toNat_inj, hn]
    rfl
  have hlen : (itobytes (UInt64.ofNat n) ++ rest).length = 8 + rest.length := by
    rw [length_append, length_itobytes]
  have hdrop : (itobytes (UInt64.ofNat n) ++ rest).drop 8 = rest :=
    drop_left' (length_itobytes _)
  rw [readObject, if_neg (by rw [isEmpty_iff_length_eq_zero]; omega), if_neg (by omega),
    bytestoi_append]
  simp only [bind, Except.bind, hn, hdrop, hzero]
  rw [if_neg (by omega)]

variable {decode}

theorem readObject_writeBytes {raw : Bytes} {obj : α} (hsize : raw.length < 2 ^ 63)
    (hraw : raw ≠ []) (hobj : decode raw = some obj) (rest : Bytes) :
    readObject failed decode (writeBytes raw ++ rest) = .ok (some (obj, rest)) := by
  rw [writeBytes, append_assoc, readObject_length failed decode hsize, if_neg (by simp [hraw]),
    if_neg (by simp), take_left, hobj, drop_left]

theorem readObject_take {raw : Bytes} (hsize : raw.length < 2 ^ 63) {k : ℕ} (hpos : 0 < k)
    (hk : k < (writeBytes raw).length) :
    readObject failed decode ((writeBytes raw).take k) =
      if k = 8 then .ok none else .error (.error failed) := by
  rw [writeBytes, length_append, length_itobytes] at hk
  rcases Nat.lt_or_ge k 8 with hlt | hge
  · have hlen : ((writeBytes raw).take k).length = k := by
      rw [length_take, writeBytes, length_append, length_itobytes]
      omega
    rw [readObject, if_neg (by rw [isEmpty_iff_length_eq_zero]; omega), if_pos (by omega),
      if_neg (by omega)]
  · have htake : (writeBytes raw).take k =
        itobytes (UInt64.ofNat raw.length) ++ raw.take (k - 8) := by
      rw [writeBytes, take_append, length_itobytes,
        take_of_length_le ((length_itobytes _).trans_le hge)]
    have hrest : (raw.take (k - 8)).length = k - 8 := by
      rw [length_take]
      omega
    rw [htake, readObject_length failed decode hsize]
    by_cases heq : k = 8
    · rw [if_pos (by simp [heq]), if_pos heq]
    · have hne : ¬ ((raw.take (k - 8)).isEmpty || raw.length == 0) = true := by
        rw [Bool.or_eq_true, isEmpty_iff_length_eq_zero, beq_iff_eq]
        omega
      rw [if_neg hne, if_pos (by omega), if_neg heq]

variable {enc : α → Bytes}

theorem readObjects_append (hnil : decode [] = none) {objs : List α}
    (hobjs : ∀ x ∈ objs, (enc x).length < 2 ^ 63 ∧ decode (enc x) = some x) (n : ℕ) (rest : Bytes) :
    readObjects failed decode (objs.length + n) (objs.flatMap (writeBytes ∘ enc) ++ rest) =
      (objs ++ (readObjects failed decode n rest).1, (readObjects failed decode n rest).2) := by
  induction objs with
  | nil => rw [length_nil, Nat.zero_add]; rfl
  | cons x objs ih =>
    obtain ⟨hsize, hx⟩ := hobjs x mem_cons_self
    have hne : enc x ≠ [] := by
      intro h
      rw [h, hnil] at hx
      cases hx
    rw [length_cons, Nat.add_right_comm, flatMap_cons, append_assoc, readObjects,
      Function.comp_apply, readObject_writeBytes failed hsize hne hx]
    simp only [ih fun y hy => hobjs y (mem_cons_of_mem _ hy), cons_append]

theorem readObjects_writeBytes (hnil : decode [] = none) {objs : List α}
    (hobjs : ∀ x ∈ objs, (enc x).length < 2 ^ 63 ∧ decode (enc x) = some x) {n : ℕ}
    (hn : objs.length < n) :
    readObjects failed decode n (objs.flatMap (writeBytes ∘ enc)) = (objs, none) := by
  obtain ⟨m, rfl⟩ := Nat.exists_eq_add_of_lt hn
  have h := readObjects_append failed hnil hobjs (m + 1) []
  rw [append_nil] at h
  refine h.trans ?_
  show (objs ++ [], none) = _
  rw [append_nil]

end Objects

def recordOfBytes (raw : Bytes) : Option SnapshotTrieRecord :=
  match Rlp.decode raw with
  | some (.list [.str k, .str v]) => some ⟨k, v⟩
  | _ => none

theorem recordOfBytes_encode {r : SnapshotTrieRecord} (hsize : (encode r).length < 2 ^ 63) :
    recordOfBytes (encode r) = some r := by
  have hdecode : Rlp.decode (encode r) = some (.list [.str r.k, .str r.v]) :=
    Rlp.decode_encode (by show (encode r).length < _; omega)
  rw [recordOfBytes, hdecode]

theorem readRecord_eq (file : Bytes) :
    readRecord file = readObject "Failed to read snapshot record, %v" recordOfBytes file := by
  unfold readRecord readObject recordOfBytes
  cases bytestoi file with
  | error e => rfl
  | ok size =>
    simp only [bind, Except.bind]
    split_ifs
    · rfl
    · rfl
    · rfl
    · rfl
    · rfl
    · split <;> rfl

theorem readRecords_eq (n : ℕ) (file : Bytes) : readRecords n file =
    readObjects "Failed to read snapshot record, %v" recordOfBytes n file := by
  induction n generalizing file with
  | zero => rfl
  | succ n ih =>
    rw [readRecords, readObjects, readRecord_eq]
    simp only [ih]
    rcases readObject _ recordOfBytes file with e | _ | read <;> rfl

theorem readRecords_writeRecords {records : List SnapshotTrieRecord}
    (hsize : ∀ r ∈ records, (encode r).length < 2 ^ 63) {n : ℕ} (hn : records.length < n) :
    readRecords n (records.flatMap writeRecord) = (records, none) := by
  rw [readRecords_eq]
  exact readObjects_writeBytes _ rfl
    (fun r hr => ⟨hsize r hr, recordOfBytes_encode (hsize r hr)⟩) hn

/-- A file that is cut inside a record is an error after the complete records, but for the cut
right after a length, where `ReadRecord` finds no byte to read and reports the end of the file. -/
theorem truncated_file_detected_iff {α : Type} (failed : String) {decode : Bytes → Option α}
    {enc : α → Bytes} (hnil : decode [] = none) {objs : List α}
    (hobjs : ∀ x ∈ objs, (enc x).length < 2 ^ 63 ∧ decode (enc x) = some x) {n : ℕ}
    (hn : objs.length < n) :
    readObjects failed decode n (objs.flatMap (writeBytes ∘ enc)) = (objs, none) ∧
    ∀ (before : List α) (x : α) (after : List α) (k : ℕ), objs = before ++ x :: after → 0 < k →
      k < (writeBytes (enc x)).length →
      ((∃ e, readObjects failed decode n ((objs.flatMap (writeBytes ∘ enc)).take
          ((before.flatMap (writeBytes ∘ enc)).length + k)) = (before, some (.error e))) ↔
        k ≠ 8) := by
  refine ⟨readObjects_writeBytes failed hnil hobjs hn, ?_⟩
  intro before x after k hsplit hpos hk
  obtain ⟨m, rfl⟩ : ∃ m, n = before.length + (m + 1) := by
    rw [hsplit, length_append, length_cons] at hn
    exact ⟨n - before.length - 1, by omega⟩
  have hcut : (objs.flatMap (writeBytes ∘ enc)).take
      ((before.flatMap (writeBytes ∘ enc)).length + k) =
        before.flatMap (writeBytes ∘ enc) ++ (writeBytes (enc x)).take k := by
    rw [hsplit, flatMap_append, flatMap_cons, take_length_add_append, Function.comp_apply,
      take_append_of_le_length hk.le]
  have hbefore : ∀ y ∈ before, (enc y).length < 2 ^ 63 ∧ decode (enc y) = some y :=
    fun y hy => hobjs y (hsplit ▸ mem_append_left _ hy)
  have hx := hobjs x (hsplit ▸ mem_append_right _ mem_cons_self)
  rw [hcut, readObjects_append failed hnil hbefore, readObjects,
    readObject_take failed hx.1 hpos hk]
  by_cases heq : k = 8
  · simp [heq]
  · simp [heq]

def shortRecord : SnapshotTrieRecord := ⟨[1], [2]⟩

theorem truncated_file_detected_iff_short :
    readObjects "" recordOfBytes 2 (writeBytes (encode shortRecord)) = ([shortRecord], none) ∧
      ∃ e, readObjects "" recordOfBytes 2 ((writeBytes (encode shortRecord)).take 9) =
        ([], some (.error e)) := by
  have h := @truncated_file_detected_iff _ "" recordOfBytes encode rfl [shortRecord]
    (by decide) 2 (by decide)
  exact ⟨h.1, (h.2 [] shortRecord [] 9 rfl (by decide) (by decide)).2 (by decide)⟩

/-- A file of two views that ends after the length of the second view's first record is loaded
as the file of the first view. -/
theorem cut_after_length_loads :
    (loadStateFileV2 tripExporter.toSnapshotConfig .empty
      (([⟨svStart, itobytes 5⟩, ⟨svEnd, itobytes 5⟩].flatMap writeRecord) ++
        (writeRecord ⟨svStart, itobytes 6⟩).take 8)).toOption.map
          (fun loaded => loaded.1.map StateView.height) = some (some 5) := by
  decide

theorem length_le_writeRecords (records : List SnapshotTrieRecord) :
    records.length ≤ (records.flatMap writeRecord).length := by
  induction records with
  | nil => exact le_rfl
  | cons r records ih =>
    rw [flatMap_cons, length_append, writeRecord, length_append, length_itobytes,
      length_cons]
    omega

variable {x : SnapshotExporter} {db : Database}

/-- Views that are written one after the other are read back: the loader ends with the last
one, and every trie of the file is in the database under its root. -/
theorem loadStateFileV2_written (laws : TrieLaws x db.nodes) {views : List (StateView × Bool)}
    (hne : views ≠ []) (hstate : ∀ p ∈ views, Exportable x db.nodes p.1.root p.2)
    {written : List (List SnapshotTrieRecord)}
    (hw : List.Forall₂ (fun p records => writeStoreView x db p.1 p.2 = .ok records) views written)
    (hsize : ∀ r ∈ written.flatten, (encode r).length < 2 ^ 63) (db₁ : Database) :
    ∃ sv db', loadStateFileV2 x.toSnapshotConfig db₁ (written.flatten.flatMap writeRecord) =
        .ok (some sv, db') ∧
      sv.height = (views.getLast hne).1.height ∧ sv.root = (views.getLast hne).1.root ∧
      sv.get = trieContent x db.nodes sv.root ∧
      ∀ p ∈ views, ∀ root, ExportedTrie x db p.1 p.2 root → Rebuilt x db db' root := by
  obtain ⟨l, hl, hbetween, hsv, -, hbuilt⟩ :=
    loads_writeStoreViews laws hstate hw (l := { db := db₁ }) ⟨rfl, rfl⟩
  rw [getLast?_eq_some_getLast hne] at hsv
  refine ⟨loadedView x db (views.getLast hne).1, l.db, ?_, rfl, rfl, rfl, hbuilt⟩
  have hlength := length_le_writeRecords written.flatten
  rw [loadStateFileV2, readRecords_writeRecords hsize (by omega)]
  rw [← show l.sv = some (loadedView x db (views.getLast hne).1) from hsv]
  exact loadStateV2_of_loads hl hbetween

def tripViews : List (StateView × Bool) :=
  [(⟨0, tripRoot plainSet, fun _ => none⟩, false),
    (⟨2, pairsRoot contractPairs, fun _ => none⟩, true)]

theorem exists_written_tripViews : ∀ p ∈ tripViews, ∃ records,
    writeStoreView tripExporter tripDB p.1 p.2 = .ok records ∧
      ∀ r ∈ records, (encode r).length < 2 ^ 63 := by
  have hall : ∀ p ∈ tripViews, (writeStoreView tripExporter tripDB p.1 p.2).toOption.any
      (fun records => records.all fun r => decide ((encode r).length < 2 ^ 63)) = true := by
    decide +kernel
  intro p hp
  have h := hall p hp
  cases hrecords : writeStoreView tripExporter tripDB p.1 p.2 with
  | error e =>
    rw [hrecords] at h
    cases h
  | ok records =>
    rw [hrecords] at h
    exact ⟨records, rfl, fun r hr => of_decide_eq_true (all_eq_true.1 h r hr)⟩

/-- The second view has a contract, whose storage is read back too. -/
theorem loadStateFileV2_written_two :
    ∃ written, List.Forall₂
        (fun p records => writeStoreView tripExporter tripDB p.1 p.2 = .ok records) tripViews written ∧
      ∃ sv db', loadStateFileV2 tripExporter.toSnapshotConfig .empty
          (written.flatten.flatMap writeRecord) = .ok (some sv, db') ∧
        sv.height = 2 ∧ sv.root = pairsRoot contractPairs ∧
        db'.nodes (pairsRoot storagePairs) = some (plainNode storagePairs) := by
  obtain ⟨first, hfirst, hsize₁⟩ := exists_written_tripViews _ mem_cons_self
  obtain ⟨second, hsecond, hsize₂⟩ :=
    exists_written_tripViews _ (.tail _ mem_cons_self)
  have hwritten : List.Forall₂
      (fun p records => writeStoreView tripExporter tripDB p.1 p.2 = .ok records) tripViews
      [first, second] := .cons hfirst (.cons hsecond .nil)
  have hstate : ∀ p ∈ tripViews, Exportable tripExporter tripDB.nodes p.1.root p.2 := by
    intro p hp
    rcases mem_cons.1 hp with rfl | hp
    · exact (pairsRoot_storedState (by simp [tripTries])).exportable _
    · obtain rfl := mem_singleton.1 hp
      exact (pairsRoot_storedState (by simp [tripTries])).exportable _
  have hsize : ∀ r ∈ [first, second].flatten, (encode r).length < 2 ^ 63 := by
    intro r hr
    simp only [flatten_cons, flatten_nil, append_nil, mem_append] at hr
    exact hr.elim (hsize₁ r) (hsize₂ r)
  have hstorage : ∃ e ∈ tripExporter.traverse tripDB.nodes (pairsRoot contractPairs),
      storageOf tripExporter e = .ok (some (pairsRoot storagePairs)) := by decide +kernel
  obtain ⟨sv, db', hload, hheight, hroot, -, hbuilt⟩ :=
    loadStateFileV2_written trip_laws (cons_ne_nil _ _) hstate hwritten hsize .empty
  refine ⟨[first, second], hwritten, sv, db', hload, hheight, hroot, ?_⟩
  exact hbuilt _ (.tail _ mem_cons_self) _ (.inr ⟨rfl, hstorage⟩) _ _ .root
    (nodes_tripDB (by simp [tripTries]))

end Snapshot

end ThetaSubchain
