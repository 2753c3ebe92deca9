/-
The transaction root and what a block hash says about the body (core/block.go).

An update of the trie with an empty value deletes the key, so the root sees a list of transactions
only up to empty transactions at its end.
-/
import ThetaSubchain.Core.Block

namespace ThetaSubchain

open MapOrder BlockHeader

abbrev TrieContent := Bytes → Option Bytes

def updateTrie (content : TrieContent) (key value : Bytes) : TrieContent :=
  Function.update content key (if value.isEmpty then none else some value)

def txKey (i : Nat) : Bytes := Rlp.encode (.uint i)

def insertItems (content : TrieContent) (i : Nat) : List Bytes → TrieContent
  | [] => content
  | x :: xs => insertItems (updateTrie content (txKey i) x) (i + 1) xs

def itemsContent (items : List Bytes) : TrieContent := insertItems (fun _ => none) 0 items

def calculateRootHash (trieRoot : TrieContent → Hash) (items : List Bytes) : Hash :=
  trieRoot (itemsContent items)

def Block.validate (verify : Verifier) (trieRoot : TrieContent → Hash) (ord : MapOrder)
    (chainID : Bytes) (b : Block) : Result :=
  let res := b.header.validate verify ord chainID
  if res.isError then res
  else if b.header.txHash ≠ calculateRootHash trieRoot b.txs then
    .error "TxHash does not match"
  else .ok

def storedAt (items : List Bytes) (j : Nat) : Option Bytes :=
  match items[j]? with
  | some x => if x.isEmpty then none else some x
  | none => none

variable {items : List Bytes}

theorem insertItems_of_ne {content : TrieContent} {i : Nat} {k : Bytes}
    (h : ∀ j, i ≤ j → j < i + items.length → k ≠ txKey j) :
    insertItems content i items k = content k := by
  induction items generalizing content i with
  | nil => rfl
  | cons x xs ih =>
    rw [insertItems, ih fun j hij hj => h j (by omega) (by rw [List.length_cons]; omega)]
    exact Function.update_of_ne (h i le_rfl (by simp)) _ _

theorem insertItems_txKey {content : TrieContent} {i j : Nat} (hlen : i + items.length ≤ 2 ^ 64)
    (hj : j < items.length) : insertItems content i items (txKey (i + j)) = storedAt items j := by
  induction items generalizing content i j with
  | nil => simp at hj
  | cons x xs ih =>
    rw [List.length_cons] at hlen hj
    cases j with
    | zero =>
      have hfresh : ∀ j, i + 1 ≤ j → j < i + 1 + xs.length → txKey (i + 0) ≠ txKey j := by
        intro j hij hjlt heq
        have := Rlp.encode_uint_inj (by omega) (by omega) heq
        omega
      rw [insertItems, insertItems_of_ne hfresh]
      exact Function.update_self _ _ _
    | succ j =>
      have hstep : i + (j + 1) = i + 1 + j := by omega
      rw [insertItems, hstep, ih (by omega) (by omega)]
      rfl

theorem itemsContent_txKey (hlen : items.length ≤ 2 ^ 64) {j : Nat} (hj : j < 2 ^ 64) :
    itemsContent items (txKey j) = storedAt items j := by
  by_cases hin : j < items.length
  · have hstored : insertItems (fun _ => none) 0 items (txKey (0 + j)) = storedAt items j :=
      insertItems_txKey (by omega) hin
    rwa [Nat.zero_add] at hstored
  · have hout : storedAt items j = none := by
      rw [storedAt, List.getElem?_eq_none (by omega)]
    rw [itemsContent, hout]
    refine insertItems_of_ne fun i _ hi heq => ?_
    have := Rlp.encode_uint_inj hj (by omega) heq
    omega

theorem eq_append_of_storedAt {xs ys : List Bytes} (hle : xs.length ≤ ys.length)
    (h : ∀ j, j < ys.length → storedAt xs j = storedAt ys j) :
    ys = xs ++ List.replicate (ys.length - xs.length) [] := by
  refine List.ext_getElem? fun j => ?_
  by_cases hj : j < ys.length
  · have hs := h j hj
    have hy : ys[j]? = some ys[j] := List.getElem?_eq_getElem hj
    by_cases hjx : j < xs.length
    · have hx : xs[j]? = some xs[j] := List.getElem?_eq_getElem hjx
      rw [List.getElem?_append_left hjx, hx, hy]
      simp only [storedAt, hx, hy] at hs
      -- both values are empty, or both are stored
      by_cases hxe : xs[j].isEmpty <;> by_cases hye : ys[j].isEmpty <;>
        simp_all [List.isEmpty_iff]
    · have hx : xs[j]? = none := List.getElem?_eq_none (by omega)
      rw [List.getElem?_append_right (by omega), List.getElem?_replicate,
        if_pos (by omega), hy]
      simp only [storedAt, hx, hy] at hs
      by_cases hye : ys[j].isEmpty
      · rw [List.isEmpty_iff.1 hye]
      · simp [hye] at hs
  · rw [List.getElem?_eq_none (by omega), List.getElem?_eq_none]
    rw [List.length_append, List.length_replicate]
    omega

theorem eq_or_append_of_itemsContent {xs ys : List Bytes} (hx : xs.length ≤ 2 ^ 64)
    (hy : ys.length ≤ 2 ^ 64) (h : itemsContent xs = itemsContent ys) :
    ∃ n, ys = xs ++ List.replicate n [] ∨ xs = ys ++ List.replicate n [] := by
  have hstored : ∀ j, j < 2 ^ 64 → storedAt xs j = storedAt ys j := by
    intro j hj
    rw [← itemsContent_txKey hx hj, ← itemsContent_txKey hy hj, h]
  rcases Nat.le_total xs.length ys.length with hle | hle
  · exact ⟨_, .inl (eq_append_of_storedAt hle fun j hj => hstored j (by omega))⟩
  · exact ⟨_, .inr (eq_append_of_storedAt hle fun j hj => (hstored j (by omega)).symm)⟩

theorem BlockHeader.txHash_eq_of_encode_eq {a b : BlockHeader} {ord ord' : MapOrder}
    (ha : (a.encode ord).length < 2 ^ 64) (hb : (b.encode ord').length < 2 ^ 64)
    (h : a.encode ord = b.encode ord') : a.txHash = b.txHash := by
  have hitem := Rlp.encode_inj ha hb h
  simp only [toItem, Rlp.Item.list.injEq, List.cons.injEq] at hitem
  exact Hash.toItem_injective hitem.2.2.2.2.2.1

theorem Block.validate_txHash {verify : Verifier} {trieRoot : TrieContent → Hash}
    {ord : MapOrder} {chainID : Bytes} {b : Block}
    (h : b.validate verify trieRoot ord chainID = .ok) :
    b.header.txHash = calculateRootHash trieRoot b.txs := by
  unfold Block.validate at h
  by_cases hres : (b.header.validate verify ord chainID).isError
  · simp only [hres, if_true] at h
    rw [h] at hres
    simp [Result.isError] at hres
  · by_contra hne
    simp [hres, hne] at h

/-- Two valid blocks with one header hash have the same body exactly when neither
body is the other one followed by empty transactions.  The header encodings and the
two tries are assumed not to collide, and lengths are those of Go slices. -/
theorem txs_eq_iff_not_append_empty (keccak : Bytes → Hash) {trieRoot : TrieContent → Hash}
    {verify : Verifier} {ord ord' : MapOrder} {chainID chainID' : Bytes} {a b : Block}
    (hkeccak : Set.InjOn keccak {a.header.encode ord, b.header.encode ord'})
    (htrie : Set.InjOn trieRoot {itemsContent a.txs, itemsContent b.txs})
    (hsize : (a.header.encode ord).length < 2 ^ 63 ∧ (b.header.encode ord').length < 2 ^ 63 ∧
      a.txs.length < 2 ^ 63 ∧ b.txs.length < 2 ^ 63)
    (ha : a.validate verify trieRoot ord chainID = .ok)
    (hb : b.validate verify trieRoot ord' chainID' = .ok)
    (hhash : a.header.calculateHash keccak ord = b.header.calculateHash keccak ord') :
    a.txs = b.txs ↔ ∀ n, 0 < n →
      a.txs ≠ b.txs ++ List.replicate n [] ∧ b.txs ≠ a.txs ++ List.replicate n [] := by
  obtain ⟨hsa, hsb, hla, hlb⟩ := hsize
  constructor
  · intro h n hn
    rw [h]
    have hne : b.txs ≠ b.txs ++ List.replicate n [] := by
      intro h'
      have := congrArg List.length h'
      rw [List.length_append, List.length_replicate] at this
      omega
    exact ⟨hne, hne⟩
  · intro h
    have henc : a.header.encode ord = b.header.encode ord' :=
      hkeccak (by simp) (by simp) hhash
    have htx := txHash_eq_of_encode_eq (by omega) (by omega) henc
    rw [Block.validate_txHash ha, Block.validate_txHash hb] at htx
    have hcontent : itemsContent a.txs = itemsContent b.txs := htrie (by simp) (by simp) htx
    obtain ⟨n, hn⟩ := eq_or_append_of_itemsContent (by omega) (by omega) hcontent
    rcases Nat.eq_zero_or_pos n with rfl | hpos
    · rcases hn with hn | hn
      · rw [hn]; simp
      · rw [hn]; simp
    · rcases hn with hn | hn
      · exact absurd hn (h n hpos).2
      · exact absurd hn (h n hpos).1

def sampleHeader (txHash : Hash) : BlockHeader where
  chainID := [116]
  epoch := 2
  height := 2
  parent := 1
  hcc := ⟨none, 1⟩
  txHash := txHash
  receiptHash := 0
  bloom := 0
  stateHash := 0
  timestamp := some 7
  proposer := 1
  signature := some ⟨[1]⟩

theorem sampleHeader_validate (txHash : Hash) :
    (sampleHeader txHash).validate (fun _ _ _ => true) id [116] = .ok := by
  simp [validate, sampleHeader, Hash.isEmpty, Address.isEmpty, Signature.isEmpty]

def sampleTrieRoot (c : TrieContent) : Hash := if c (txKey 0) = some [5] then 9 else 0

theorem sampleBlock_validate {txs : List Bytes} {root : Hash}
    (h : calculateRootHash sampleTrieRoot txs = root) :
    Block.validate (fun _ _ _ => true) sampleTrieRoot id [116]
      ⟨sampleHeader root, txs⟩ = .ok := by
  rw [Block.validate, h, sampleHeader_validate]
  simp [Result.isError, sampleHeader]

theorem txs_eq_iff_not_append_empty_sample :
    let a : Block := ⟨sampleHeader 9, [[5]]⟩
    let b : Block := ⟨sampleHeader 9, [[5], []]⟩
    a.txs = b.txs ↔ ∀ n, 0 < n →
      a.txs ≠ b.txs ++ List.replicate n [] ∧ b.txs ≠ a.txs ++ List.replicate n [] := by
  intro a b
  have hne : txKey 0 ≠ txKey 1 := by decide
  have hcontent : itemsContent b.txs = itemsContent a.txs := by
    funext k
    by_cases hk : k = txKey 1 <;>
      simp [itemsContent, insertItems, updateTrie, Function.update, a, b, hk, hne.symm]
  have hroot : calculateRootHash sampleTrieRoot a.txs = 9 := by
    simp [calculateRootHash, itemsContent, insertItems, updateTrie, sampleTrieRoot, a]
  have hroot' : calculateRootHash sampleTrieRoot b.txs = 9 := by
    rw [← hroot, calculateRootHash, calculateRootHash, hcontent]
  have hsize : ((sampleHeader 9).encode id).length < 2 ^ 63 := by
    rw [encode, toItem_of_bloom rfl]
    decide +kernel
  exact txs_eq_iff_not_append_empty (fun bytes => BitVec.ofNat 256 bytes.length)
    (a := a) (b := b) (by simp [a, b]) (by rw [hcontent]; simp)
    ⟨hsize, hsize, by decide, by decide⟩ (sampleBlock_validate hroot)
    (sampleBlock_validate hroot') rfl

/-- Two valid blocks with one header and one trie whose bodies differ: one is empty, the
other holds one empty transaction. -/
theorem txs_ne_of_empty_transaction :
    let keccak : Bytes → Hash := fun bytes => BitVec.ofNat 256 bytes.length
    let a : Block := ⟨sampleHeader 0, []⟩
    let b : Block := ⟨sampleHeader 0, [[]]⟩
    Set.InjOn keccak {a.header.encode id, b.header.encode id} ∧
      itemsContent a.txs = itemsContent b.txs ∧
      a.validate (fun _ _ _ => true) sampleTrieRoot id [116] = .ok ∧
      b.validate (fun _ _ _ => true) sampleTrieRoot id [116] = .ok ∧
      a.header.calculateHash keccak id = b.header.calculateHash keccak id ∧
      a.txs ≠ b.txs := by
  intro keccak a b
  have hcontent : itemsContent a.txs = itemsContent b.txs := by
    funext k
    by_cases hk : k = txKey 0 <;> simp [itemsContent, insertItems, updateTrie, hk, a, b]
  have hroot : calculateRootHash sampleTrieRoot a.txs = 0 := by
    simp [calculateRootHash, itemsContent, insertItems, sampleTrieRoot, a]
  have hroot' : calculateRootHash sampleTrieRoot b.txs = 0 := by
    rw [← hroot, calculateRootHash, calculateRootHash, hcontent]
  refine ⟨by simp [a, b], hcontent, sampleBlock_validate hroot, sampleBlock_validate hroot', rfl, ?_⟩
  simp [a, b]

end ThetaSubchain
