/-
Blocks as they are stored and sent (core/block.go, core/vote.go).

The votes of a certificate are written in the order of their voters, and votes of one voter in
whatever order the Go map is iterated in.
-/
import ThetaSubchain.Core.Block
import ThetaSubchain.Lib.Ending
import ThetaSubchain.Lib.RlpDecode

namespace ThetaSubchain

open Rlp (Item)
open Option VoteSet

def fixedOfItem (k w : Nat) : Item → Option (BitVec w)
  | .str b => if b.length = k then some (BitVec.ofNat w (Rlp.toNat b)) else none
  | .list _ => none

def Hash.ofItem : Item → Option Hash := fixedOfItem 32 256

def Address.ofItem : Item → Option Address := fixedOfItem 20 160

def bloomOfItem : Item → Option (BitVec 2048) := fixedOfItem 256 2048

def uintOfItem (k : Nat) : Item → Option Nat
  | .str b => if b.length ≤ k then Rlp.decodeUint b else none
  | .list _ => none

def uint64OfItem (x : Item) : Option UInt64 := (uintOfItem 8 x).map UInt64.ofNat

def byteOfItem (x : Item) : Option UInt8 := (uintOfItem 1 x).map UInt8.ofNat

def boolOfItem (x : Item) : Option Bool :=
  match byteOfItem x with
  | some 0 => some false
  | some 1 => some true
  | _ => none

def bigIntOfItem : Item → Option Nat
  | .str b => Rlp.decodeUint b
  | .list _ => none

def bytesOfItem : Item → Option Bytes
  | .str b => some b
  | .list _ => none

/-- The pointer is set, also if there are no bytes. -/
def signatureOfItem (x : Item) : Option (Option Signature) := (bytesOfItem x).map fun b => some ⟨b⟩

def listOfItem {α : Type} (f : Item → Option α) : Item → Option (List α)
  | .list xs => xs.mapM f
  | .str _ => none

def Vote.ofItem : Item → Option Vote
  | .list [block, height, mainchainHeight, epoch, id, signature] => do
    return ⟨← Hash.ofItem block, ← uint64OfItem height, ← uint64OfItem mainchainHeight,
      ← uint64OfItem epoch, ← Address.ofItem id, ← signatureOfItem signature⟩
  | _ => none

/-- `VoteSet.DecodeRLP`; a set without votes is not read as a nil pointer, although it is written
like one. -/
def voteSetOfItem (x : Item) : Option (Option VoteSet) :=
  (listOfItem Vote.ofItem x).map fun votes => some (VoteSet.empty.addVotes votes)

def CommitCertificate.ofItem : Item → Option CommitCertificate
  | .list [votes, blockHash] => do return ⟨← voteSetOfItem votes, ← Hash.ofItem blockHash⟩
  | _ => none

def BlockHeader.ofItem : Item → Option BlockHeader
  | .list [chainID, epoch, height, parent, hcc, txHash, receiptHash, bloom, stateHash, timestamp,
      proposer, signature] => do
    return {
      chainID := ← bytesOfItem chainID
      epoch := ← uint64OfItem epoch
      height := ← uint64OfItem height
      parent := ← Hash.ofItem parent
      hcc := ← CommitCertificate.ofItem hcc
      txHash := ← Hash.ofItem txHash
      receiptHash := ← Hash.ofItem receiptHash
      bloom := ← bloomOfItem bloom
      stateHash := ← Hash.ofItem stateHash
      timestamp := some (← bigIntOfItem timestamp)
      proposer := ← Address.ofItem proposer
      signature := ← signatureOfItem signature }
  | _ => none

def Block.ofItem : Item → Option Block
  | .list [header, txs] => do return ⟨← BlockHeader.ofItem header, ← listOfItem bytesOfItem txs⟩
  | _ => none

variable (ord : MapOrder)

def Block.toItem (b : Block) : Item :=
  .list [b.header.toItem ord, .list (b.txs.map .str)]

structure StoredBlock where
  block : Block
  children : List Hash
  status : UInt8
  hasValidatorUpdate : Bool

def StoredBlock.ofItem : Item → Option StoredBlock
  | .list [block, children, status, hasValidatorUpdate] => do
    return ⟨← Block.ofItem block, ← listOfItem Hash.ofItem children, ← byteOfItem status,
      ← boolOfItem hasValidatorUpdate⟩
  | _ => none

def StoredBlock.toItem (b : StoredBlock) : Item :=
  .list [b.block.toItem ord, .list (b.children.map Hash.toItem), .uint b.status.toNat,
    .uint b.hasValidatorUpdate.toNat]

theorem fixedOfItem_toNat {k w : Nat} (hw : w = 8 * k) (x : BitVec w) :
    fixedOfItem k w (.fixed k x.toNat) = some x := by
  have hlt : x.toNat < 256 ^ k := by
    have hpow : 256 ^ k = 2 ^ w := by
      rw [hw, pow_mul]
      norm_num
    rw [hpow]
    exact x.isLt
  rw [Item.fixed, fixedOfItem, if_pos (Rlp.length_fixedBytes k _), Rlp.toNat_fixedBytes hlt,
    BitVec.ofNat_toNat, BitVec.setWidth_eq]

@[simp] theorem Hash.ofItem_toItem (h : Hash) : Hash.ofItem h.toItem = some h := by
  rw [Hash.ofItem, Hash.toItem]
  exact fixedOfItem_toNat (k := 32) (by norm_num) h

@[simp] theorem Address.ofItem_toItem (a : Address) : Address.ofItem a.toItem = some a := by
  rw [Address.ofItem, Address.toItem]
  exact fixedOfItem_toNat (k := 20) (by norm_num) a

@[simp] theorem bloomOfItem_fixed (b : BitVec 2048) :
    bloomOfItem (.fixed 256 b.toNat) = some b := by
  rw [bloomOfItem]
  exact fixedOfItem_toNat (k := 256) (by norm_num) b

theorem uintOfItem_uint {k n : Nat} (h : (Rlp.beBytes n).length ≤ k) :
    uintOfItem k (.uint n) = some n := by
  rw [Item.uint, uintOfItem, if_pos h, Rlp.decodeUint_beBytes]

@[simp] theorem uint64OfItem_uint (n : UInt64) : uint64OfItem (.uint n.toNat) = some n := by
  rw [uint64OfItem, uintOfItem_uint (Rlp.length_beBytes_le n.toNat_lt), map_some,
    UInt64.ofNat_toNat]

@[simp] theorem byteOfItem_uint (n : UInt8) : byteOfItem (.uint n.toNat) = some n := by
  rw [byteOfItem, uintOfItem_uint (Rlp.length_beBytes_le_iff.2 n.toNat_lt), map_some,
    UInt8.ofNat_toNat]

@[simp] theorem boolOfItem_uint (b : Bool) : boolOfItem (.uint b.toNat) = some b := by
  cases b with
  | false =>
    rw [boolOfItem, show false.toNat = (0 : UInt8).toNat from rfl, byteOfItem_uint]
    rfl
  | true =>
    rw [boolOfItem, show true.toNat = (1 : UInt8).toNat from rfl, byteOfItem_uint]
    rfl

@[simp] theorem bigIntOfItem_uint (n : Nat) : bigIntOfItem (.uint n) = some n := by
  rw [Item.uint, bigIntOfItem, Rlp.decodeUint_beBytes]

@[simp] theorem signatureOfItem_some (sig : Signature) :
    signatureOfItem (signatureItem (some sig)) = some (some sig) := rfl

theorem listOfItem_map {α : Type} {f : Item → Option α} {g : α → Item} {l : List α}
    (h : ∀ x ∈ l, f (g x) = some x) : listOfItem f (.list (l.map g)) = some l := by
  show (l.map g).mapM f = some l
  induction l with
  | nil => rfl
  | cons x l ih =>
    rw [List.map_cons, List.mapM_cons, h x (by simp), ih fun y hy => h y (by simp [hy])]
    rfl

theorem Vote.ofItem_toItem {v : Vote} (h : v.signature.isSome) : Vote.ofItem v.toItem = some v := by
  obtain ⟨sig, hsig⟩ := isSome_iff_exists.1 h
  simp [Vote.toItem, Vote.ofItem, hsig]
  rw [← hsig]

/-- What holds of every header that was read: its pointers are set. -/
structure BlockHeader.Read (h : BlockHeader) : Prop where
  signature : h.signature.isSome
  timestamp : h.timestamp.isSome
  votes : ∃ s, h.hcc.votes = some s ∧ ∀ v ∈ s.entries, v.signature.isSome

def BlockHeader.DistinctVoters (h : BlockHeader) : Prop :=
  ∀ s, h.hcc.votes = some s → (s.entries.map Vote.id).Nodup

instance (h : BlockHeader) : Decidable h.DistinctVoters :=
  match hv : h.hcc.votes with
  | none => .isTrue fun _ hs => by rw [hv] at hs; cases hs
  | some s => decidable_of_iff (s.entries.map Vote.id).Nodup
      ⟨fun h t ht => Option.some.inj (hv.symm.trans ht) ▸ h, fun h => h s hv⟩

structure BlockHeader.Same (h h' : BlockHeader) : Prop where
  fields : h' = { h with hcc := { h.hcc with votes := h'.hcc.votes } }
  votes : (h.hcc.votes = none ∧ h'.hcc.votes = none) ∨
    ∃ s s', h.hcc.votes = some s ∧ h'.hcc.votes = some s' ∧ s'.entries.Perm s.entries

theorem isSome_of_signatureOfItem {x : Item} {sig : Option Signature}
    (h : signatureOfItem x = some sig) : sig.isSome := by
  obtain ⟨b, -, rfl⟩ := map_eq_some_iff.1 h
  rfl

theorem isSome_of_voteOfItem {x : Item} {v : Vote} (h : Vote.ofItem x = some v) :
    v.signature.isSome := by
  unfold Vote.ofItem at h
  split at h
  · simp only [bind_eq_bind, bind_eq_some_iff, pure_def,
      some.injEq] at h
    obtain ⟨_, -, _, -, _, -, _, -, _, -, sig, hsig, rfl⟩ := h
    exact isSome_of_signatureOfItem hsig
  · cases h

theorem read_voteSetOfItem {x : Item} {votes : Option VoteSet} (h : voteSetOfItem x = some votes) :
    ∃ s, votes = some s ∧ ∀ v ∈ s.entries, v.signature.isSome := by
  obtain ⟨vs, hvs, rfl⟩ := map_eq_some_iff.1 h
  refine ⟨_, rfl, fun v hv => ?_⟩
  cases x with
  | str b => cases hvs
  | list xs =>
    have hall := Ending.mapM_eq_some.1 hvs
    obtain ⟨i, -, hi⟩ := Ending.exists_left_of_mem hall
      ((mem_addVotes hv).resolve_left (not_mem_empty v))
    exact isSome_of_voteOfItem hi

theorem BlockHeader.read_ofItem {x : Item} {h : BlockHeader} (hx : BlockHeader.ofItem x = some h) :
    h.Read := by
  unfold BlockHeader.ofItem at hx
  split at hx
  · obtain ⟨_, -, hx⟩ := bind_eq_some_iff.1 hx
    obtain ⟨_, -, hx⟩ := bind_eq_some_iff.1 hx
    obtain ⟨_, -, hx⟩ := bind_eq_some_iff.1 hx
    obtain ⟨_, -, hx⟩ := bind_eq_some_iff.1 hx
    obtain ⟨hcc, hhcc, hx⟩ := bind_eq_some_iff.1 hx
    obtain ⟨_, -, hx⟩ := bind_eq_some_iff.1 hx
    obtain ⟨_, -, hx⟩ := bind_eq_some_iff.1 hx
    obtain ⟨_, -, hx⟩ := bind_eq_some_iff.1 hx
    obtain ⟨_, -, hx⟩ := bind_eq_some_iff.1 hx
    obtain ⟨_, -, hx⟩ := bind_eq_some_iff.1 hx
    obtain ⟨_, -, hx⟩ := bind_eq_some_iff.1 hx
    obtain ⟨sig, hsig, hx⟩ := bind_eq_some_iff.1 hx
    rw [← some.inj hx]
    refine ⟨isSome_of_signatureOfItem hsig, rfl, ?_⟩
    unfold CommitCertificate.ofItem at hhcc
    split at hhcc
    · simp only [bind_eq_bind, bind_eq_some_iff, pure_def,
        some.injEq] at hhcc
      obtain ⟨votes, hvotes, _, -, rfl⟩ := hhcc
      exact read_voteSetOfItem hvotes
    · cases hhcc
  · cases hx

theorem voteSetOfItem_item {s : VoteSet} (hsig : ∀ v ∈ s.entries, v.signature.isSome) :
    voteSetOfItem (voteSetItem ord (some s)) = some (some (empty.addVotes (s.votes ord))) := by
  have hlist : listOfItem Vote.ofItem (.list ((s.votes ord).map Vote.toItem)) =
      some (s.votes ord) :=
    listOfItem_map fun v hv => Vote.ofItem_toItem (hsig v (mem_votes.1 hv))
  show voteSetOfItem (.list ((s.votes ord).map Vote.toItem)) = _
  rw [voteSetOfItem, hlist]
  rfl

theorem BlockHeader.ofItem_toItem {h : BlockHeader} (hr : h.Read) :
    ∃ h', BlockHeader.ofItem (h.toItem ord) = some h' ∧ h.Same h' := by
  obtain ⟨sig, hsig⟩ := isSome_iff_exists.1 hr.signature
  obtain ⟨ts, hts⟩ := isSome_iff_exists.1 hr.timestamp
  obtain ⟨s, hs, hvotes⟩ := hr.votes
  have hcc : CommitCertificate.ofItem (h.hcc.toItem ord) =
      some ⟨some (empty.addVotes (s.votes ord)), h.hcc.blockHash⟩ := by
    rw [CommitCertificate.toItem, CommitCertificate.ofItem, hs, voteSetOfItem_item ord hvotes,
      Hash.ofItem_toItem]
    rfl
  refine ⟨{ h with hcc := ⟨some (empty.addVotes (s.votes ord)), h.hcc.blockHash⟩ }, ?_, rfl,
    .inr ⟨s, _, hs, rfl, ?_⟩⟩
  · simp [BlockHeader.toItem, BlockHeader.ofItem, hcc, hsig, hts, bytesOfItem]
  · have hperm := s.votes_perm ord
    rw [entries_addVotes ((hperm.map Vote.key).nodup_iff.2 s.distinct)
      (by simp [empty])]
    exact hperm

theorem VoteSet.votes_eq_of_perm {s s' : VoteSet} (ord ord' : MapOrder)
    (hperm : s'.entries.Perm s.entries) (hs : (s.entries.map Vote.id).Nodup) :
    s'.votes ord' = s.votes ord := by
  have hsorted : ∀ (o : MapOrder) (t : VoteSet),
      (t.votes o).Pairwise fun a b => a.id ≤ b.id := by
    intro o t
    exact List.pairwise_insertionSort (fun a b : Vote => a.id ≤ b.id) _
  have hall : (s'.votes ord').Perm (s.votes ord) :=
    (s'.votes_perm ord').trans (hperm.trans (s.votes_perm ord).symm)
  refine List.Perm.eq_of_pairwise ?_ (hsorted _ _) (hsorted _ _) hall
  intro a b ha hb hab hba
  have ha' := mem_votes.1 (hall.mem_iff.1 ha)
  have hb' := mem_votes.1 hb
  exact List.inj_on_of_nodup_map hs ha' hb' (BitVec.le_antisymm hab hba)

namespace BlockHeader

variable {h h' : BlockHeader}

theorem Same.toItem_eq (hs : h.Same h') (hd : h.DistinctVoters) (ord ord' : MapOrder) :
    h'.toItem ord' = h.toItem ord := by
  have hvotes : voteSetItem ord' h'.hcc.votes = voteSetItem ord h.hcc.votes := by
    rcases hs.votes with ⟨hn, hn'⟩ | ⟨s, s', hv, hv', hperm⟩
    · rw [hn, hn']
      rfl
    · rw [hv, hv', voteSetItem, voteSetItem, votes_eq_of_perm ord ord' hperm (hd s hv)]
  rw [hs.fields]
  simp only [BlockHeader.toItem, CommitCertificate.toItem, hvotes]

theorem Same.refl (h : BlockHeader) : h.Same h := by
  refine ⟨rfl, ?_⟩
  cases hv : h.hcc.votes with
  | none => exact .inl ⟨rfl, rfl⟩
  | some s => exact .inr ⟨s, s, rfl, rfl, List.Perm.refl _⟩

theorem Same.unsigned (hs : h.Same h') :
    { h with signature := none }.Same { h' with signature := none } := by
  refine ⟨?_, hs.votes⟩
  rw [hs.fields]

theorem Same.distinctVoters (hs : h.Same h') (hd : h.DistinctVoters) : h'.DistinctVoters := by
  intro t ht
  rcases hs.votes with ⟨-, hn'⟩ | ⟨s, s', hv, hv', hperm⟩
  · rw [hn'] at ht
    cases ht
  · rw [hv', some.injEq] at ht
    rw [← ht, (hperm.map Vote.id).nodup_iff]
    exact hd s hv

theorem Same.signBytes_eq (hs : h.Same h') (hd : h.DistinctVoters) (ord ord' : MapOrder) :
    h'.signBytes ord' = h.signBytes ord := by
  have hitem := hs.unsigned.toItem_eq hd ord ord'
  rw [signBytes, signBytes, encode, encode, hitem]

theorem Same.calculateHash_eq (hs : h.Same h') (hd : h.DistinctVoters) (keccak : Bytes → Hash)
    (ord ord' : MapOrder) : h'.calculateHash keccak ord' = h.calculateHash keccak ord := by
  rw [calculateHash, calculateHash, encode, encode, hs.toItem_eq hd ord ord']

theorem Same.identity_eq (hs : h.Same h') (hd : h.DistinctVoters) (keccak : Bytes → Hash)
    (ord ord' : MapOrder) : h'.calculateHash keccak ord = h.calculateHash keccak ord' ∧
      h'.signBytes ord = h.signBytes ord' :=
  ⟨hs.calculateHash_eq hd keccak ord' ord, hs.signBytes_eq hd ord' ord⟩

end BlockHeader

def MapOrder.reverse : MapOrder := ⟨List.reverse, List.reverse_perm⟩

theorem Vote.key_eq_of_toItem {v w : Vote} (h : v.toItem = w.toItem) : v.key = w.key := by
  simp only [Vote.toItem, Item.list.injEq, List.cons.injEq] at h
  have hblock := Hash.toItem_injective h.1
  have hepoch : v.epoch = w.epoch := by
    have hread := congrArg uint64OfItem h.2.2.2.1
    rwa [uint64OfItem_uint, uint64OfItem_uint, some.injEq] at hread
  have hid : v.id = w.id := by
    have hread := congrArg Address.ofItem h.2.2.2.2.1
    rwa [Address.ofItem_toItem, Address.ofItem_toItem, some.injEq] at hread
  rw [Vote.key, Vote.key, hblock, hepoch, hid]

theorem map_key_eq_of_map_toItem {l l' : List Vote} (h : l.map Vote.toItem = l'.map Vote.toItem) :
    l.map Vote.key = l'.map Vote.key := by
  induction l generalizing l' with
  | nil =>
    rw [List.map_nil] at h
    rw [List.map_eq_nil_iff.1 h.symm]
  | cons v l ih =>
    cases l' with
    | nil => cases h
    | cons w l' =>
      rw [List.map_cons, List.map_cons, List.cons.injEq] at h
      rw [List.map_cons, List.map_cons, Vote.key_eq_of_toItem h.1, ih h.2]

theorem eq_of_pair_sublists {α : Type} {a b : α} {l : List α} (hl : l.Nodup)
    (hab : List.Sublist [a, b] l) (hba : List.Sublist [b, a] l) : a = b := by
  induction l with
  | nil => cases hab
  | cons x l ih =>
    rw [List.nodup_cons] at hl
    cases hab with
    | cons _ hab =>
      cases hba with
      | cons _ hba => exact ih hl.2 hab hba
      | cons_cons _ hba => exact absurd (hab.subset (by simp)) hl.1
    | cons_cons _ hab =>
      cases hba with
      | cons _ hba => exact absurd (hba.subset (by simp)) hl.1
      | cons_cons _ hba => rfl

theorem VoteSet.items_ne_of_duplicate {s : VoteSet} (h : ¬ (s.entries.map Vote.id).Nodup) :
    (s.votes .id).map Vote.toItem ≠ (s.votes .reverse).map Vote.toItem := by
  intro heq
  have hkeys := map_key_eq_of_map_toItem heq
  have hpair : ∃ a b, List.Sublist [a, b] s.entries ∧ a.id = b.id := by
    by_contra hnone
    refine h (List.pairwise_map.2 (List.pairwise_iff_forall_sublist.2 ?_))
    intro a b hab hid
    exact hnone ⟨a, b, hab, hid⟩
  obtain ⟨a, b, hab, hid⟩ := hpair
  have hne : a.key ≠ b.key :=
    List.pairwise_iff_forall_sublist.1 (List.pairwise_map.1 s.distinct) hab
  have hfirst : List.Sublist [a, b] (s.votes .id) :=
    List.pair_sublist_insertionSort (hid ▸ BitVec.le_refl a.id) hab
  have hsecond : List.Sublist [b, a] (s.votes .reverse) :=
    List.pair_sublist_insertionSort (hid ▸ BitVec.le_refl a.id) (List.reverse_sublist.2 hab)
  have hfirst' := hfirst.map Vote.key
  rw [hkeys] at hfirst'
  have hnodup : ((s.votes .reverse).map Vote.key).Nodup :=
    ((s.votes_perm .reverse).map Vote.key).nodup_iff.2 s.distinct
  exact hne (eq_of_pair_sublists hnodup hfirst' (hsecond.map Vote.key))

theorem BlockHeader.signBytes_ne_of_duplicate {h : BlockHeader} (hd : ¬ h.DistinctVoters)
    (hsize : ∀ ord, (h.signBytes ord).length < 2 ^ 64) :
    h.signBytes .id ≠ h.signBytes .reverse := by
  intro heq
  apply hd
  intro s hs
  by_contra hdup
  have hitem := Rlp.encode_inj (hsize .id) (hsize .reverse) heq
  simp only [BlockHeader.toItem, CommitCertificate.toItem, voteSetItem, hs, Item.list.injEq,
    List.cons.injEq] at hitem
  exact items_ne_of_duplicate hdup hitem.2.2.2.2.1.1

structure BlockCodec (α β : Type) where
  toItem : MapOrder → α → Item
  ofItem : Item → Option α
  header : α → BlockHeader
  body : α → β

def wireCodec : BlockCodec Block (List Bytes) where
  toItem := Block.toItem
  ofItem := Block.ofItem
  header := Block.header
  body := Block.txs

def storeCodec : BlockCodec StoredBlock (List Bytes × List Hash × UInt8 × Bool) where
  toItem := StoredBlock.toItem
  ofItem := StoredBlock.ofItem
  header b := b.block.header
  body b := (b.block.txs, b.children, b.status, b.hasValidatorUpdate)

namespace BlockCodec

variable {α β : Type} {c : BlockCodec α β} {x y : α}

def encode (c : BlockCodec α β) (ord : MapOrder) (x : α) : Bytes := Rlp.encode (c.toItem ord x)

def decode (c : BlockCodec α β) (bytes : Bytes) : Option α := (Rlp.decode bytes).bind c.ofItem

def roundTrips (c : BlockCodec α β) : List MapOrder → α → Option α
  | [], x => some x
  | ord :: ords, x => (c.decode (c.encode ord x)).bind (c.roundTrips ords)

def Fits (c : BlockCodec α β) (x : α) : Prop :=
  ∀ ord, (c.encode ord x).length < 2 ^ 64 ∧ ((c.header x).signBytes ord).length < 2 ^ 64

/-- The hash and what is signed do not depend on the iteration order, and nothing changes when
the value is written and read any number of times. -/
def Stable (c : BlockCodec α β) (keccak : Bytes → Hash) (x : α) : Prop :=
  (∀ ord ord', (c.header x).calculateHash keccak ord = (c.header x).calculateHash keccak ord' ∧
    (c.header x).signBytes ord = (c.header x).signBytes ord') ∧
  ∀ ords, ∃ y, c.roundTrips ords x = some y ∧ c.body y = c.body x ∧
    ∀ ord ord', (c.header y).calculateHash keccak ord = (c.header x).calculateHash keccak ord' ∧
      (c.header y).signBytes ord = (c.header x).signBytes ord'

structure Lawful (c : BlockCodec α β) : Prop where
  read : ∀ i x, c.ofItem i = some x → (c.header x).Read
  congr : ∀ x y ord ord', (c.header x).toItem ord = (c.header y).toItem ord' →
    c.body x = c.body y → c.toItem ord x = c.toItem ord' y
  back : ∀ x ord, (c.header x).Read → ∃ y, c.ofItem (c.toItem ord x) = some y ∧
    (c.header x).Same (c.header y) ∧ c.body y = c.body x

theorem lawful_wireCodec : wireCodec.Lawful where
  read i x hx := by
    change Block.ofItem i = some x at hx
    unfold Block.ofItem at hx
    split at hx
    · simp only [bind_eq_bind, bind_eq_some_iff, pure_def,
        some.injEq] at hx
      obtain ⟨h, hh, _, -, rfl⟩ := hx
      exact BlockHeader.read_ofItem hh
    · cases hx
  congr x y ord ord' hh hb := by
    show Item.list [x.header.toItem ord, _] = Item.list [y.header.toItem ord', _]
    rw [show x.header.toItem ord = y.header.toItem ord' from hh, show x.txs = y.txs from hb]
  back x ord hr := by
    obtain ⟨h', hh', hsame⟩ := BlockHeader.ofItem_toItem ord hr
    have htxs : listOfItem bytesOfItem (.list (x.txs.map .str)) = some x.txs :=
      listOfItem_map fun _ _ => rfl
    refine ⟨⟨h', x.txs⟩, ?_, hsame, rfl⟩
    show Block.ofItem (x.toItem ord) = _
    rw [Block.toItem, Block.ofItem, show BlockHeader.ofItem (x.header.toItem ord) = _ from hh', htxs]
    rfl

theorem lawful_storeCodec : storeCodec.Lawful where
  read i x hx := by
    change StoredBlock.ofItem i = some x at hx
    unfold StoredBlock.ofItem at hx
    split at hx
    · simp only [bind_eq_bind, bind_eq_some_iff, pure_def,
        some.injEq] at hx
      obtain ⟨b, hb, _, -, _, -, _, -, rfl⟩ := hx
      exact lawful_wireCodec.read _ b hb
    · cases hx
  congr x y ord ord' hh hb := by
    obtain ⟨htxs, hchildren, hstatus, hflag⟩ : x.block.txs = y.block.txs ∧
        x.children = y.children ∧ x.status = y.status ∧
        x.hasValidatorUpdate = y.hasValidatorUpdate := by
      simpa [storeCodec] using hb
    have hblock := lawful_wireCodec.congr x.block y.block ord ord' hh htxs
    show StoredBlock.toItem ord x = StoredBlock.toItem ord' y
    rw [StoredBlock.toItem, StoredBlock.toItem, hchildren, hstatus, hflag,
      show x.block.toItem ord = y.block.toItem ord' from hblock]
  back x ord hr := by
    obtain ⟨b, hb, hsame, htxs⟩ := lawful_wireCodec.back x.block ord hr
    have hchildren : listOfItem Hash.ofItem (.list (x.children.map Hash.toItem)) =
        some x.children :=
      listOfItem_map fun h _ => Hash.ofItem_toItem h
    refine ⟨⟨b, x.children, x.status, x.hasValidatorUpdate⟩, ?_, hsame, ?_⟩
    · show StoredBlock.ofItem (x.toItem ord) = _
      rw [StoredBlock.toItem, StoredBlock.ofItem,
        show Block.ofItem (x.block.toItem ord) = some b from hb, hchildren, byteOfItem_uint,
        boolOfItem_uint]
      rfl
    · show (b.txs, _) = (x.block.txs, _)
      rw [show b.txs = x.block.txs from htxs]

theorem Lawful.decode_encode (hc : c.Lawful) (hr : (c.header x).Read) (hfits : c.Fits x)
    (ord : MapOrder) :
    ∃ y, c.decode (c.encode ord x) = some y ∧ (c.header x).Same (c.header y) ∧
      c.body y = c.body x ∧ (c.header y).Read := by
  obtain ⟨y, hy, hsame, hbody⟩ := hc.back x ord hr
  refine ⟨y, ?_, hsame, hbody, hc.read _ y hy⟩
  rw [decode, encode, Rlp.decode_encode (hfits ord).1]
  exact hy

theorem Lawful.fits (hc : c.Lawful) (hsame : (c.header x).Same (c.header y))
    (hd : (c.header x).DistinctVoters) (hbody : c.body y = c.body x) (hfits : c.Fits x) :
    c.Fits y := by
  intro ord
  rw [encode, hc.congr y x ord ord (hsame.toItem_eq hd ord ord) hbody,
    hsame.signBytes_eq hd ord ord]
  exact hfits ord

theorem Lawful.roundTrips (hc : c.Lawful) (keccak : Bytes → Hash) (ords : List MapOrder) :
    ∀ x, (c.header x).Read → c.Fits x → (c.header x).DistinctVoters →
      ∃ y, c.roundTrips ords x = some y ∧ c.body y = c.body x ∧
        ∀ ord ord', (c.header y).calculateHash keccak ord =
            (c.header x).calculateHash keccak ord' ∧
          (c.header y).signBytes ord = (c.header x).signBytes ord' := by
  induction ords with
  | nil =>
    intro x _ _ hd
    exact ⟨x, rfl, rfl, (BlockHeader.Same.refl _).identity_eq hd keccak⟩
  | cons o ords ih =>
    intro x hr hfits hd
    obtain ⟨y, hy, hsame, hbody, hry⟩ := hc.decode_encode hr hfits o
    obtain ⟨z, hz, hzbody, hzeq⟩ := ih y hry (hc.fits hsame hd hbody hfits)
      (hsame.distinctVoters hd)
    refine ⟨z, ?_, hzbody.trans hbody, ?_⟩
    · rw [BlockCodec.roundTrips, hy]
      exact hz
    · intro ord ord'
      obtain ⟨hhash, hsign⟩ := hzeq ord ord'
      obtain ⟨hhash', hsign'⟩ := hsame.identity_eq hd keccak ord' ord'
      exact ⟨hhash.trans hhash', hsign.trans hsign'⟩

theorem Lawful.stable_iff (hc : c.Lawful) (keccak : Bytes → Hash) {bytes : Bytes}
    (hx : c.decode bytes = some x) (hfits : c.Fits x) :
    c.Stable keccak x ↔ (c.header x).DistinctVoters := by
  obtain ⟨i, -, hi⟩ := bind_eq_some_iff.1 hx
  have hr := hc.read i x hi
  constructor
  · intro hstable
    by_contra hd
    exact BlockHeader.signBytes_ne_of_duplicate hd (fun ord => (hfits ord).2)
      (hstable.1 .id .reverse).2
  · intro hd
    exact ⟨(BlockHeader.Same.refl _).identity_eq hd keccak,
      fun ords => hc.roundTrips keccak ords x hr hfits hd⟩

end BlockCodec

/-- A block that was read from the wire, or an extended block that was read from the store,
keeps its identity in any iteration order and over any number of round trips exactly if no
voter has two votes in its certificate. -/
theorem stable_iff_distinctVoters (keccak : Bytes → Hash) :
    (∀ bytes x, wireCodec.decode bytes = some x → wireCodec.Fits x →
      (wireCodec.Stable keccak x ↔ x.header.DistinctVoters)) ∧
    ∀ bytes x, storeCodec.decode bytes = some x → storeCodec.Fits x →
      (storeCodec.Stable keccak x ↔ x.block.header.DistinctVoters) :=
  ⟨fun _ _ hx hfits => BlockCodec.lawful_wireCodec.stable_iff keccak hx hfits,
    fun _ _ hx hfits => BlockCodec.lawful_storeCodec.stable_iff keccak hx hfits⟩

def codecVote (id : Address) (epoch : UInt64) : Vote where
  block := 7
  height := 1
  mainchainHeight := 0
  epoch := epoch
  id := id
  signature := some ⟨[1]⟩

def codecBlock (votes : List Vote) : Block where
  header := {
    chainID := [116]
    epoch := 3
    height := 2
    parent := 7
    hcc := ⟨some (VoteSet.empty.addVotes votes), 7⟩
    txHash := 9
    receiptHash := 0
    bloom := 0
    stateHash := 8
    timestamp := some 100
    proposer := 1
    signature := some ⟨[1]⟩ }
  txs := [[5]]

def codecKeccak (bytes : Bytes) : Hash := BitVec.ofNat 256 (Rlp.toNat bytes % (2 ^ 255 - 19))

theorem stable_iff_distinctVoters_two_voters :
    let x := codecBlock [codecVote 1 2, codecVote 2 2]
    let bytes := wireCodec.encode .id x
    wireCodec.decode bytes = some x ∧ wireCodec.Fits x ∧ x.header.DistinctVoters ∧
      wireCodec.Stable codecKeccak x := by
  intro x bytes
  have hitem := BlockHeader.toItem_of_bloom (h := x.header) rfl .id
  have hbytes : bytes = Rlp.encode (.list [x.header.toItem .id, .list [.str [5]]]) := rfl
  have hid : bytes.length < 2 ^ 64 ∧ (x.header.signBytes .id).length < 2 ^ 64 := by
    rw [hbytes, hitem, BlockHeader.signBytes, BlockHeader.encode, BlockHeader.toItem_of_bloom rfl]
    decide +kernel
  have hx : wireCodec.decode bytes = some x := by
    rw [hbytes] at hid
    rw [BlockCodec.decode, hbytes, Rlp.decode_encode hid.1, hitem]
    decide +kernel
  have hd : x.header.DistinctVoters := by
    intro s hs
    cases hs
    decide
  have hfits : wireCodec.Fits x := by
    intro ord
    have hitem := (BlockHeader.Same.refl x.header).toItem_eq hd .id ord
    rw [BlockCodec.encode, BlockCodec.lawful_wireCodec.congr x x ord .id hitem rfl,
      show wireCodec.header x = x.header from rfl,
      (BlockHeader.Same.refl x.header).signBytes_eq hd .id ord]
    exact hid
  exact ⟨hx, hfits, hd, ((stable_iff_distinctVoters codecKeccak).1 bytes x hx hfits).2 hd⟩

/-- One voter voted for the block in two epochs.  What is signed and the hash depend on the
iteration order, and a node that wrote the block in another order reads it back under another
hash. -/
theorem hash_depends_on_map_order :
    let x := codecBlock [codecVote 1 2, codecVote 1 3]
    let y := codecBlock [codecVote 1 3, codecVote 1 2]
    wireCodec.decode (wireCodec.encode .id x) = some x ∧
      x.header.signBytes .id ≠ x.header.signBytes .reverse ∧
      x.header.calculateHash codecKeccak .id ≠ x.header.calculateHash codecKeccak .reverse ∧
      wireCodec.decode (wireCodec.encode .reverse x) = some y ∧
      y.header.calculateHash codecKeccak .id ≠ x.header.calculateHash codecKeccak .id := by
  intro x y
  have hitem := BlockHeader.toItem_of_bloom (h := x.header) rfl
  have hbytes : ∀ ord, wireCodec.encode ord x =
      Rlp.encode (.list [x.header.toItem ord, .list [.str [5]]]) := fun _ => rfl
  have hsize : (wireCodec.encode .id x).length < 2 ^ 64 ∧
      (wireCodec.encode .reverse x).length < 2 ^ 64 := by
    rw [hbytes, hbytes, hitem, hitem]
    decide +kernel
  rw [hbytes, hbytes] at hsize
  refine ⟨?_, ?_, ?_, ?_, ?_⟩
  · rw [BlockCodec.decode, hbytes, Rlp.decode_encode hsize.1, hitem]
    decide +kernel
  · rw [BlockHeader.signBytes, BlockHeader.signBytes, BlockHeader.encode, BlockHeader.encode,
      BlockHeader.toItem_of_bloom rfl, BlockHeader.toItem_of_bloom rfl]
    decide +kernel
  · rw [BlockHeader.calculateHash, BlockHeader.calculateHash, BlockHeader.encode,
      BlockHeader.encode, hitem, hitem]
    decide +kernel
  · rw [BlockCodec.decode, hbytes, Rlp.decode_encode hsize.2, hitem]
    decide +kernel
  · rw [BlockHeader.calculateHash, BlockHeader.calculateHash, BlockHeader.encode,
      BlockHeader.encode, hitem, BlockHeader.toItem_of_bloom (h := y.header) rfl]
    decide +kernel

end ThetaSubchain
