/-
What the acceptance of a snapshot proves about its tail blocks.

The checks derive validator sets from the genesis hash, trio by trio.  At the tail trio the result
of `validateVotes` is dropped and no link is checked, version 4 does not start at the genesis block
at all, a voter counts once for each epoch, and a state of version 3 is read from records that
nobody has hashed.
-/
import ThetaSubchain.Snapshot.Import

namespace ThetaSubchain

open Ending

namespace Snapshot

open ValidatorSelection (filterValidators)

section Soundness

variable (cfg : SnapshotConfig)
  -- the value that a state root commits to under a key
  (committed : Hash → Bytes → Option Bytes)

def Certified (vs : ValidatorSet) (block : Hash) (votes : VoteSet) : Prop :=
  Quorum.IsQuorum vs.members vs.stakeOf vs.totalStake
    {a | ∃ v ∈ votes, v.id = a ∧ v.block = block ∧ (v.validate cfg.verify).isOK = true}

structure Linked (t : SnapshotBlockTrio) : Prop where
  secondParent : t.second.header.parent = cfg.hash t.first.header
  thirdParent : t.third.header.parent = cfg.hash t.second.header
  secondHCC : t.second.header.hcc.blockHash = cfg.hash t.first.header
  thirdHCC : t.third.header.hcc.blockHash = cfg.hash t.second.header

/-- `trie.VerifyProof` returns only values that the root commits to. -/
def ProofsSound : Prop :=
  ∀ root key proof value, cfg.verifyProof root key proof = some value →
    committed root key = some value

def committedSet (root : Hash) : Option ValidatorSet :=
  ((committed root currentValidatorSetKey).bind decodeValidatorSet).map filterValidators

inductive Derived : ValidatorSet → Prop
  | genesis {block : BlockHeader} {vs : ValidatorSet} (hheight : block.height = genesisBlockHeight)
      (hhash : cfg.hash block = cfg.genesisHash)
      (hset : committedSet committed block.stateHash = some vs) : Derived vs
  | step {t : SnapshotBlockTrio} {votes : VoteSet} {vs vs' : ValidatorSet} (hvs : Derived vs)
      (hlinked : Linked cfg t) (hvotes : t.third.header.hcc.votes = some votes)
      (hcert : Certified cfg vs (cfg.hash t.second.header) votes)
      (hset : committedSet committed t.first.header.stateHash = some vs') : Derived vs'

/-- The tail blocks are linked, and the last of them, which certifies the snapshot block by
its links, is certified by a derived set. -/
def TailCertified (t : SnapshotBlockTrio) : Prop :=
  Linked cfg t ∧ ∃ vs, Derived cfg committed vs ∧
    Certified cfg vs (cfg.hash t.third.header) t.third.voteSet

def DistinctVoters (votes : VoteSet) : Prop := (votes.entries.map Vote.id).Nodup

structure Anchored (version : Nat) (sv : StateView) (metadata : SnapshotMetadata)
    (db : Database) : Prop where
  version : version < 4
  /-- The first trio is about the configured chain. -/
  chain : ∀ g ∈ metadata.proofTrios.head?, g.second.header.chainID ≠ mainnetChainID
  genesisState : ∀ g ∈ metadata.proofTrios.head?, ∀ gsv,
    newStoreView cfg db g.second.header.height g.second.header.stateHash = some gsv →
      gsv.get currentValidatorSetKey = committed g.second.header.stateHash currentValidatorSetKey
  proofVoters : ∀ t ∈ metadata.proofTrios.tail, ∀ votes, t.third.header.hcc.votes = some votes →
    DistinctVoters votes
  tailVoters : DistinctVoters metadata.tailTrio.third.voteSet
  linked : Linked cfg metadata.tailTrio
  /-- The validation whose result is dropped. -/
  votes : ∀ vs, getValidatorSetFromSV sv = .ok vs →
    validateVotes cfg vs metadata.tailTrio.third.header metadata.tailTrio.third.voteSet = .ok ()

variable {cfg committed}

variable {vs : ValidatorSet} {block : BlockHeader}

theorem validateVote_eq_ok {vote : Vote} (h : validateVote cfg vs block vote = .ok ()) :
    (vote.validate cfg.verify).isOK = true ∧ vote.block = cfg.hash block := by
  unfold validateVote at h
  by_cases hok : (vote.validate cfg.verify).isOK = true
  · by_cases hblock : vote.block = cfg.hash block
    · exact ⟨hok, hblock⟩
    · simp [hok, hblock] at h
  · simp [hok] at h

theorem certified_of_validateVotes {votes : VoteSet} (hdistinct : DistinctVoters votes)
    (h : validateVotes cfg vs block votes = .ok ()) : Certified cfg vs (cfg.hash block) votes := by
  unfold validateVotes at h
  by_cases hmaj : vs.hasMajority cfg.ord votes = true
  · rw [if_neg (by simp [hmaj])] at h
    have hall := forM_eq_ok.1 h
    have hperm := VoteSet.votes_perm cfg.ord votes
    have hquorum := (ValidatorSet.isQuorum_of_hasMajorityVotes
      ((hperm.map Vote.id).nodup_iff.2 hdistinct)).1 hmaj
    -- every voter that is counted has a valid vote for the block
    have hset : {a | ∃ v ∈ votes.votes cfg.ord, v.id = a} = {a | ∃ v ∈ votes, v.id = a ∧
        v.block = cfg.hash block ∧ (v.validate cfg.verify).isOK = true} := by
      ext a
      constructor
      · rintro ⟨v, hv, ha⟩
        obtain ⟨hok, hblock⟩ := validateVote_eq_ok (hall v hv)
        exact ⟨v, VoteSet.mem_votes.1 hv, ha, hblock, hok⟩
      · rintro ⟨v, hv, ha, -⟩
        exact ⟨v, VoteSet.mem_votes.2 hv, ha⟩
    rw [Certified, ← hset]
    exact hquorum
  · simp [hmaj] at h

variable {sv : StateView}

theorem getDecoded_eq_ok {α : Type} {decode : Bytes → Option α} {message : String} {key : Bytes}
    {x : α} (h : sv.getDecoded decode message key = .ok (some x)) :
    (sv.get key).bind decode = some x := by
  unfold StateView.getDecoded at h
  cases hdata : sv.get key with
  | none => simp [hdata] at h
  | some data =>
    cases data with
    | nil => simp [hdata] at h
    | cons b data =>
      cases hdecode : decode (b :: data) with
      | none => simp [hdata, hdecode] at h
      | some y => simpa [hdata, hdecode] using h

theorem getValidatorSetFromSV_eq_ok (h : getValidatorSetFromSV sv = .ok vs) :
    ((sv.get currentValidatorSetKey).bind decodeValidatorSet).map filterValidators = some vs := by
  obtain ⟨found, hfound, hrest⟩ := bind_eq_ok.1 h
  obtain ⟨set, hset, hvs⟩ := bind_eq_ok.1 hrest
  rw [deref_eq_ok] at hset
  rw [getDecoded_eq_ok (hset ▸ hfound), Option.map_some]
  cases hvs
  rfl

variable {db : Database}

theorem checkGenesisBlock_eq_ok (h : checkGenesisBlock cfg block db = .ok vs)
    (hchain : block.chainID ≠ mainnetChainID) :
    block.height = genesisBlockHeight ∧ cfg.hash block = cfg.genesisHash ∧
      ∃ gsv, newStoreView cfg db block.height block.stateHash = some gsv ∧
        getValidatorSetFromSV gsv = .ok vs := by
  unfold checkGenesisBlock at h
  rw [if_neg hchain] at h
  by_cases hheight : block.height = genesisBlockHeight
  · by_cases hhash : cfg.hash block = cfg.genesisHash
    · rw [if_neg (not_not.2 hheight), if_neg (not_not.2 hhash)] at h
      obtain ⟨gsv, hgsv, hset⟩ := bind_eq_ok.1 h
      exact ⟨hheight, hhash, gsv, deref_eq_ok.1 hgsv, hset⟩
    · simp [hheight, hhash] at h
  · simp [hheight] at h

theorem getValidatorSetFromVSProof_eq_ok {root : Hash} {proof : ValidatorSetProof}
    (hproof : ProofsSound cfg committed) (h : getValidatorSetFromVSProof cfg root proof = .ok vs) :
    committedSet committed root = some vs := by
  unfold getValidatorSetFromVSProof at h
  cases hvalue : cfg.verifyProof root currentValidatorSetKey proof with
  | none => simp [hvalue] at h
  | some value =>
    cases hdecode : decodeValidatorSet value with
    | none => simp [hvalue, hdecode] at h
    | some set =>
      simp only [hvalue, hdecode, Except.ok.injEq] at h
      rw [committedSet, hproof _ _ _ _ hvalue, Option.bind_some, hdecode, Option.map_some, h]

theorem checkProofTrio_eq_ok {vs vs' : ValidatorSet} {t : SnapshotBlockTrio}
    (h : checkProofTrio cfg vs t = .ok vs') :
    Linked cfg t ∧ ∃ votes, t.third.header.hcc.votes = some votes ∧
      validateVotes cfg vs t.second.header votes = .ok () ∧
      getValidatorSetFromVSProof cfg t.first.header.stateHash t.first.proof = .ok vs' := by
  unfold checkProofTrio at h
  by_cases hparent : parentLinked cfg t = true
  · by_cases hhcc : hccLinked cfg t = true
    · rw [if_neg (by simp [hparent]), if_neg (by simp [hhcc])] at h
      simp only [parentLinked, hccLinked, Bool.and_eq_true, beq_iff_eq] at hparent hhcc
      obtain ⟨votes, hvotes, hrest⟩ := bind_eq_ok.1 h
      obtain ⟨_, hvalid, hset⟩ := bind_eq_ok.1 hrest
      exact ⟨⟨hparent.1, hparent.2, hhcc.1, hhcc.2⟩, votes, deref_eq_ok.1 hvotes,
        mapError_eq_ok.1 hvalid, mapError_eq_ok.1 hset⟩
    · simp [hparent, hhcc] at h
  · simp [hparent] at h

theorem derived_of_checkProofTrios {trios : List SnapshotBlockTrio}
    (hproof : ProofsSound cfg committed)
    (hchain : ∀ g ∈ trios.head?, g.second.header.chainID ≠ mainnetChainID)
    (hstate : ∀ g ∈ trios.head?, ∀ gsv, newStoreView cfg db g.second.header.height
      g.second.header.stateHash = some gsv → gsv.get currentValidatorSetKey = committed
      g.second.header.stateHash currentValidatorSetKey)
    (hvoters : ∀ t ∈ trios.tail, ∀ votes, t.third.header.hcc.votes = some votes → DistinctVoters
      votes) (h : checkProofTrios cfg db trios = .ok (some vs)) : Derived cfg committed vs := by
  cases trios with
  | nil => cases h
  | cons g trios =>
    obtain ⟨genesisValSet, hgenesis, hrest⟩ := bind_eq_ok.1 h
    obtain ⟨vs', hfold, hvs⟩ := map_eq_ok.1 hrest
    cases hvs
    obtain ⟨hheight, hhash, gsv, hview, hset⟩ :=
      checkGenesisBlock_eq_ok (mapError_eq_ok.1 hgenesis) (hchain g rfl)
    refine foldlM_ok hfold ?_ ?_
    · refine .genesis hheight hhash ?_
      rw [committedSet, ← hstate g rfl gsv hview]
      exact getValidatorSetFromSV_eq_ok hset
    · intro t ht vs vs' hvs hstep
      obtain ⟨hlinked, votes, hvotes, hvalid, hnext⟩ := checkProofTrio_eq_ok hstep
      exact .step hvs hlinked hvotes
        (certified_of_validateVotes (hvoters t ht votes hvotes) hvalid)
        (getValidatorSetFromVSProof_eq_ok hproof hnext)

theorem checkTailTrio_eq_ok {proven : Option ValidatorSet} {t : SnapshotBlockTrio}
    (hheight : t.second.header.height ≠ genesisBlockHeight) :
    checkTailTrio cfg sv db proven t = .ok () ↔
      ∃ vs, proven = some vs ∧ getValidatorSetFromSV sv = .ok vs := by
  unfold checkTailTrio
  rw [if_neg hheight]
  constructor
  · intro h
    obtain ⟨vs, hvs, hrest⟩ := bind_eq_ok.1 h
    obtain ⟨retrieved, hretrieved, heq⟩ := bind_eq_ok.1 hrest
    refine ⟨vs, deref_eq_ok.1 hvs, ?_⟩
    by_cases hsame : vs.equals retrieved = true
    · rw [ValidatorSet.eq_of_equals hsame]
      exact hretrieved
    · simp [hsame] at heq
  · rintro ⟨vs, rfl, hsv⟩
    have hself : vs.equals vs = true := by simp [ValidatorSet.equals]
    refine bind_eq_ok.2 ⟨vs, rfl, bind_eq_ok.2 ⟨vs, hsv, ?_⟩⟩
    simp [hself, pure, Except.pure]

theorem checkSnapshot_eq_ok {metadata : SnapshotMetadata}
    (hheight : metadata.tailTrio.second.header.height ≠ genesisBlockHeight) :
    checkSnapshot cfg sv metadata db = .ok () ↔
      sv.root = metadata.tailTrio.second.header.stateHash ∧
        ∃ vs, checkProofTrios cfg db metadata.proofTrios = .ok (some vs) ∧
          getValidatorSetFromSV sv = .ok vs := by
  unfold checkSnapshot
  by_cases hroot : sv.root = metadata.tailTrio.second.header.stateHash
  · simp only [hroot, ne_eq, not_true_eq_false, if_false, hheight, not_false_eq_true, if_true,
      true_and]
    rw [bind_eq_ok]
    constructor
    · rintro ⟨proven, hproven, h⟩
      obtain ⟨vs, rfl, hsv⟩ := (checkTailTrio_eq_ok hheight).1 h
      exact ⟨vs, hproven, hsv⟩
    · rintro ⟨vs, hproven, hsv⟩
      exact ⟨some vs, hproven, (checkTailTrio_eq_ok hheight).2 ⟨vs, rfl, hsv⟩⟩
  · simp [hroot]

/-- A snapshot that is accepted where nothing is left open has certified tail blocks. -/
theorem tailCertified_of_accepted (hproof : ProofsSound cfg committed)
    {version : Nat} {sv : StateView} {metadata : SnapshotMetadata} {db : Database}
    (haccepted : checkVersion cfg version sv metadata db = .ok ())
    (hheight : metadata.tailTrio.second.header.height ≠ genesisBlockHeight)
    (hanchored : Anchored cfg committed version sv metadata db) :
    TailCertified cfg committed metadata.tailTrio := by
  rw [checkVersion, if_neg (Nat.not_le.2 hanchored.version),
    checkSnapshot_eq_ok hheight] at haccepted
  obtain ⟨-, vs, hproven, hsv⟩ := haccepted
  have hderived := derived_of_checkProofTrios hproof hanchored.chain hanchored.genesisState
    hanchored.proofVoters hproven
  have hcert := certified_of_validateVotes hanchored.tailVoters (hanchored.votes vs hsv)
  exact ⟨hanchored.linked, vs, hderived, hcert⟩

end Soundness

/-! ## A chain with one validator

The state trie is a single node that lists its keys and values. -/

def plainNode (pairs : List (Bytes × Bytes)) : Bytes :=
  Rlp.encode (.list (pairs.map fun p => .list [.str p.1, .str p.2]))

def plainValue (path : List UInt8) : Rlp.Item → Option Bytes
  | .list [.str k, .str v] => if keybytesToHex k = path then some v else none
  | _ => none

def plainFollow (node : Bytes) (path : List UInt8) : NodeStore.Step Hash UInt8 Bytes :=
  match Rlp.decode node with
  | some (.list items) =>
    match items.findSome? (plainValue path) with
    | some v => .found v
    | none => .absent
  | _ => .absent

theorem plainFollow_ne_goto {node : Bytes} {path rest : List UInt8} {child : Hash} :
    plainFollow node path ≠ .goto child rest := by
  unfold plainFollow
  split
  · split <;> simp
  · simp

def plainTrie : NodeStore.Format Hash Bytes UInt8 Bytes where
  hash := codecKeccak
  refs _ := []
  follow := plainFollow
  follow_refs h := absurd h plainFollow_ne_goto
  follow_shorter h := absurd h plainFollow_ne_goto

def plainSet : ValidatorSet := ⟨0, [⟨7, 10⟩]⟩

def plainState (vs : ValidatorSet) (rest : List (Bytes × Bytes)) : Bytes :=
  plainNode ([(currentValidatorSetKey, Rlp.encode vs.toItem),
    (validatorSetUpdateTxHeightListKey, Rlp.encode (.list [.list [.uint 0]]))] ++ rest)

def plainRoot : Hash := codecKeccak (plainState plainSet [])

def plainDB : Database := Database.empty.put plainRoot.bytes (plainState plainSet [])

def plainCommitted (root : Hash) (key : Bytes) : Option Bytes :=
  if root = plainRoot then plainTrie.read plainDB.nodes root (keybytesToHex key) else none

def plainConfig : SnapshotConfig where
  hash h := BitVec.ofNat 256 (h.height.toNat + 1)
  verify _ _ _ := true
  ord := .id
  genesisHash := 1
  trie := plainTrie
  emptyRoot := 0
  verifyProof root key _ := plainCommitted root key
  trieRoot _ := 0
  trieNodes _ := []
  accountRoot _ := none
  encodeBlock eb := Rlp.fixedBytes 8 eb.header.height.toNat
  decodeBlock _ := none
  encodeTrio _ := []
  decodeTrio _ := none
  checkpointInterval := 100

def plainVote (block : Hash) : Vote := ⟨block, 0, 0, 0, 7, some ⟨[1]⟩⟩

variable (height : UInt64)

def plainHeader (parent : Hash) (votes : Option VoteSet) : BlockHeader where
  chainID := [1]
  epoch := height
  height := height
  parent := parent
  hcc := ⟨votes, parent⟩
  txHash := 0
  receiptHash := 0
  bloom := 0
  stateHash := plainRoot
  timestamp := some 0
  proposer := 7
  signature := none

def plainTrio (parent : Hash) (votes : VoteSet) : SnapshotBlockTrio where
  first := ⟨plainHeader height 0 none, []⟩
  second := ⟨plainHeader (height + 1) parent none⟩
  third :=
    let second := plainConfig.hash (plainHeader (height + 1) parent none)
    ⟨plainHeader (height + 2) second (some (VoteSet.empty.addVote (plainVote second))), votes⟩

def plainGenesis : SnapshotBlockTrio where
  first := ⟨plainHeader 0 0 none, []⟩
  second := ⟨plainHeader 0 0 none⟩
  third := ⟨plainHeader 0 0 none, .empty⟩

def plainView : StateView :=
  ⟨height, plainRoot, fun k => plainTrie.read plainDB.nodes plainRoot (keybytesToHex k)⟩

def plainMetadata : SnapshotMetadata where
  proofTrios := [plainGenesis, plainTrio 1 2 .empty]
  tailTrio := plainTrio 4 5 (VoteSet.empty.addVote (plainVote 7))

theorem getValidatorSetFromSV_plainView :
    getValidatorSetFromSV (plainView height) = .ok plainSet := by
  show getValidatorSetFromSV (plainView 0) = .ok plainSet
  decide +kernel

theorem plainMetadata_anchored :
    Anchored plainConfig plainCommitted 3 (plainView 5) plainMetadata plainDB where
  version := by decide
  chain := by decide +kernel
  genesisState := by
    rintro _ ⟨rfl⟩ gsv hview
    have hopen : newStoreView plainConfig plainDB plainGenesis.second.header.height
        plainGenesis.second.header.stateHash = some (plainView 0) := by
      have hne : (plainRoot.isEmpty || plainRoot == plainConfig.emptyRoot) = false := by
        decide +kernel
      have hnode : plainDB.nodes plainRoot = some (plainState plainSet []) :=
        Function.update_self _ _ _
      show newStoreView plainConfig plainDB 0 plainRoot = _
      rw [newStoreView, hne, hnode]
      rfl
    rw [hopen] at hview
    cases hview
    exact (if_pos rfl).symm
  proofVoters := by
    rintro t ht votes hvotes
    rw [List.mem_singleton.1 ht] at hvotes
    cases hvotes
    show List.Nodup _
    decide
  tailVoters := by
    show List.Nodup _
    decide
  linked := ⟨by decide, by decide, by decide, by decide⟩
  votes := by
    intro vs hvs
    rw [getValidatorSetFromSV_plainView] at hvs
    cases hvs
    decide

theorem tailCertified_of_accepted_plain :
    checkVersion plainConfig 3 (plainView 5) plainMetadata plainDB = .ok () ∧
      TailCertified plainConfig plainCommitted plainMetadata.tailTrio := by
  have haccepted : checkVersion plainConfig 3 (plainView 5) plainMetadata plainDB = .ok () := by
    decide +kernel
  refine ⟨haccepted, tailCertified_of_accepted ?_ haccepted (by decide) plainMetadata_anchored⟩
  intro root key proof value h
  exact h

def loneMetadata : SnapshotMetadata where
  proofTrios := [plainGenesis]
  tailTrio := plainTrio 4 0 .empty

/-- The tail trio is accepted by every check with neither a link nor a vote. -/
theorem unlinked_tail_accepted :
    (∀ version ∈ [1, 2, 3, 4],
      checkVersion plainConfig version (plainView 5) loneMetadata plainDB = .ok ()) ∧
    loneMetadata.tailTrio.second.header.height ≠ genesisBlockHeight ∧
    loneMetadata.tailTrio.third.voteSet = .empty ∧
    ¬ TailCertified plainConfig plainCommitted loneMetadata.tailTrio := by
  refine ⟨by decide +kernel, by decide, by decide, fun h => ?_⟩
  have hparent := h.1.secondParent
  revert hparent
  decide

end Snapshot

end ThetaSubchain
