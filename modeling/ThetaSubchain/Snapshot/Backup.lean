/-
The backup of a part of the chain (snapshot/chain_export.go).

The name of the file, which has the two heights and the date, is left out.
-/
import ThetaSubchain.Blockchain.Links

namespace ThetaSubchain.Snapshot

open Chain List

def finalizedAt (d : Store) (height : UInt64) : Option ExtendedBlock :=
  (findBlocksByHeight d height).find? fun b => b.status.isFinalized

/-- The search for a finalized block downwards.  The counter is unsigned and goes on at the top
after the height 0. -/
def findFinalized (d : Store) (startHeight : UInt64) : ℕ → UInt64 → Option (Option ExtendedBlock)
  | 0, _ => none
  | n + 1, i =>
    if i < startHeight then some none
    else match finalizedAt d i with
      | some b => some (some b)
      | none => findFinalized d startHeight n (i - 1)

/-- The blocks that are written, from a block down its parents, and the height that is reported
as the start. -/
def writeBlocks (d : Store) (startHeight : UInt64) :
    ℕ → ExtendedBlock → Option (UInt64 × List ExtendedBlock)
  | 0, _ => none
  | n + 1, b =>
    if b.header.height ≤ startHeight then some (startHeight, [b])
    else match findBlock d b.header.parent with
      | none => some (b.header.height, [b])
      | some parent =>
        (writeBlocks d startHeight n parent).map fun (height, blocks) => (height, b :: blocks)

/-- `ExportChainBackup`: the two heights and the records, or nothing if it is still running after
the fuel.  `created` is whether the file can be created. -/
def exportChainBackup (cfg : ChainConfig) (d : Store) (startHeight endHeight : UInt64)
    (created : Bool) (n : ℕ) :
    Option (Except String (UInt64 × UInt64 × List (ExtendedBlock × VoteSet))) :=
  if endHeight < startHeight then some (.error "start height must be <= end height")
  else do
    match ← findFinalized d startHeight n endHeight with
    | none => some (.error "There's no finalized block between height %v and %v")
    | some b =>
      if !created then some (.error "open")
      else do
        let (height, blocks) ← writeBlocks d startHeight n b
        some (.ok (height, b.header.height,
          blocks.map fun b => (b, findVotesByHash d (cfg.hash b.header))))

/-- Every block of the index has its height, and a stored parent is one height below. -/
structure Levelled (d : Store) : Prop where
  index : ∀ height, ∀ b ∈ findBlocksByHeight d height, b.header.height = height
  parent : ∀ h b p, findBlock d h = some b → findBlock d b.header.parent = some p →
    p.header.height.toNat + 1 = b.header.height.toNat

variable {cfg : ChainConfig} {d : Store} {startHeight : UInt64}

def Highest (d : Store) (startHeight i : UInt64) : Option ExtendedBlock → Prop
  | none => ∀ j, startHeight ≤ j → j ≤ i → finalizedAt d j = none
  | some b => ∃ j, startHeight ≤ j ∧ j ≤ i ∧ finalizedAt d j = some b ∧
      ∀ k, j < k → k ≤ i → finalizedAt d k = none

theorem le_pred_iff {i j : UInt64} (hpos : i ≠ 0) : j ≤ i - 1 ↔ j < i := by
  have hnat : 0 < i.toNat := UInt64.lt_iff_toNat_lt.1 (UInt64.pos_iff_ne_zero.2 hpos)
  have hpred : (i - 1).toNat = i.toNat - 1 :=
    UInt64.toNat_sub_of_le _ _ (UInt64.le_iff_toNat_le.2 hnat)
  rw [UInt64.le_iff_toNat_le, UInt64.lt_iff_toNat_lt, hpred]
  omega

theorem Highest.of_pred {i : UInt64} (hpos : i ≠ 0) (hat : finalizedAt d i = none)
    {found : Option ExtendedBlock} (h : Highest d startHeight (i - 1) found) :
    Highest d startHeight i found := by
  have hcases : ∀ j ≤ i, j = i ∨ j ≤ i - 1 := fun j hj =>
    (UInt64.lt_or_eq_of_le hj).symm.imp_right (le_pred_iff hpos).2
  cases found with
  | none =>
    intro j hj hji
    obtain rfl | hji := hcases j hji
    · exact hat
    · exact h j hj hji
  | some b =>
    obtain ⟨j, hj, hji, hb, hall⟩ := h
    refine ⟨j, hj, UInt64.le_of_lt ((le_pred_iff hpos).1 hji), hb, fun k hjk hki => ?_⟩
    obtain rfl | hki := hcases k hki
    · exact hat
    · exact hall k hjk hki

theorem findFinalized_spec {n : ℕ} {i : UInt64} (hn : i.toNat + 1 < n)
    (h : startHeight ≠ 0 ∨ ∃ j ≤ i, (finalizedAt d j).isSome) :
    ∃ found, findFinalized d startHeight n i = some found ∧ Highest d startHeight i found := by
  induction n generalizing i with
  | zero => exact absurd hn (Nat.not_lt_zero _)
  | succ n ih =>
    rw [findFinalized]
    by_cases hlow : i < startHeight
    · rw [if_pos hlow]
      exact ⟨none, rfl, fun j hj hji =>
        absurd (UInt64.lt_of_le_of_lt hji hlow) (UInt64.not_lt.2 hj)⟩
    rw [if_neg hlow]
    cases hat : finalizedAt d i with
    | some b =>
      exact ⟨some b, rfl, i, UInt64.not_lt.1 hlow, UInt64.le_refl i, hat,
        fun k hik hki => absurd hik (UInt64.not_lt.2 hki)⟩
    | none =>
      have hlast : ∀ j ≤ i, (finalizedAt d j).isSome → j < i := by
        intro j hj hsome
        refine UInt64.lt_of_le_of_ne hj fun heq => ?_
        rw [heq, hat] at hsome
        cases hsome
      -- the search is not at the height 0, where the counter would go on at the top
      have hpos : i ≠ 0 := by
        rintro rfl
        rcases h with hne | ⟨j, hj, hsome⟩
        · exact hlow (UInt64.pos_iff_ne_zero.2 hne)
        · exact UInt64.not_lt_zero (hlast j hj hsome)
      have hfuel := (le_pred_iff hpos).1 (UInt64.le_refl _)
      rw [UInt64.lt_iff_toNat_lt] at hfuel
      obtain ⟨found, hfound, hhigh⟩ := ih (i := i - 1) (by omega) (h.imp_right
        fun ⟨j, hj, hsome⟩ => ⟨j, (le_pred_iff hpos).2 (hlast j hj hsome), hsome⟩)
      exact ⟨found, hfound, hhigh.of_pred hpos hat⟩

theorem findFinalized_zero_ne (n : ℕ) (i : UInt64) : findFinalized d 0 n i ≠ some none := by
  induction n generalizing i with
  | zero => nofun
  | succ n ih =>
    rw [findFinalized, if_neg UInt64.not_lt_zero]
    split
    · nofun
    · exact ih _

theorem exportChainBackup_zero_ne (endHeight : UInt64) (n : ℕ) (e : String) :
    exportChainBackup cfg d 0 endHeight true n ≠ some (.error e) := by
  intro h
  rw [exportChainBackup, if_neg UInt64.not_lt_zero] at h
  obtain ⟨found, hfound, h⟩ := Option.bind_eq_some_iff.1 h
  cases found with
  | none => exact findFinalized_zero_ne n _ hfound
  | some b =>
    obtain ⟨out, -, h⟩ := Option.bind_eq_some_iff.1 h
    cases h

structure Descends (d : Store) (b : ExtendedBlock) (height : UInt64) (blocks : List ExtendedBlock) :
    Prop where
  head : blocks.head? = some b
  parents : blocks.IsChain fun c p => findBlock d c.header.parent = some p ∧
    p.header.height.toNat + 1 = c.header.height.toNat
  last : ∃ c, blocks.getLast? = some c ∧ c.header.height = height

theorem writeBlocks_spec (hd : Levelled d) {n : ℕ} {b : ExtendedBlock} {h : Hash}
    (hb : findBlock d h = some b) (hle : startHeight ≤ b.header.height)
    (hn : b.header.height.toNat < n) :
    ∃ height blocks, writeBlocks d startHeight n b = some (height, blocks) ∧
      Descends d b height blocks := by
  induction n generalizing b h with
  | zero => exact absurd hn (Nat.not_lt_zero _)
  | succ n ih =>
    rw [writeBlocks]
    by_cases hlow : b.header.height ≤ startHeight
    · rw [if_pos hlow]
      exact ⟨_, _, rfl, rfl, .singleton b, b, rfl, UInt64.le_antisymm hlow hle⟩
    rw [if_neg hlow]
    cases hparent : findBlock d b.header.parent with
    | none => exact ⟨_, _, rfl, rfl, .singleton b, b, rfl, rfl⟩
    | some p =>
      have hlevel := hd.parent h b p hb hparent
      rw [UInt64.le_iff_toNat_le] at hlow
      obtain ⟨height, blocks, hwrite, hhead, hchain, hlast⟩ :=
        ih hparent (UInt64.le_iff_toNat_le.2 (by omega)) (by omega)
      refine ⟨height, b :: blocks, congrArg (Option.map _) hwrite, rfl, ?_, ?_⟩
      · cases blocks with
        | nil => cases hhead
        | cons c blocks =>
          cases hhead
          exact .cons_cons ⟨hparent, hlevel⟩ hchain
      · obtain ⟨c, hc, hheight⟩ := hlast
        exact ⟨c, by rw [getLast?_cons, hc]; rfl, hheight⟩

def BackedUp (cfg : ChainConfig) (d : Store) (startHeight endHeight : UInt64) (created : Bool) :
    Except String (UInt64 × UInt64 × List (ExtendedBlock × VoteSet)) → Prop
  | .error _ => endHeight < startHeight ∨ created = false ∨ Highest d startHeight endHeight none
  | .ok (height, last, records) => startHeight ≤ endHeight ∧ created = true ∧
      ∃ b blocks, Highest d startHeight endHeight (some b) ∧ last = b.header.height ∧
        Descends d b height blocks ∧
        records = blocks.map fun b => (b, findVotesByHash d (cfg.hash b.header))

/-- A call returns, with what it is to return, unless the heights start at 0 and none of them has a
finalized block. -/
theorem backup_returns_iff (hd : Levelled d) (startHeight endHeight : UInt64) :
    (∀ created, ∃ n r, exportChainBackup cfg d startHeight endHeight created n = some r ∧
        BackedUp cfg d startHeight endHeight created r) ↔
      startHeight ≠ 0 ∨ ∃ i ≤ endHeight, (finalizedAt d i).isSome := by
  constructor
  · intro h
    refine or_iff_not_imp_left.2 fun hzero => ?_
    obtain rfl := not_not.1 hzero
    obtain ⟨n, r, hr, hbacked⟩ := h true
    cases r with
    | error e => exact absurd hr (exportChainBackup_zero_ne endHeight n e)
    | ok out =>
      obtain ⟨-, -, b, -, ⟨j, -, hj, hb, -⟩, -⟩ := hbacked
      exact ⟨j, hj, by rw [hb]; rfl⟩
  · intro h created
    by_cases hlt : endHeight < startHeight
    · exact ⟨0, .error _, if_pos hlt, .inl hlt⟩
    refine ⟨endHeight.toNat + 2, ?_⟩
    rw [exportChainBackup, if_neg hlt]
    obtain ⟨found, hfound, hhigh⟩ := findFinalized_spec (Nat.lt_succ_self _) h
    rw [hfound]
    cases found with
    | none => exact ⟨.error _, rfl, .inr (.inr hhigh)⟩
    | some b =>
      cases created with
      | false => exact ⟨.error _, rfl, .inr (.inl rfl)⟩
      | true =>
        obtain ⟨j, hj, hji, hb, -⟩ := id hhigh
        have hmem := mem_of_find?_eq_some hb
        have hheight := hd.index j b hmem
        obtain ⟨x, -, hx⟩ := mem_filterMap.1 hmem
        rw [UInt64.le_iff_toNat_le] at hji
        obtain ⟨height, blocks, hwrite, hdescends⟩ := writeBlocks_spec hd hx (hheight ▸ hj)
          (show b.header.height.toNat < endHeight.toNat + 2 by rw [hheight]; omega)
        refine ⟨.ok (height, b.header.height, _), ?_, UInt64.not_lt.1 hlt, rfl, b, blocks, hhigh,
          rfl, hdescends, rfl⟩
        show (writeBlocks d startHeight _ b).bind _ = _
        rw [hwrite]
        rfl

def snapshotStore : Store :=
  { Store.empty with
    block := fun h =>
      if h = 4 then some ⟨linkedSample.get ⟨3, by decide⟩, [], .directlyFinalized, false⟩
      else if h = 2 then some ⟨linkedSample.get ⟨1, by decide⟩, [4], .indirectlyFinalized, false⟩
      else none
    blocksByHeight := fun height =>
      if height = 2 then some [4] else if height = 1 then some [2] else none }

theorem findBlocksByHeight_snapshotStore {height : UInt64} (h : height ≠ 2) (h' : height ≠ 1) :
    findBlocksByHeight snapshotStore height = [] := by
  rw [findBlocksByHeight,
    show snapshotStore.blocksByHeight height = none from (if_neg h).trans (if_neg h')]
  rfl

theorem levelled_snapshotStore : Levelled snapshotStore where
  index := by
    intro height b hb
    by_cases htop : height = 2
    · subst htop
      rw [mem_singleton.1 hb]
      rfl
    by_cases hlow : height = 1
    · subst hlow
      rw [mem_singleton.1 hb]
      rfl
    · rw [findBlocksByHeight_snapshotStore htop hlow] at hb
      cases hb
  parent := by
    intro h b p hb hp
    by_cases htop : h = 4
    · subst htop
      cases hb
      cases hp
      rfl
    by_cases hlow : h = 2
    · subst hlow
      cases hb
      cases hp
    · cases hb.symm.trans ((if_neg htop).trans (if_neg hlow))

def epochHash : ChainConfig := ⟨fun header => BitVec.ofNat 256 header.epoch.toNat, [1], 1, 4⟩

/-- The block of height 2 and its parent are written. -/
theorem backup_returns_iff_snapshot :
    (∃ n r, exportChainBackup epochHash snapshotStore 1 3 true n = some r ∧
      BackedUp epochHash snapshotStore 1 3 true r) ∧
    (exportChainBackup epochHash snapshotStore 1 3 true 5).map (·.map fun (low, high, records) =>
      (low, high, records.map fun r => r.1.header.epoch)) = some (.ok (1, 2, [4, 2])) :=
  ⟨(backup_returns_iff levelled_snapshotStore 1 3).2 (.inl (by decide)) true, by decide⟩

/-- No block of the height 0 is finalized, but no call reports it. -/
theorem backup_search_passes_zero :
    finalizedAt snapshotStore 0 = none ∧
      ¬ ∃ n e, exportChainBackup epochHash snapshotStore 0 0 true n = some (.error e) :=
  ⟨rfl, fun ⟨n, e, h⟩ => exportChainBackup_zero_ne 0 n e h⟩

end ThetaSubchain.Snapshot
