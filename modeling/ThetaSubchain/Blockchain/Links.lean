/-
Links between stored blocks (blockchain/chain.go).

A link from a block to its child is made from either side: when the child is added to its stored
parent, or when the parent finds the child in the height index.
-/
import ThetaSubchain.Blockchain.Rehash

namespace ThetaSubchain

open Durable ExtendedBlock Function List
open Rlp (Item)

namespace Chain

variable {μ ο : Type} {cfg : ChainConfig}

def linkToParent (cfg : ChainConfig) (d : Store) (block : Block) : Store :=
  if block.header.parent.isEmpty then d
  else match findBlock d block.header.parent with
    | none => d
    | some parent =>
      Store.setBlock d (cfg.hash parent.header)
        { parent with children := parent.children ++ [cfg.hash block.header] }

def childrenInIndex (cfg : ChainConfig) (d : Store) (block : Block) : List Hash :=
  ((findBlocksByHeight d (block.header.height + 1)).filter
    fun c => c.header.parent = cfg.hash block.header).map fun c => cfg.hash c.header

def indexed (d : Store) (height : UInt64) (h : Hash) : Store :=
  if h ∈ (d.blocksByHeight height).getD [] then d
  else { d with
    blocksByHeight := Function.update d.blocksByHeight height
      (some ((d.blocksByHeight height).getD [] ++ [h])) }

def newBlock (cfg : ChainConfig) (d : Store) (block : Block) : ExtendedBlock :=
  ⟨block, childrenInIndex cfg (linkToParent cfg d block) block, .pending, false⟩

def stored (cfg : ChainConfig) (d : Store) (block : Block) : Store :=
  indexed (Store.setBlock (linkToParent cfg d block) (cfg.hash block.header) (newBlock cfg d block))
    block.header.height (cfg.hash block.header)

theorem run_addBlockByHeightIndex_eq (height : UInt64) (h : Hash) (s : Conf μ Store ο) :
    (addBlockByHeightIndex height h : Proc μ Store ο Unit).run s =
      (some (), { s with disk := indexed s.disk height h }) := by
  unfold addBlockByHeightIndex indexed
  rw [Proc.run_bind, Proc.run_disk]
  dsimp only
  by_cases hmem : h ∈ (s.disk.blocksByHeight height).getD []
  · rw [if_pos hmem, if_pos hmem]
    rfl
  · rw [if_neg hmem, if_neg hmem]
    rfl

def pendingBlock (cfg : ChainConfig) (d : Store) (block : Block) : ExtendedBlock :=
  ⟨block, childrenInIndex cfg d block, .pending, false⟩

def entered (cfg : ChainConfig) (d : Store) (block : Block) : Store :=
  indexed (Store.setBlock d (cfg.hash block.header) (pendingBlock cfg d block))
    block.header.height (cfg.hash block.header)

/-- The store when a block is saved: the root of a snapshot is not linked to its parent. -/
def linked (cfg : ChainConfig) (d : Store) (block : Block) (isSnapshotRoot : Bool) : Store :=
  if isSnapshotRoot then d else linkToParent cfg d block

theorem run_addBlock_root (cfg : ChainConfig) (block : Block) (root : Bool) (s : Conf μ Store ο) :
    (addBlock cfg block root : Proc μ Store ο _).run s =
      if block.header.chainID ≠ cfg.chainID then (some (.error "ChainID mismatch"), s)
      else if (findBlock s.disk (cfg.hash block.header)).isSome then
        (some (.error "Block has already been added"), s)
      else (some (.ok (pendingBlock cfg (linked cfg s.disk block root) block)),
        { s with disk := entered cfg (linked cfg s.disk block root) block }) := by
  unfold addBlock
  dsimp only
  by_cases hchain : block.header.chainID ≠ cfg.chainID
  · rw [if_pos hchain, if_pos hchain]
    rfl
  rw [if_neg hchain, if_neg hchain, Proc.run_bind, Proc.run_disk]
  dsimp only
  by_cases hfound : (findBlock s.disk (cfg.hash block.header)).isSome
  · rw [if_pos hfound, if_pos hfound]
    rfl
  rw [if_neg hfound, if_neg hfound]
  -- from linking the children on
  have hrest : ∀ d,
      (do
        let d ← Proc.disk
        saveBlock cfg (pendingBlock cfg d block)
        addBlockByHeightIndex block.header.height (cfg.hash block.header)
        pure (.ok (pendingBlock cfg d block)) :
          Proc μ Store ο (Except String ExtendedBlock)).run { s with disk := d } =
      (some (.ok (pendingBlock cfg d block)), { s with disk := entered cfg d block }) := by
    intro d
    rw [Proc.run_bind, Proc.run_disk]
    show Proc.run (addBlockByHeightIndex _ _ >>= _) _ = _
    rw [Proc.run_bind, run_addBlockByHeightIndex_eq]
    rfl
  by_cases hlink : (!block.header.parent.isEmpty && !root) = true
  · rw [if_pos hlink, Proc.run_bind, Proc.run_disk]
    dsimp only
    simp only [Bool.and_eq_true, Bool.not_eq_true'] at hlink
    have hlinked : linked cfg s.disk block root = _ :=
      (if_neg (by simp [hlink.2])).trans (if_neg (by simp [hlink.1]))
    rw [hlinked]
    cases hfind : findBlock s.disk block.header.parent with
    | none => exact hrest s.disk
    | some parent =>
      dsimp only
      rw [Proc.run_bind]
      exact hrest _
  · rw [if_neg hlink]
    have hlinked : linked cfg s.disk block root = s.disk := by
      cases root with
      | true => rfl
      | false =>
        show linkToParent cfg s.disk block = s.disk
        exact if_pos (by simpa using hlink)
    rw [hlinked]
    exact hrest s.disk

theorem run_addBlock (cfg : ChainConfig) (block : Block) (s : Conf μ Store ο) :
    (addBlock cfg block false : Proc μ Store ο _).run s =
      if block.header.chainID ≠ cfg.chainID then (some (.error "ChainID mismatch"), s)
      else if (findBlock s.disk (cfg.hash block.header)).isSome then
        (some (.error "Block has already been added"), s)
      else (some (.ok (newBlock cfg s.disk block)), { s with disk := stored cfg s.disk block }) :=
  run_addBlock_root cfg block false s

def Keyed (cfg : ChainConfig) (d : Store) : Prop :=
  ∀ h eb, d.block h = some eb → cfg.hash eb.header = h

variable {d : Store}

theorem linkToParent_block (hkey : Keyed cfg d) (b : Block) (h : Hash) :
    (linkToParent cfg d b).block h =
      if b.header.parent.isEmpty = false ∧ h = b.header.parent then
        (d.block h).map fun pb => { pb with children := pb.children ++ [cfg.hash b.header] }
      else d.block h := by
  unfold linkToParent
  by_cases hempty : b.header.parent.isEmpty
  · rw [if_pos hempty, if_neg (by simp [hempty])]
  rw [if_neg hempty]
  cases hfind : findBlock d b.header.parent with
  | none =>
    by_cases hh : b.header.parent.isEmpty = false ∧ h = b.header.parent
    · rw [if_pos hh, hh.2]
      have hnone : d.block b.header.parent = none := hfind
      rw [hnone]
      rfl
    · rw [if_neg hh]
  | some pb =>
    have hpb : d.block b.header.parent = some pb := hfind
    show update d.block (cfg.hash pb.header) _ h = _
    rw [hkey _ pb hpb]
    by_cases hh : h = b.header.parent
    · rw [hh, update_self, if_pos ⟨by simpa using hempty, rfl⟩, hpb]
      rfl
    · rw [update_of_ne hh, if_neg fun hand => hh hand.2]

theorem linkToParent_blocksByHeight (cfg : ChainConfig) (d : Store) (b : Block) :
    (linkToParent cfg d b).blocksByHeight = d.blocksByHeight := by
  unfold linkToParent
  split
  · rfl
  · split <;> rfl

theorem linkToParent_header (hkey : Keyed cfg d) (b : Block) (h : Hash) :
    ((linkToParent cfg d b).block h).map header =
      (d.block h).map header := by
  rw [linkToParent_block hkey]
  split
  · rw [Option.map_map]
    rfl
  · rfl

theorem keyed_linkToParent (hkey : Keyed cfg d) (b : Block) : Keyed cfg (linkToParent cfg d b) := by
  intro h eb hb
  have hheader := congrArg (Option.map header) hb
  rw [linkToParent_header hkey] at hheader
  obtain ⟨eb', hb', heq⟩ := Option.map_eq_some_iff.1 hheader
  rw [← heq]
  exact hkey h eb' hb'

theorem indexed_block (d : Store) (height : UInt64) (h : Hash) :
    (indexed d height h).block = d.block := by
  unfold indexed
  split <;> rfl

theorem mem_indexed {height height' : UInt64} {h x : Hash} :
    x ∈ ((indexed d height h).blocksByHeight height').getD [] ↔
      x ∈ (d.blocksByHeight height').getD [] ∨ (height' = height ∧ x = h) := by
  unfold indexed
  by_cases hmem : h ∈ (d.blocksByHeight height).getD []
  · rw [if_pos hmem]
    refine ⟨.inl, ?_⟩
    rintro (hx | ⟨rfl, rfl⟩)
    · exact hx
    · exact hmem
  rw [if_neg hmem]
  by_cases hheight : height' = height
  · subst hheight
    simp
  · simp [hheight]

theorem nodup_indexed {height height' : UInt64} {h : Hash}
    (hd : ((d.blocksByHeight height').getD []).Nodup) :
    (((indexed d height h).blocksByHeight height').getD []).Nodup := by
  unfold indexed
  by_cases hmem : h ∈ (d.blocksByHeight height).getD []
  · rw [if_pos hmem]
    exact hd
  rw [if_neg hmem]
  by_cases hheight : height' = height
  · subst hheight
    show ((update d.blocksByHeight height' _ height').getD []).Nodup
    rw [update_self, Option.getD_some, nodup_append]
    refine ⟨hd, nodup_singleton h, fun x hx y hy => ?_⟩
    rw [mem_singleton.1 hy]
    exact fun heq => hmem (heq ▸ hx)
  · show ((update d.blocksByHeight height _ height').getD []).Nodup
    rw [update_of_ne hheight]
    exact hd

theorem stored_block (hkey : Keyed cfg d) (b : Block) (h : Hash) :
    (stored cfg d b).block h =
      if h = cfg.hash b.header then some (newBlock cfg d b)
      else if b.header.parent.isEmpty = false ∧ h = b.header.parent then
        (d.block h).map fun pb => { pb with children := pb.children ++ [cfg.hash b.header] }
      else d.block h := by
  rw [stored, indexed_block, ← linkToParent_block hkey]
  show update (linkToParent cfg d b).block (cfg.hash b.header) _ h = _
  by_cases hh : h = cfg.hash b.header
  · rw [hh, update_self, if_pos rfl]
  · rw [update_of_ne hh, if_neg hh]

theorem stored_header (hkey : Keyed cfg d) (b : Block) (h : Hash) :
    ((stored cfg d b).block h).map header =
      if h = cfg.hash b.header then some b.header else (d.block h).map header := by
  rw [stored, indexed_block, ← linkToParent_header hkey b]
  show (update (linkToParent cfg d b).block (cfg.hash b.header) _ h).map _ = _
  by_cases hh : h = cfg.hash b.header
  · rw [hh, update_self, if_pos rfl]
    rfl
  · rw [update_of_ne hh, if_neg hh]

theorem exists_block_iff {d d' : Store} {h : Hash} {P : BlockHeader → Prop}
    (heq : (d'.block h).map header = (d.block h).map header) :
    (∃ eb, d'.block h = some eb ∧ P eb.header) ↔ ∃ eb, d.block h = some eb ∧ P eb.header := by
  have hmap : ∀ o : Option ExtendedBlock, (∃ eb, o = some eb ∧ P eb.header) ↔
      ∃ hd, o.map header = some hd ∧ P hd := by
    intro o
    cases o <;> simp
  rw [hmap, hmap, heq]

theorem mem_childrenInIndex (hkey : Keyed cfg d) (b : Block) (c : Hash) :
    c ∈ childrenInIndex cfg (linkToParent cfg d b) b ↔
      c ∈ (d.blocksByHeight (b.header.height + 1)).getD [] ∧
        ∃ cb, d.block c = some cb ∧ cb.header.parent = cfg.hash b.header := by
  have hlinked : Keyed cfg (linkToParent cfg d b) := keyed_linkToParent hkey b
  rw [← exists_block_iff (P := fun hd => hd.parent = cfg.hash b.header)
    (linkToParent_header hkey b c), ← linkToParent_blocksByHeight cfg d b, childrenInIndex,
    mem_map]
  constructor
  · rintro ⟨cb, hcb, rfl⟩
    obtain ⟨hfound, hparent⟩ := mem_filter.1 hcb
    obtain ⟨h, hh, hfind⟩ := mem_filterMap.1 hfound
    have hfind : (linkToParent cfg d b).block h = some cb := hfind
    rw [hlinked h cb hfind]
    exact ⟨hh, cb, hfind, by simpa using hparent⟩
  · rintro ⟨hh, cb, hcb, hparent⟩
    refine ⟨cb, mem_filter.2 ⟨?_, by simpa using hparent⟩, hlinked c cb hcb⟩
    exact mem_filterMap.2 ⟨c, hh, hcb⟩

/-- The children of each block are the stored blocks whose parent it is, each once, and the index
has for each height the stored blocks of this height, each once. -/
structure Linked (cfg : ChainConfig) (d : Store) : Prop where
  key : Keyed cfg d
  nodup : ∀ p pb, d.block p = some pb → pb.children.Nodup
  children : ∀ p pb, d.block p = some pb → ∀ c, c ∈ pb.children ↔
    ∃ cb, d.block c = some cb ∧ cb.header.parent = p
  nodupIndex : ∀ height, ((d.blocksByHeight height).getD []).Nodup
  index : ∀ height h, h ∈ (d.blocksByHeight height).getD [] ↔
    ∃ eb, d.block h = some eb ∧ eb.header.height = height

theorem linked_empty (cfg : ChainConfig) : Linked cfg Store.empty := by
  constructor <;> simp [Keyed, Store.empty]

theorem map_hash_filterMap (hkey : Keyed cfg d) (l : List Hash) :
    (l.filterMap (findBlock d)).map (fun eb => cfg.hash eb.header) =
      l.filter fun h => (d.block h).isSome := by
  induction l with
  | nil => rfl
  | cons h l ih =>
    cases hfind : findBlock d h with
    | none =>
      have hnone : d.block h = none := hfind
      rw [filterMap_cons_none hfind, ih, filter_cons_of_neg (by simp [hnone])]
    | some eb =>
      have hsome : d.block h = some eb := hfind
      rw [filterMap_cons_some hfind, map_cons, ih, hkey h eb hsome,
        filter_cons_of_pos (by simp [hsome])]

theorem Linked.nodup_findBlocksByHeight (hd : Linked cfg d) (height : UInt64) :
    ((findBlocksByHeight d height).map fun eb => cfg.hash eb.header).Nodup := by
  rw [findBlocksByHeight, map_hash_filterMap hd.key]
  exact (hd.nodupIndex height).filter _

theorem Linked.mem_findBlocksByHeight (hd : Linked cfg d) (height : UInt64) (eb : ExtendedBlock) :
    eb ∈ findBlocksByHeight d height ↔
      d.block (cfg.hash eb.header) = some eb ∧ eb.header.height = height := by
  rw [findBlocksByHeight, mem_filterMap]
  constructor
  · rintro ⟨h, hh, hfind⟩
    have hfind : d.block h = some eb := hfind
    obtain ⟨eb', hb', hheight⟩ := (hd.index height h).1 hh
    rw [hfind, Option.some.injEq] at hb'
    rw [hd.key h eb hfind, hb']
    exact ⟨hb' ▸ hfind, hheight⟩
  · rintro ⟨hfind, hheight⟩
    exact ⟨cfg.hash eb.header, (hd.index height _).2 ⟨eb, hfind, hheight⟩, hfind⟩

theorem nodup_childrenInIndex (hd : Linked cfg d) (b : Block) :
    (childrenInIndex cfg (linkToParent cfg d b) b).Nodup := by
  have hkey : Keyed cfg (linkToParent cfg d b) := keyed_linkToParent hd.key b
  have hall : ((findBlocksByHeight (linkToParent cfg d b) (b.header.height + 1)).map
      fun eb => cfg.hash eb.header).Nodup := by
    rw [findBlocksByHeight, map_hash_filterMap hkey, linkToParent_blocksByHeight]
    exact (hd.nodupIndex _).filter _
  exact hall.sublist (filter_sublist.map _)

/-- The blocks of a set in which no hash is empty and each block is one higher than its parent,
if that is in the set. -/
structure Graded (cfg : ChainConfig) (blocks : Set Block) : Prop where
  hash : ∀ b ∈ blocks, (cfg.hash b.header).isEmpty = false
  height : ∀ b ∈ blocks, ∀ p ∈ blocks, b.header.parent = cfg.hash p.header →
    b.header.height.toNat = p.header.height.toNat + 1

section Graded

variable {blocks : Set Block}

def Within (blocks : Set Block) (d : Store) : Prop := ∀ h eb, d.block h = some eb → eb.block ∈ blocks

variable {b : Block}

theorem Within.stored {d : Store} (hkey : Keyed cfg d) (hw : Within blocks d) (hb : b ∈ blocks) :
    Within blocks (stored cfg d b) := by
  intro h eb heb
  rw [stored_block hkey] at heb
  split at heb
  · cases heb
    exact hb
  · split at heb
    · obtain ⟨pb, hpb, rfl⟩ := Option.map_eq_some_iff.1 heb
      exact hw h pb hpb
    · exact hw h eb heb

theorem Keyed.stored {d : Store} (hkey : Keyed cfg d) (b : Block) : Keyed cfg (stored cfg d b) := by
  intro h eb heb
  have hheader := congrArg (Option.map header) heb
  rw [stored_header hkey] at hheader
  split at hheader
  · next hh => rw [hh, ← Option.some.inj hheader]
  · obtain ⟨eb', hb', heq⟩ := Option.map_eq_some_iff.1 hheader
    rw [← heq]
    exact hkey h eb' hb'

theorem Graded.height_child (hg : Graded cfg blocks) {b c : Block} (hb : b ∈ blocks)
    (hc : c ∈ blocks) (hparent : c.header.parent = cfg.hash b.header) :
    c.header.height = b.header.height + 1 := by
  have hheight := hg.height c hc b hb hparent
  have hbound := c.header.height.toNat_lt
  rw [← UInt64.toNat_inj, UInt64.toNat_add]
  show _ = (b.header.height.toNat + 1) % 2 ^ 64
  omega

theorem child_stored_iff {d : Store} (hkey : Keyed cfg d) (b : Block) (c p : Hash) :
    (∃ cb, (stored cfg d b).block c = some cb ∧ cb.header.parent = p) ↔
      (c = cfg.hash b.header ∧ b.header.parent = p) ∨
        (c ≠ cfg.hash b.header ∧ ∃ cb, d.block c = some cb ∧ cb.header.parent = p) := by
  have hmap : ∀ o : Option ExtendedBlock, (∃ cb, o = some cb ∧ cb.header.parent = p) ↔
      ∃ hd, o.map header = some hd ∧ hd.parent = p := by
    intro o
    cases o <;> simp
  rw [hmap, hmap, stored_header hkey]
  by_cases hc : c = cfg.hash b.header
  · rw [if_pos hc]
    simp [hc]
  · rw [if_neg hc]
    simp [hc]

theorem Linked.stored {d : Store} (hd : Linked cfg d) (hg : Graded cfg blocks)
    (hw : Within blocks d) (hb : b ∈ blocks) (hnew : d.block (cfg.hash b.header) = none) :
    Linked cfg (stored cfg d b) := by
  have hother : ∀ {h : Hash} {eb : ExtendedBlock}, d.block h = some eb → h ≠ cfg.hash b.header := by
    rintro h eb heb rfl
    rw [hnew] at heb
    cases heb
  refine ⟨hd.key.stored b, ?_, ?_, ?_, ?_⟩
  · intro p pb hpb
    rw [stored_block hd.key] at hpb
    split at hpb
    · cases hpb
      exact nodup_childrenInIndex hd b
    · split at hpb
      · obtain ⟨pb₀, hpb₀, rfl⟩ := Option.map_eq_some_iff.1 hpb
        show (pb₀.children ++ [cfg.hash b.header]).Nodup
        rw [nodup_append]
        refine ⟨hd.nodup p pb₀ hpb₀, nodup_singleton _, fun x hx y hy => ?_⟩
        obtain ⟨xb, hxb, -⟩ := (hd.children p pb₀ hpb₀ x).1 hx
        rw [mem_singleton.1 hy]
        exact hother hxb
      · exact hd.nodup p pb hpb
  · intro p pb hpb c
    rw [child_stored_iff hd.key]
    rw [stored_block hd.key] at hpb
    split at hpb
    · -- the new block: its children were stored before it
      next hp =>
      cases hpb
      rw [hp]
      show c ∈ childrenInIndex cfg (linkToParent cfg d b) b ↔ _
      rw [mem_childrenInIndex hd.key, hd.index]
      constructor
      · rintro ⟨-, cb, hcb, hparent⟩
        exact .inr ⟨hother hcb, cb, hcb, hparent⟩
      · rintro (⟨-, hself⟩ | ⟨-, cb, hcb, hparent⟩)
        · have hheight := hg.height b hb b hb hself
          omega
        · exact ⟨⟨cb, hcb, hg.height_child hb (hw c cb hcb) hparent⟩, cb, hcb, hparent⟩
    · split at hpb
      · -- the parent of the new block
        next hp =>
        obtain ⟨pb₀, hpb₀, rfl⟩ := Option.map_eq_some_iff.1 hpb
        show c ∈ pb₀.children ++ [cfg.hash b.header] ↔ _
        rw [mem_append, mem_singleton, hd.children p pb₀ hpb₀]
        constructor
        · rintro (⟨cb, hcb, hparent⟩ | hc)
          · exact .inr ⟨hother hcb, cb, hcb, hparent⟩
          · exact .inl ⟨hc, hp.2.symm⟩
        · rintro (⟨hc, -⟩ | ⟨-, hcb⟩)
          · exact .inr hc
          · exact .inl hcb
      · next hp =>
        rw [hd.children p pb hpb]
        constructor
        · rintro ⟨cb, hcb, hparent⟩
          exact .inr ⟨hother hcb, cb, hcb, hparent⟩
        · rintro (⟨-, hparent⟩ | ⟨-, hcb⟩)
          · -- a stored block has a hash that is not empty
            have hhash := hg.hash pb.block (hw p pb hpb)
            rw [hd.key p pb hpb, ← hparent] at hhash
            exact absurd ⟨hhash, hparent.symm⟩ hp
          · exact hcb
  · exact fun height => nodup_indexed (by
      show (((linkToParent cfg d b).blocksByHeight height).getD []).Nodup
      rw [linkToParent_blocksByHeight]
      exact hd.nodupIndex height)
  · intro height h
    have hmap : ∀ o : Option ExtendedBlock, (∃ eb, o = some eb ∧ eb.header.height = height) ↔
        ∃ hd, o.map header = some hd ∧ hd.height = height := by
      intro o
      cases o <;> simp
    show h ∈ ((indexed _ b.header.height (cfg.hash b.header)).blocksByHeight height).getD [] ↔ _
    rw [mem_indexed, hmap, stored_header hd.key]
    show h ∈ ((linkToParent cfg d b).blocksByHeight height).getD [] ∨ _ ↔ _
    rw [linkToParent_blocksByHeight, hd.index, hmap]
    by_cases hh : h = cfg.hash b.header
    · rw [if_pos hh, hh, hnew]
      simp [eq_comm]
    · rw [if_neg hh]
      simp [hh]

def Holds (d : Store) (b : Block) : Prop := ∃ h eb, d.block h = some eb ∧ eb.block = b

theorem holds_stored_iff {d : Store} (hkey : Keyed cfg d)
    (hnew : d.block (cfg.hash b.header) = none) (c : Block) :
    Holds (stored cfg d b) c ↔ c = b ∨ Holds d c := by
  have hmap : ∀ o : Option ExtendedBlock, (∃ eb, o = some eb ∧ eb.block = c) ↔
      o.map block = some c := by
    intro o
    cases o <;> simp
  have hblock : ∀ h, ((stored cfg d b).block h).map block =
      if h = cfg.hash b.header then some b else (d.block h).map block := by
    intro h
    rw [stored_block hkey]
    split
    · rfl
    · split
      · rw [Option.map_map]
        rfl
      · rfl
  simp only [Holds, hmap, hblock]
  constructor
  · rintro ⟨h, hc⟩
    split at hc
    · exact .inl (Option.some.inj hc).symm
    · exact .inr ⟨h, hc⟩
  · rintro (rfl | ⟨h, hc⟩)
    · exact ⟨_, if_pos rfl⟩
    · refine ⟨h, (if_neg ?_).trans hc⟩
      rintro rfl
      rw [hnew] at hc
      cases hc

variable {digest : Item → Hash} {ord : MapOrder}

theorem Linked.under {d : Store} (hd : Linked (cfg.under (headerHash digest) ord) d)
    (hv : d.DistinctVoters) (ord' : MapOrder) : Linked (cfg.under (headerHash digest) ord') d :=
  { hd with key := fun h eb hb => (headerHash_eq (hv h eb hb) ord ord').trans (hd.key h eb hb) }

theorem Graded.under (hg : Graded (cfg.under (headerHash digest) ord) blocks)
    (hv : ∀ b ∈ blocks, b.header.DistinctVoters) (ord' : MapOrder) :
    Graded (cfg.under (headerHash digest) ord') blocks := by
  constructor
  · intro b hb
    rw [ChainConfig.under_hash, headerHash_eq (hv b hb) ord ord']
    exact hg.hash b hb
  · intro b hb p hp hparent
    rw [ChainConfig.under_hash, headerHash_eq (hv p hp) ord ord'] at hparent
    exact hg.height b hb p hp hparent

/-- Calls of `AddBlock`, each with the order in which it reads the maps. -/
def addBlocks (cfg : ChainConfig) (digest : Item → Hash) (calls : List (MapOrder × Block)) :
    Proc μ Store ο Unit :=
  Proc.forEach calls fun (ord, b) => do let _ ← addBlock (cfg.under (headerHash digest) ord) b false

theorem run_addBlocks_cons (ord : MapOrder) (b : Block) (calls : List (MapOrder × Block))
    (s : Conf μ Store ο) (hchain : b.header.chainID = cfg.chainID) :
    (addBlocks cfg digest ((ord, b) :: calls) : Proc μ Store ο Unit).run s =
      (addBlocks cfg digest calls).run
        (if (findBlock s.disk ((cfg.under (headerHash digest) ord).hash b.header)).isSome then s
          else { s with disk := stored (cfg.under (headerHash digest) ord) s.disk b }) := by
  show ((addBlock (cfg.under (headerHash digest) ord) b false >>= fun _ => Pure.pure ()) >>=
    fun _ => addBlocks cfg digest calls).run s = _
  have hchain : ¬ b.header.chainID ≠ (cfg.under (headerHash digest) ord).chainID :=
    not_not_intro hchain
  rw [Proc.run_bind, Proc.run_bind, run_addBlock, if_neg hchain]
  by_cases hfound : (findBlock s.disk ((cfg.under (headerHash digest) ord).hash b.header)).isSome
  · rw [if_pos hfound, if_pos hfound]
    rfl
  · rw [if_neg hfound, if_neg hfound]
    rfl

theorem run_addBlocks {d : Store} (hvoters : ∀ b ∈ blocks, b.header.DistinctVoters)
    (hd : Linked (cfg.under (headerHash digest) ord) d)
    (hg : Graded (cfg.under (headerHash digest) ord) blocks) (hw : Within blocks d)
    (hchain : ∀ b ∈ blocks, b.header.chainID = cfg.chainID)
    (hdistinct : Set.InjOn (fun b : Block => headerHash digest ord b.header) blocks)
    (calls : List (MapOrder × Block)) (hcalls : ∀ c ∈ calls, c.2 ∈ blocks) (m : μ) (outs : List ο) :
    ∃ d', (addBlocks cfg digest calls : Proc μ Store ο Unit).run ⟨m, d, outs⟩ =
        (some (), ⟨m, d', outs⟩) ∧
      Linked (cfg.under (headerHash digest) ord) d' ∧ Within blocks d' ∧
      ∀ b, Holds d' b ↔ b ∈ calls.map Prod.snd ∨ Holds d b := by
  induction calls generalizing d with
  | nil => exact ⟨d, rfl, hd, hw, by simp⟩
  | cons call calls ih =>
    obtain ⟨o, b⟩ := call
    have hb : b ∈ blocks := hcalls _ mem_cons_self
    have hrest : ∀ c ∈ calls, c.2 ∈ blocks := fun c hc => hcalls c (mem_cons_of_mem _ hc)
    -- this call hashes the stored blocks and its own as the reference order does
    have hdo : Linked (cfg.under (headerHash digest) o) d :=
      hd.under (fun h eb heb => hvoters _ (hw h eb heb)) o
    have hgo := hg.under hvoters o
    rw [run_addBlocks_cons o b calls _ (hchain b hb)]
    by_cases hfound : (findBlock d ((cfg.under (headerHash digest) o).hash b.header)).isSome
    · -- the block is there: the call is refused
      rw [if_pos hfound]
      obtain ⟨eb, heb⟩ := Option.isSome_iff_exists.1 hfound
      rw [ChainConfig.under_hash, headerHash_eq (hvoters b hb) ord o] at heb
      have hsame : eb.block = b := hdistinct (hw _ eb heb) hb (hd.key _ eb heb)
      obtain ⟨d', hrun, hd', hw', hholds⟩ := ih hd hw hrest
      refine ⟨d', hrun, hd', hw', fun c => ?_⟩
      rw [hholds, map_cons, mem_cons]
      have hheld : c = b → Holds d c := by
        rintro rfl
        exact ⟨_, eb, heb, hsame⟩
      tauto
    · rw [if_neg hfound]
      have hnew := Option.not_isSome_iff_eq_none.1 hfound
      have hw' : Within blocks (stored (cfg.under (headerHash digest) o) d b) := hw.stored hdo.key hb
      have hd' := (hdo.stored hgo hw hb hnew).under (fun h eb heb => hvoters _ (hw' h eb heb)) ord
      obtain ⟨d'', hrun, hd'', hw'', hholds⟩ := ih hd' hw' hrest
      refine ⟨d'', hrun, hd'', hw'', fun c => ?_⟩
      rw [hholds, map_cons, mem_cons, holds_stored_iff hdo.key hnew]
      tauto

/-- Blocks in which no certificate has two votes of one voter and a child is one higher than its
parent are linked exactly, in whatever order and however often they are added: the children of a
block are the stored blocks whose parent it is, each once, and the blocks that are found by a
height are the stored ones of this height, each once. -/
theorem linked_addBlocks {d : Store} (hvoters : ∀ b ∈ blocks, b.header.DistinctVoters)
    (hd : Linked (cfg.under (headerHash digest) ord) d)
    (hg : Graded (cfg.under (headerHash digest) ord) blocks) (hw : Within blocks d)
    (hchain : ∀ b ∈ blocks, b.header.chainID = cfg.chainID)
    (hdistinct : Set.InjOn (fun b : Block => headerHash digest ord b.header) blocks)
    (calls : List (MapOrder × Block)) (hcalls : ∀ c ∈ calls, c.2 ∈ blocks) (m : μ) (outs : List ο) :
    ∃ d', (addBlocks cfg digest calls : Proc μ Store ο Unit).run ⟨m, d, outs⟩ =
        (some (), ⟨m, d', outs⟩) ∧
      (∀ b, Holds d' b ↔ b ∈ calls.map Prod.snd ∨ Holds d b) ∧
      (∀ p pb, findBlock d' p = some pb → pb.children.Nodup ∧
        ∀ c, c ∈ pb.children ↔ ∃ cb, findBlock d' c = some cb ∧ cb.header.parent = p) ∧
      ∀ height, ((findBlocksByHeight d' height).map fun eb =>
          headerHash digest ord eb.header).Nodup ∧
        ∀ eb, eb ∈ findBlocksByHeight d' height ↔
          findBlock d' (headerHash digest ord eb.header) = some eb ∧
            eb.header.height = height := by
  obtain ⟨d', hrun, hd', -, hholds⟩ :=
    run_addBlocks hvoters hd hg hw hchain hdistinct calls hcalls m outs
  refine ⟨d', hrun, hholds, fun p pb hpb => ⟨hd'.nodup p pb hpb, hd'.children p pb hpb⟩, ?_⟩
  exact fun height => ⟨hd'.nodup_findBlocksByHeight height, hd'.mem_findBlocksByHeight height⟩

def linkedSample : List Block :=
  [(1, 0, 0), (2, 1, 1), (3, 1, 1), (4, 2, 2)].map fun (epoch, height, parent) =>
    ⟨{ chainID := [1], epoch := epoch, height := height, parent := parent, hcc := ⟨none, 0⟩
       txHash := 0, receiptHash := 0, bloom := 0, stateHash := 0, timestamp := none
       proposer := 0, signature := none }, []⟩

def epochDigest (header : Item) : Hash := BitVec.ofNat 256 (itemNat (itemAt 1 header))

def linkedChain : ChainConfig := ⟨fun _ => 0, [1], 1, 4⟩

def linkedCalls : List (MapOrder × Block) :=
  linkedSample.reverse.map (.reverse, ·) ++ linkedSample.map (.id, ·)

theorem linked_addBlocks_backwards :
    ∃ d', (addBlocks linkedChain epochDigest linkedCalls : Proc Unit Store Unit Unit).run
        ⟨(), Store.empty, []⟩ = (some (), ⟨(), d', []⟩) ∧
      (∀ b, Holds d' b ↔ b ∈ linkedCalls.map Prod.snd ∨ Holds Store.empty b) ∧
      (∀ p pb, findBlock d' p = some pb → pb.children.Nodup ∧
        ∀ c, c ∈ pb.children ↔ ∃ cb, findBlock d' c = some cb ∧ cb.header.parent = p) ∧
      ∀ height, ((findBlocksByHeight d' height).map fun eb =>
          headerHash epochDigest .id eb.header).Nodup ∧
        ∀ eb, eb ∈ findBlocksByHeight d' height ↔
          findBlock d' (headerHash epochDigest .id eb.header) = some eb ∧
            eb.header.height = height := by
  have hg : Graded (linkedChain.under (headerHash epochDigest) .id) {b | b ∈ linkedSample} := by
    constructor
    · show ∀ b ∈ linkedSample, _
      decide
    · show ∀ b ∈ linkedSample, ∀ p ∈ linkedSample, _
      decide
  have hvotes : ∀ b ∈ linkedSample, b.header.hcc.votes = none := by decide
  have hhashes : (linkedSample.map fun b => headerHash epochDigest .id
      b.header).Nodup := by
    decide
  refine linked_addBlocks ?_ (linked_empty _) hg ?_ ?_ (fun b hb c hc => ?_) _ ?_ () []
  · intro b hb s hs
    rw [hvotes b hb] at hs
    cases hs
  · intro h eb heb
    cases heb
  · show ∀ b ∈ linkedSample, _
    decide
  · exact inj_on_of_nodup_map hhashes hb hc
  · intro c hc
    have hmem : c.2 ∈ linkedCalls.map Prod.snd := mem_map_of_mem hc
    simpa [linkedCalls, comp_def] using hmem

def revotedBlock : Block := codecBlock [codecVote 1 2, codecVote 1 3]

def revotedChild : Block :=
  ⟨{ (codecBlock []).header with
      height := 3, parent := headerHash firstVoteDigest .id revotedBlock.header }, []⟩

def revotedChain : ChainConfig := ⟨fun _ => 0, [116], 1, 4⟩

def revotedLinks : Store :=
  ((addBlocks revotedChain firstVoteDigest [(.id, revotedBlock), (.reverse, revotedChild)] :
    Proc Unit Store Unit Unit).run ⟨(), Store.empty, []⟩).2.disk

/-- A block whose certificate has two votes of one voter is stored, and then its child.  The second
call reads the block from the store, hashes it in another order and stores it under the new hash:
the block has no children under its own. -/
theorem child_linked_elsewhere :
    let blocks := [revotedBlock, revotedChild]
    let h := headerHash firstVoteDigest .id revotedBlock.header
    let c := headerHash firstVoteDigest .id revotedChild.header
    (∀ ord ∈ [MapOrder.id, .reverse], (∀ b ∈ blocks, b.header.chainID = revotedChain.chainID) ∧
      (blocks.map fun b => headerHash firstVoteDigest ord b.header).Nodup) ∧
      revotedChild.header.height = revotedBlock.header.height + 1 ∧
      ((revotedLinks.block c).map fun eb => (eb.block, eb.header.parent)) =
        some (revotedChild, h) ∧
      (revotedLinks.block h).map (fun eb => (eb.block, eb.children)) = some (revotedBlock, []) ∧
      ∃ keccak, ∀ ord ∈ [MapOrder.id, .reverse], ∀ b ∈ blocks,
        headerHash firstVoteDigest ord b.header =
          b.header.calculateHash keccak ord := by
  intro blocks h c
  refine ⟨?_, rfl, by decide +kernel, by decide +kernel, ?_⟩
  · simp only [forall_mem_cons, not_mem_nil, false_imp_iff, implies_true, and_true]
    decide
  · obtain ⟨keccak, hkeccak⟩ := exists_keccak firstVoteDigest
    have hlen : ∀ ord ∈ [MapOrder.id, .reverse], ∀ b ∈ blocks,
        (b.header.encode ord).length < 2 ^ 64 := by
      simp only [blocks, forall_mem_cons, not_mem_nil, false_imp_iff, implies_true, and_true,
        BlockHeader.encode, BlockHeader.toItem_of_bloom (h := revotedBlock.header) rfl,
        BlockHeader.toItem_of_bloom (h := revotedChild.header) rfl]
      decide +kernel
    exact ⟨keccak, fun ord hord b hb => hkeccak b.header ord (hlen ord hord b hb)⟩

end Graded

end Chain

end ThetaSubchain
