/-
Compaction of the rolling database (store/rollingdb/{rollingdb,copy_trie,layer}.go).

A compaction copies the nodes of the finalized state at the tag of an old layer into the layer that
was active when it started, and destroys the old layer and all below it.  It is cut into the steps
between which the writers of the database can act.
-/
import ThetaSubchain.Store.RollingDB

namespace ThetaSubchain.Rolling

open List Function Option Write

structure LayerTag where
  height : UInt64 := 0
  stateRoots : List Hash := []

def LayerTag.add (t : LayerTag) (height : UInt64) (stateRoot : Hash) : LayerTag :=
  if height < t.height then t
  else if height = t.height then
    if stateRoot ∈ t.stateRoots then t
    else { t with stateRoots := t.stateRoots ++ [stateRoot] }
  else ⟨height, [stateRoot]⟩

/-- The configuration with rolling enabled.  An interval of zero panics in the first `Tag`. -/
structure RollingConfig where
  statePruningEnabled : Bool := true
  rollingInterval : Int64
  retainedBlocks : Int64
  interval_ne_zero : rollingInterval ≠ 0

def isRollingHeight (cfg : RollingConfig) (height : UInt64) : Bool :=
  height.toInt64 % cfg.rollingInterval == 50

def isCompactionHeight (cfg : RollingConfig) (height : UInt64) : Bool :=
  height.toInt64 % cfg.rollingInterval == 70

def nodeKey (h : Hash) : Bytes := Rlp.fixedBytes 32 h.toNat

structure TrieFormat where
  children : Bytes → List Hash
  storageRoots : Bytes → List Hash

inductive TrieNode (fmt : TrieFormat) (t : Table) (root : Hash) : Hash → Prop where
  | root (h : (t (nodeKey root)).isSome) : TrieNode fmt t root root
  | child {parent child : Hash} {e : Bytes} (hp : TrieNode fmt t root parent)
      (he : t (nodeKey parent) = some e) (hc : child ∈ fmt.children e)
      (h : (t (nodeKey child)).isSome) : TrieNode fmt t root child

def StateNode (fmt : TrieFormat) (t : Table) (root h : Hash) : Prop :=
  TrieNode fmt t root h ∨ ∃ leaf e storage, TrieNode fmt t root leaf ∧
    t (nodeKey leaf) = some e ∧ storage ∈ fmt.storageRoots e ∧ TrieNode fmt t storage h

variable {root h : Hash} {t : Table}

theorem isSome_of_trieNode {fmt : TrieFormat} (hn : TrieNode fmt t root h) :
    (t (nodeKey h)).isSome := by
  cases hn with
  | root h => exact h
  | child _ _ _ h => exact h

theorem isSome_of_stateNode {fmt : TrieFormat} (hn : StateNode fmt t root h) :
    (t (nodeKey h)).isSome := by
  rcases hn with hn | ⟨_, _, _, _, _, _, hn⟩
  · exact isSome_of_trieNode hn
  · exact isSome_of_trieNode hn

namespace RollingDB

variable (rdb : RollingDB)

def destroyed (name : Int) (l : DBLayer) : Bool := decide (l ∈ rdb.layers) && decide (l.name ≤ name)

def destroyUpTo (name : Int) : RollingDB where
  content := fun l => if rdb.destroyed name l then fun _ => none else rdb.content l
  layers := rdb.layers.filter fun l => name < l.name
  activeLayer := rdb.activeLayer
  batches := rdb.batches.filter fun b => !rdb.destroyed name b.layer
  older := fun l hl => rdb.older l (List.mem_of_mem_filter hl)
  fresh := by
    intro name' hname
    rw [rdb.fresh name' hname, ite_self]
  opened := by
    intro b hb
    obtain ⟨hb, hkept⟩ := List.mem_filter.mp hb
    rcases rdb.opened b hb with h | h
    · exact .inl h
    · right
      simp only [destroyed, h, decide_true, Bool.true_and, Bool.not_eq_true',
        decide_eq_false_iff_not, not_le] at hkept
      exact List.mem_filter.mpr ⟨h, by simpa using hkept⟩

end RollingDB

/-- A compaction that copies: the nodes that its trie iterators visit, those still to be
copied, and the batch that is not written yet. -/
structure Copying where
  height : UInt64
  source : DBLayer
  target : DBLayer
  nodes : List Hash
  todo : List Hash
  batch : List Write := []

inductive Phase where
  | idle
  | started (height : UInt64) (target : DBLayer)
  | copying (c : Copying)

def Phase.target : Phase → Option DBLayer
  | idle => none
  | started _ target => some target
  | copying c => some c.target

structure TaggedDB where
  db : RollingDB
  tag : DBLayer → LayerTag
  pending : List UInt64 := []
  phase : Phase := .idle
  sorted : db.layers.Pairwise fun l l' => l.name < l'.name
  rootApart : db.activeLayer ≠ .root ∧ .root ∉ db.layers
  target_open : ∀ t ∈ phase.target, t = db.activeLayer ∨ t ∈ db.layers

namespace TaggedDB

variable (cfg : RollingConfig) (s : TaggedDB)

theorem name_le_of_open {t : DBLayer} (ht : t ∈ s.phase.target) :
    t.name ≤ s.db.activeLayer.name := by
  rcases s.target_open t ht with h | h
  · exact le_of_eq (congrArg DBLayer.name h)
  · exact le_of_lt (s.db.older t h)

def addLayer : TaggedDB where
  db := s.db.addLayer
  tag := Function.update s.tag (.rolling (s.db.activeLayer.name + 1)) {}
  pending := s.pending
  phase := s.phase
  sorted := by
    refine List.pairwise_append.mpr ⟨s.sorted, List.pairwise_singleton _ _, ?_⟩
    intro l hl l' hl'
    rw [List.mem_singleton.mp hl']
    exact s.db.older l hl
  rootApart := by
    refine ⟨nofun, fun hroot => ?_⟩
    rcases List.mem_append.mp hroot with h | h
    · exact s.rootApart.2 h
    · exact s.rootApart.1 (List.mem_singleton.mp h).symm
  target_open := by
    intro t ht
    right
    rcases s.target_open t ht with h | h
    · exact List.mem_append_right _ (List.mem_singleton.mpr h)
    · exact List.mem_append_left _ h

def tagAt (height : UInt64) (stateRoot : Hash) : TaggedDB :=
  let s := { s with
    tag := Function.update s.tag s.db.activeLayer ((s.tag s.db.activeLayer).add height stateRoot) }
  let s := if isRollingHeight cfg height then s.addLayer else s
  if isCompactionHeight cfg height then { s with pending := s.pending ++ [height] } else s

def oldEnough (height : UInt64) (l : DBLayer) : Bool :=
  decide (cfg.retainedBlocks.toUInt64 + 10 < height - (s.tag l).height)

def sourceLayer (height : UInt64) : Option DBLayer :=
  s.db.layers.reverse.find? (s.oldEnough cfg height)

def start (height : UInt64) : TaggedDB :=
  match s.phase with
  | .idle =>
    if !cfg.statePruningEnabled || s.db.layers.isEmpty then
      { s with pending := s.pending.erase height }
    else
      { s with
        pending := s.pending.erase height
        phase := .started height s.db.activeLayer
        target_open := fun _ ht => .inl (Option.some.inj ht).symm }
  | _ => { s with pending := s.pending.erase height }

/-- The layer to cut off and the root of the finalized state at its tag, if there are such.
`finalized` is the state hash of the finalized block at a height. -/
def cut (finalized : UInt64 → Option Hash) (height : UInt64) : Option (DBLayer × Hash) := do
  let source ← s.sourceLayer cfg height
  if isRollingHeight cfg (s.tag source).height then
    let root ← finalized (s.tag source).height
    if root ∈ (s.tag source).stateRoots then some (source, root) else none
  else none

/-- The choice of the source.  `nodes` are the nodes that the iterators of `copyState` visit. -/
def choose (finalized : UInt64 → Option Hash) (nodes : Hash → List Hash) : TaggedDB :=
  match hphase : s.phase with
  | .started height target =>
    match s.cut cfg finalized height with
    | some (source, root) =>
      { s with
        phase := .copying ⟨height, source, target, nodes root, nodes root, []⟩
        target_open := fun t ht => s.target_open t (by rw [hphase]; exact ht) }
    | none => { s with phase := .idle, target_open := nofun }
  | _ => s

def copyNode : Option TaggedDB :=
  match hphase : s.phase with
  | .copying c =>
    match c.todo with
    | [] => none
    | h :: todo =>
      match s.db.get (nodeKey h) with
      | .error _ => none
      | .ok value => some
        { s with
          phase := .copying { c with
            todo := todo
            batch := c.batch ++ [.put (nodeKey h) value] }
          target_open := fun t ht => s.target_open t (by rw [hphase]; exact ht) }
  | _ => none

def flush : TaggedDB :=
  match hphase : s.phase with
  | .copying c =>
    { s with
      db := { s.db with
        content := c.batch.foldl (writeLayer · c.target) s.db.content
        fresh := by
          rw [foldl_writeLayer]
          exact s.db.fresh_update (s.name_le_of_open (by rw [hphase]; rfl)) _ }
      phase := .copying { c with batch := [] }
      target_open := fun t ht => s.target_open t (by rw [hphase]; exact ht) }
  | _ => s

def destroy (source : DBLayer) : TaggedDB where
  db := s.db.destroyUpTo source.name
  tag := s.tag
  pending := s.pending
  phase := .idle
  sorted := s.sorted.sublist List.filter_sublist
  rootApart := ⟨s.rootApart.1, fun h => s.rootApart.2 (List.mem_of_mem_filter h)⟩
  target_open := nofun

end TaggedDB

inductive WriteOp where
  | put (key value : Bytes)
  | delete (key : Bytes)
  | newBatch
  | batchAdd (batch : Nat) (w : Write)
  | batchWrite (batch : Nat)

def WriteOp.toOp : WriteOp → Op
  | put key value => .put key value
  | delete key => .delete key
  | newBatch => .newBatch
  | batchAdd i w => .batchAdd i w
  | batchWrite i => .batchWrite i

theorem RollingDB.layers_write (rdb : RollingDB) (op : WriteOp) :
    (rdb.step op.toOp).2.layers = rdb.layers ∧
      (rdb.step op.toOp).2.activeLayer = rdb.activeLayer := by
  cases op with
  | batchWrite i =>
    show (rdb.batchWrite i).layers = _ ∧ (rdb.batchWrite i).activeLayer = _
    unfold RollingDB.batchWrite
    split <;> exact ⟨rfl, rfl⟩
  | put | delete | newBatch | batchAdd => exact ⟨rfl, rfl⟩

namespace TaggedDB

def write (s : TaggedDB) (op : WriteOp) : TaggedDB where
  db := (s.db.step op.toOp).2
  tag := s.tag
  pending := s.pending
  phase := s.phase
  sorted := by
    rw [(s.db.layers_write op).1]
    exact s.sorted
  rootApart := by
    rw [(s.db.layers_write op).1, (s.db.layers_write op).2]
    exact s.rootApart
  target_open := by
    rw [(s.db.layers_write op).1, (s.db.layers_write op).2]
    exact s.target_open

end TaggedDB

/-- The steps between the choice of the source and the destruction of the layers, with the
writes of the other users restricted to the allowed ones. -/
inductive During (cfg : RollingConfig) (allowed : WriteOp → Prop) : TaggedDB → TaggedDB → Prop where
  | write (s : TaggedDB) (op : WriteOp) (h : allowed op) : During cfg allowed s (s.write op)
  | tag (s : TaggedDB) (height : UInt64) (stateRoot : Hash) :
    During cfg allowed s (s.tagAt cfg height stateRoot)
  | start (s : TaggedDB) (height : UInt64) : During cfg allowed s (s.start cfg height)
  | copy (s s' : TaggedDB) (h : s.copyNode = some s') : During cfg allowed s s'
  | flush (s : TaggedDB) : During cfg allowed s s.flush

/-- A whole compaction that destroys layers: the source is chosen in `s₀`, everything is copied
in `s`, and `s'` is the state afterwards. -/
structure Compacts (cfg : RollingConfig) (fmt : TrieFormat) (allowed : WriteOp → Prop)
    (s₀ s s' : TaggedDB) (height : UInt64) (source target : DBLayer) (root : Hash) : Prop where
  intro ::
  started : s₀.phase = .started height target
  run : ∃ finalized nodes, s₀.cut cfg finalized height = some (source, root) ∧
    -- the iterators visit every stored node
    (∀ h, StateNode fmt s₀.db.lookup root h → h ∈ nodes root) ∧
    Relation.ReflTransGen (During cfg allowed) (s₀.choose cfg finalized nodes) s ∧
    ∃ c, s.phase = .copying c ∧ c.todo = [] ∧ c.batch = [] ∧ s' = s.destroy c.source

namespace TaggedDB

variable (cfg : RollingConfig) {s s' : TaggedDB} {c : Copying}

theorem choose_eq {finalized : UInt64 → Option Hash} {nodes : Hash → List Hash}
    {height : UInt64} {source target : DBLayer} {root : Hash}
    (hphase : s.phase = .started height target)
    (hcut : s.cut cfg finalized height = some (source, root)) :
    (s.choose cfg finalized nodes).db = s.db ∧ (s.choose cfg finalized nodes).tag = s.tag ∧
      (s.choose cfg finalized nodes).phase =
        .copying ⟨height, source, target, nodes root, nodes root, []⟩ := by
  unfold choose
  split
  · next height' target' hphase' =>
    obtain ⟨rfl, rfl⟩ := Phase.started.inj (hphase.symm.trans hphase')
    rw [hcut]
    exact ⟨rfl, rfl, rfl⟩
  · next hnot => exact absurd hphase (hnot height target)

theorem copyNode_eq_some (h : s.copyNode = some s') (hc : s.phase = .copying c) :
    ∃ x todo value, c.todo = x :: todo ∧ s.db.get (nodeKey x) = .ok value ∧ s'.db = s.db ∧
      s'.tag = s.tag ∧ s'.phase =
        .copying { c with todo := todo, batch := c.batch ++ [.put (nodeKey x) value] } := by
  unfold copyNode at h
  split at h
  · next c' hphase =>
    obtain rfl : c = c' := Phase.copying.inj (hc.symm.trans hphase)
    split at h
    · cases h
    · next x todo htodo =>
      split at h
      · cases h
      · next value hvalue =>
        cases h
        exact ⟨x, todo, value, htodo, hvalue, rfl, rfl, rfl⟩
  · cases h

theorem flush_eq (hc : s.phase = .copying c) :
    s.flush.phase = .copying { c with batch := [] } ∧ s.flush.tag = s.tag ∧
      s.flush.db.layers = s.db.layers ∧ s.flush.db.activeLayer = s.db.activeLayer ∧
      s.flush.db.batches = s.db.batches ∧
      s.flush.db.content = c.batch.foldl (writeLayer · c.target) s.db.content := by
  unfold flush
  split
  · next c' hphase =>
    obtain rfl : c = c' := Phase.copying.inj (hc.symm.trans hphase)
    exact ⟨rfl, rfl, rfl, rfl, rfl, rfl⟩
  · next hnot => exact absurd hc (hnot c)

theorem start_eq (hc : s.phase = .copying c) (height : UInt64) :
    (s.start cfg height).db = s.db ∧ (s.start cfg height).tag = s.tag ∧
      (s.start cfg height).phase = s.phase := by
  unfold start
  split
  · next hidle => cases hc.symm.trans hidle
  · exact ⟨rfl, rfl, rfl⟩

theorem tagAt_eq (height : UInt64) (stateRoot : Hash) :
    (s.tagAt cfg height stateRoot).phase = s.phase ∧
      (s.tagAt cfg height stateRoot).db =
        (if isRollingHeight cfg height then s.db.addLayer else s.db) ∧
      ∀ l ∈ s.db.layers, (s.tagAt cfg height stateRoot).tag l = s.tag l := by
  have hactive : ∀ l ∈ s.db.layers, l ≠ s.db.activeLayer := by
    rintro l hl rfl
    exact lt_irrefl _ (s.db.older _ hl)
  have hnext : ∀ l ∈ s.db.layers, l ≠ .rolling (s.db.activeLayer.name + 1) := by
    rintro l hl rfl
    have hlt := s.db.older _ hl
    change s.db.activeLayer.name + 1 < s.db.activeLayer.name at hlt
    omega
  unfold tagAt
  cases isRollingHeight cfg height <;> cases isCompactionHeight cfg height
  · exact ⟨rfl, rfl, fun l hl => update_of_ne (hactive l hl) _ _⟩
  · exact ⟨rfl, rfl, fun l hl => update_of_ne (hactive l hl) _ _⟩
  · exact ⟨rfl, rfl, fun l hl => (update_of_ne (hnext l hl) _ _).trans
      (update_of_ne (hactive l hl) _ _)⟩
  · exact ⟨rfl, rfl, fun l hl => (update_of_ne (hnext l hl) _ _).trans
      (update_of_ne (hactive l hl) _ _)⟩

theorem of_cut {finalized : UInt64 → Option Hash} {height : UInt64} {source : DBLayer}
    {root : Hash} (h : s.cut cfg finalized height = some (source, root)) :
    source ∈ s.db.layers ∧ s.oldEnough cfg height source = true := by
  unfold cut at h
  obtain ⟨source', hfound, h⟩ := bind_eq_some_iff.mp h
  obtain rfl : source' = source := by
    split at h
    · obtain ⟨root', -, h⟩ := bind_eq_some_iff.mp h
      split at h
      · exact congrArg Prod.fst (some.inj h)
      · cases h
    · cases h
  exact ⟨mem_reverse.mp (mem_of_find?_eq_some hfound), find?_some hfound⟩

end TaggedDB

section Layers

variable {cfg : RollingConfig} {allowed : WriteOp → Prop}

/-- What a compaction in progress finds unchanged: its own layers and nodes, the older layers
and their tags; layers added since are newer than all of them. -/
structure Keeps (s₀ : TaggedDB) (c₀ : Copying) (s : TaggedDB) (c : Copying) : Prop where
  phase : s.phase = .copying c
  same : c.height = c₀.height ∧ c.source = c₀.source ∧ c.target = c₀.target ∧ c.nodes = c₀.nodes
  name_le : s₀.db.activeLayer.name ≤ s.db.activeLayer.name
  mem : ∀ l ∈ s.db.layers, l ∈ s₀.db.layers ∨ s₀.db.activeLayer.name ≤ l.name
  mem_old : ∀ l ∈ s₀.db.layers, l ∈ s.db.layers
  active : s₀.db.activeLayer = s.db.activeLayer ∨ s₀.db.activeLayer ∈ s.db.layers
  tag : ∀ l ∈ s₀.db.layers, s.tag l = s₀.tag l

theorem Keeps.refl {s : TaggedDB} {c : Copying} (hc : s.phase = .copying c) : Keeps s c s c :=
  ⟨hc, ⟨rfl, rfl, rfl, rfl⟩, le_rfl, fun _ hl => .inl hl, fun _ hl => hl, .inl rfl, fun _ _ => rfl⟩

theorem Keeps.of_layers {s₀ s s' : TaggedDB} {c₀ c c' : Copying} (h : Keeps s₀ c₀ s c)
    (hphase : s'.phase = .copying c')
    (hsame : c'.height = c.height ∧ c'.source = c.source ∧ c'.target = c.target ∧
      c'.nodes = c.nodes)
    (hlayers : s'.db.layers = s.db.layers) (hactive : s'.db.activeLayer = s.db.activeLayer)
    (htag : s'.tag = s.tag) : Keeps s₀ c₀ s' c' where
  phase := hphase
  same := ⟨hsame.1.trans h.same.1, hsame.2.1.trans h.same.2.1, hsame.2.2.1.trans h.same.2.2.1,
    hsame.2.2.2.trans h.same.2.2.2⟩
  name_le := hactive ▸ h.name_le
  mem := hlayers ▸ h.mem
  mem_old := hlayers ▸ h.mem_old
  active := hlayers ▸ hactive ▸ h.active
  tag := htag ▸ h.tag

variable {s₀ s : TaggedDB} {c₀ c : Copying}

theorem Keeps.tagAt (h : Keeps s₀ c₀ s c) (height : UInt64) (stateRoot : Hash) :
    Keeps s₀ c₀ (s.tagAt cfg height stateRoot) c := by
  obtain ⟨hphase, hdb, htag⟩ := s.tagAt_eq cfg height stateRoot
  have htags : ∀ l ∈ s₀.db.layers, (s.tagAt cfg height stateRoot).tag l = s₀.tag l :=
    fun l hl => (htag l (h.mem_old l hl)).trans (h.tag l hl)
  split at hdb
  · refine ⟨hphase.trans h.phase, h.same, ?_, ?_, ?_, ?_, htags⟩
    · rw [hdb]
      show s₀.db.activeLayer.name ≤ s.db.activeLayer.name + 1
      have := h.name_le
      omega
    · intro l hl
      rw [hdb] at hl
      rcases mem_append.mp hl with hl | hl
      · exact h.mem l hl
      · exact .inr (mem_singleton.mp hl ▸ h.name_le)
    · intro l hl
      rw [hdb]
      exact mem_append_left _ (h.mem_old l hl)
    · rw [hdb]
      rcases h.active with hactive | hactive
      · exact .inr (mem_append_right _ (mem_singleton.mpr hactive))
      · exact .inr (mem_append_left _ hactive)
  · refine ⟨hphase.trans h.phase, h.same, ?_, ?_, ?_, ?_, htags⟩
    · exact hdb ▸ h.name_le
    · exact hdb ▸ h.mem
    · exact hdb ▸ h.mem_old
    · exact hdb ▸ h.active

theorem Keeps.step {s₀ s s' : TaggedDB} (h : Keeps s₀ c₀ s c) (hstep : During cfg allowed s s') :
    ∃ c', Keeps s₀ c₀ s' c' := by
  cases hstep with
  | write op _ =>
    obtain ⟨hlayers, hactive⟩ := s.db.layers_write op
    exact ⟨c, h.of_layers h.phase ⟨rfl, rfl, rfl, rfl⟩ hlayers hactive rfl⟩
  | tag height stateRoot => exact ⟨c, h.tagAt height stateRoot⟩
  | start height =>
    obtain ⟨hdb, htag, hphase⟩ := s.start_eq cfg h.phase height
    exact ⟨c, h.of_layers (hphase.trans h.phase) ⟨rfl, rfl, rfl, rfl⟩ (by rw [hdb]) (by rw [hdb])
      htag⟩
  | copy _ hcopy =>
    obtain ⟨x, todo, value, -, -, hdb, htag, hphase⟩ := s.copyNode_eq_some hcopy h.phase
    exact ⟨_, h.of_layers hphase ⟨rfl, rfl, rfl, rfl⟩ (by rw [hdb]) (by rw [hdb]) htag⟩
  | flush =>
    obtain ⟨hphase, htag, hlayers, hactive, -, -⟩ := s.flush_eq h.phase
    exact ⟨_, h.of_layers hphase ⟨rfl, rfl, rfl, rfl⟩ hlayers hactive htag⟩

theorem Keeps.mem_allLayers (h : Keeps s₀ c₀ s c) {l : DBLayer} (hl : l ∈ s₀.db.allLayers) :
    l ∈ s.db.allLayers := by
  have hopen : ∀ l ∈ s.db.layers, l ∈ s.db.allLayers := fun l hl =>
    .tail _ (mem_append_left _ (mem_reverse.mpr hl))
  rcases mem_cons.mp hl with rfl | hl
  · rcases h.active with hactive | hactive
    · exact hactive ▸ .head _
    · exact hopen _ hactive
  · rcases mem_append.mp hl with hl | hl
    · exact hopen l (h.mem_old l (mem_reverse.mp hl))
    · exact .tail _ (mem_append_right _ hl)

theorem Keeps.run {c₀ : Copying} (hc : s₀.phase = .copying c₀)
    (hrun : Relation.ReflTransGen (During cfg allowed) s₀ s) : ∃ c, Keeps s₀ c₀ s c := by
  induction hrun with
  | refl => exact ⟨c₀, .refl hc⟩
  | tail _ hstep ih =>
    obtain ⟨c, hkeeps⟩ := ih
    exact hkeeps.step hstep

end Layers

section Retention

variable {cfg : RollingConfig} {fmt : TrieFormat} {allowed : WriteOp → Prop}

def Retired (cfg : RollingConfig) (height : UInt64) (t : LayerTag) : Prop :=
  (t.height.toNat : Int) ≤ height.toNat - cfg.retainedBlocks.toInt - 10

instance (cfg : RollingConfig) (height : UInt64) (t : LayerTag) :
    Decidable (Retired cfg height t) :=
  inferInstanceAs (Decidable ((t.height.toNat : Int) ≤ _))

/-- Tags that a history of blocks in order leaves: none above the height, and none below that
of an older layer. -/
structure InOrder (s : TaggedDB) (height : UInt64) : Prop where
  le_height : ∀ l ∈ s.db.layers, (s.tag l).height ≤ height
  nondecreasing : s.db.layers.Pairwise fun l l' => (s.tag l).height ≤ (s.tag l').height

variable {height : UInt64}

/-- The unsigned test is the intended one if the tag does not exceed the height, for a negative
number of retained blocks too. -/
theorem retired_of_oldEnough {s : TaggedDB} {l : DBLayer} (hle : (s.tag l).height ≤ height)
    (hold : s.oldEnough cfg height l = true) : Retired cfg height (s.tag l) := by
  have hlt := of_decide_eq_true hold
  rw [UInt64.lt_iff_toNat_lt, UInt64.toNat_sub_of_le _ _ hle, UInt64.toNat_add] at hlt
  rw [UInt64.le_iff_toNat_le] at hle
  change (cfg.retainedBlocks.toUInt64.toNat + 10) % 2 ^ 64 < _ at hlt
  unfold Retired
  show _ ≤ _ - cfg.retainedBlocks.toBitVec.toInt - 10
  have hbound : cfg.retainedBlocks.toUInt64.toNat < 2 ^ 64 := UInt64.toNat_lt _
  change cfg.retainedBlocks.toBitVec.toNat < 2 ^ 64 at hbound
  change (cfg.retainedBlocks.toBitVec.toNat + 10) % 2 ^ 64 < _ at hlt
  rw [BitVec.toInt_eq_toNat_cond]
  split <;> omega

theorem tag_le_of_name_le {s : TaggedDB} (h : InOrder s height) {l l' : DBLayer}
    (hl : l ∈ s.db.layers) (hl' : l' ∈ s.db.layers) (hname : l.name ≤ l'.name) :
    (s.tag l).height ≤ (s.tag l').height := by
  -- the two orders together, made symmetric so that the positions do not matter
  let R : DBLayer → DBLayer → Prop := fun a b =>
    (a.name ≤ b.name → (s.tag a).height ≤ (s.tag b).height) ∧
      (b.name ≤ a.name → (s.tag b).height ≤ (s.tag a).height)
  have hsymm : Std.Symm R := ⟨fun _ _ hab => ⟨hab.2, hab.1⟩⟩
  have hpair : s.db.layers.Pairwise R := by
    refine (s.sorted.and h.nondecreasing).imp ?_
    rintro a b ⟨hlt, hle⟩
    exact ⟨fun _ => hle, fun hge => absurd hge (not_le.mpr hlt)⟩
  exact (hpair.forall_of_forall (fun _ _ => ⟨fun _ => UInt64.le_refl _, fun _ => UInt64.le_refl _⟩)
    hl hl').1 hname

/-- A layer that the end of a compaction destroys was there, with the same tag, when the source
was chosen, and is the source or an older one. -/
theorem Compacts.of_destroyed {s₀ s s' : TaggedDB} {source target : DBLayer} {root : Hash}
    (h : Compacts cfg fmt allowed s₀ s s' height source target root) {l : DBLayer}
    (hl : s.db.destroyed source.name l = true) :
    l ∈ s₀.db.layers ∧ l.name ≤ source.name ∧ s.tag l = s₀.tag l := by
  obtain ⟨hstarted, finalized, nodes, hcut, -, hrun, -⟩ := h
  obtain ⟨hdb, htag, hphase⟩ := s₀.choose_eq cfg hstarted hcut
  obtain ⟨c, hkeeps⟩ := Keeps.run hphase hrun
  rw [RollingDB.destroyed, Bool.and_eq_true, decide_eq_true_iff, decide_eq_true_iff] at hl
  obtain ⟨hmem, hname⟩ := hl
  have hsource := (s₀.of_cut cfg hcut).1
  have hold : l ∈ s₀.db.layers := by
    rcases hkeeps.mem l hmem with hold | hnew
    · rwa [hdb] at hold
    · have := s₀.db.older source hsource
      rw [hdb] at hnew
      omega
  exact ⟨hold, hname, (hkeeps.tag l (hdb ▸ hold)).trans (congrFun htag l)⟩

theorem compaction_retired {s₀ s s' : TaggedDB} {height : UInt64} {source target : DBLayer}
    {root : Hash} (h : Compacts cfg fmt allowed s₀ s s' height source target root)
    (horder : InOrder s₀ height) :
    ∀ l, s.db.destroyed source.name l = true → Retired cfg height (s.tag l) := by
  intro l hl
  obtain ⟨hmem, hname, htag⟩ := h.of_destroyed hl
  obtain ⟨-, finalized, nodes, hcut, -⟩ := h
  obtain ⟨hsource, hold⟩ := s₀.of_cut cfg hcut
  have hretired : Retired cfg height (s₀.tag source) :=
    retired_of_oldEnough (horder.le_height source hsource) hold
  have hle : (s₀.tag l).height ≤ (s₀.tag source).height :=
    tag_le_of_name_le horder hmem hsource hname
  rw [htag]
  rw [UInt64.le_iff_toNat_le] at hle
  unfold Retired at hretired ⊢
  omega

end Retention

section Content

variable {V : Bytes → Bytes}

def Write.Puts (V : Bytes → Bytes) (w : Write) : Prop := w.value = some (V w.key)

/-- The writes of users that store under a key only the one value it stands for, as under the
hash of a node. -/
def Adds (V : Bytes → Bytes) : WriteOp → Prop
  | .put key value => value = V key
  | .delete _ => False
  | .newBatch => True
  | .batchAdd _ w => w.Puts V
  | .batchWrite _ => True

structure Addressed (V : Bytes → Bytes) (s : TaggedDB) : Prop where
  content : ∀ l k, ∀ v ∈ s.db.content l k, v = V k
  batches : ∀ b ∈ s.db.batches, ∀ w ∈ b.writes, w.Puts V
  batch : ∀ c, s.phase = .copying c → ∀ w ∈ c.batch, w.Puts V

def Grows (V : Bytes → Bytes) (t t' : DBLayer → Table) : Prop :=
  ∀ l k, t' l k = t l k ∨ t' l k = some (V k)

variable {k : Bytes}

theorem Grows.isSome {t t' : DBLayer → Table} (h : Grows V t t') {l : DBLayer}
    (hl : (t l k).isSome) :
    (t' l k).isSome := by
  rcases h l k with h | h
  · rwa [h]
  · rw [h]
    rfl

theorem Grows.refl (t : DBLayer → Table) : Grows V t t := fun _ _ => .inl rfl

theorem Grows.trans {t t' t'' : DBLayer → Table} (h : Grows V t t') (h' : Grows V t' t'') :
    Grows V t t'' := by
  intro l k
  rcases h' l k with h' | h'
  · rw [h']
    exact h l k
  · exact .inr h'

theorem Grows.content {t t' : DBLayer → Table} (h : Grows V t t')
    (ht : ∀ l k, ∀ v ∈ t l k, v = V k) : ∀ l k, ∀ v ∈ t' l k, v = V k := by
  intro l k v hv
  rcases h l k with h | h
  · exact ht l k v (h ▸ hv)
  · rw [h] at hv
    exact (some.inj hv).symm

variable {ws : List Write}

theorem effect_puts (h : ∀ w ∈ ws, w.Puts V) (key : Bytes) :
    effect ws key = none ∨ effect ws key = some (some (V key)) := by
  induction ws with
  | nil => exact .inl rfl
  | cons w ws ih =>
    rw [effect]
    rcases ih (fun w' hw' => h w' (mem_cons_of_mem w hw')) with hws | hws
    · rw [hws, none_or]
      split
      · next hkey =>
        have hput : w.value = some (V w.key) := h w mem_cons_self
        exact .inr (by rw [hput, hkey])
      · exact .inl rfl
    · exact .inr (by rw [hws]; rfl)

theorem effect_of_mem {w : Write} (hw : w ∈ ws) : (effect ws w.key).isSome := by
  induction ws with
  | nil => cases hw
  | cons w' ws ih =>
    rw [effect, isSome_or, Bool.or_eq_true]
    rcases mem_cons.mp hw with rfl | hw
    · exact .inr (by rw [if_pos rfl]; rfl)
    · exact .inl (ih hw)

theorem grows_foldl (h : ∀ w ∈ ws, w.Puts V) (layer : DBLayer) (t : DBLayer → Table) :
    Grows V t (ws.foldl (writeLayer · layer) t) := by
  intro l k
  rw [foldl_writeLayer]
  by_cases hl : l = layer
  · subst hl
    rw [update_self, foldl_apply]
    rcases effect_puts h k with he | he
    · exact .inl (by rw [he]; rfl)
    · exact .inr (by rw [he]; rfl)
  · exact .inl (by rw [update_of_ne hl])

theorem isSome_foldl (h : ∀ w ∈ ws, w.Puts V) (layer : DBLayer) (t : DBLayer → Table) {w : Write}
    (hw : w ∈ ws) : (ws.foldl (writeLayer · layer) t layer w.key).isSome := by
  rw [foldl_writeLayer, update_self, foldl_apply]
  rcases effect_puts h w.key with he | he
  · have hsome := effect_of_mem hw
    rw [he] at hsome
    cases hsome
  · rw [he]
    rfl

theorem forall_mem_modify {α : Type} {P : α → Prop} {xs : List α} (h : ∀ x ∈ xs, P x) (i : Nat)
    {g : α → α} (hg : ∀ x, P x → P (g x)) : ∀ x ∈ xs.modify i g, P x := by
  intro x hx
  obtain ⟨j, hj, rfl⟩ := mem_iff_getElem.mp hx
  rw [length_modify] at hj
  rw [getElem_modify]
  split
  · exact hg _ (h _ (getElem_mem hj))
  · exact h _ (getElem_mem hj)

variable {s : TaggedDB}

theorem addressed_write (h : Addressed V s) {op : WriteOp} (hop : Adds V op) :
    Grows V s.db.content (s.write op).db.content ∧ Addressed V (s.write op) := by
  cases op with
  | put key value =>
    obtain rfl : value = V key := hop
    have hputs : ∀ w ∈ [put key (V key)], w.Puts V := by
      intro w hw
      rw [mem_singleton.mp hw]
      rfl
    have hgrows : Grows V s.db.content (s.write (.put key (V key))).db.content :=
      grows_foldl hputs s.db.activeLayer s.db.content
    exact ⟨hgrows, hgrows.content h.content, h.batches, h.batch⟩
  | delete key => exact hop.elim
  | newBatch =>
    refine ⟨fun _ _ => .inl rfl, h.content, ?_, h.batch⟩
    intro b hb
    rcases mem_append.mp hb with hb | hb
    · exact h.batches b hb
    · rw [mem_singleton.mp hb]
      exact fun w hw => nomatch hw
  | batchAdd i w =>
    refine ⟨fun _ _ => .inl rfl, h.content, ?_, h.batch⟩
    refine forall_mem_modify (P := fun b : Batch => ∀ w ∈ b.writes, w.Puts V) h.batches i ?_
    intro b hb w' hw'
    rcases mem_append.mp hw' with hw' | hw'
    · exact hb w' hw'
    · exact mem_singleton.mp hw' ▸ hop
  | batchWrite i =>
    by_cases hi : i < s.db.batches.length
    · have hdb : (s.write (.batchWrite i)).db = s.db.commitBatch i s.db.batches[i]
        (getElem_mem hi) := dif_pos hi
      have hgrows : Grows V s.db.content (s.write (.batchWrite i)).db.content := by
        rw [hdb]
        exact grows_foldl (h.batches _ (getElem_mem hi)) _ _
      refine ⟨hgrows, hgrows.content h.content, ?_, h.batch⟩
      rw [hdb]
      exact forall_mem_modify (P := fun b : Batch => ∀ w ∈ b.writes, w.Puts V) h.batches i
        fun _ _ w hw => nomatch hw
    · have hdb : (s.write (.batchWrite i)).db = s.db := dif_neg hi
      refine ⟨fun _ _ => .inl (by rw [hdb]), ?_, ?_, h.batch⟩
      · exact hdb ▸ h.content
      · exact hdb ▸ h.batches

theorem addressed_tagAt (cfg : RollingConfig) (h : Addressed V s) (height : UInt64)
    (stateRoot : Hash) : Grows V s.db.content (s.tagAt cfg height stateRoot).db.content ∧
      Addressed V (s.tagAt cfg height stateRoot) := by
  obtain ⟨hphase, hdb, -⟩ := s.tagAt_eq cfg height stateRoot
  have hcontent : (s.tagAt cfg height stateRoot).db.content = s.db.content := by
    rw [hdb]
    split <;> rfl
  have hbatches : (s.tagAt cfg height stateRoot).db.batches = s.db.batches := by
    rw [hdb]
    split <;> rfl
  exact ⟨hcontent ▸ Grows.refl _, hcontent ▸ h.content, hbatches ▸ h.batches, hphase ▸ h.batch⟩

theorem addressed_start (cfg : RollingConfig) (h : Addressed V s) (height : UInt64) :
    Grows V s.db.content (s.start cfg height).db.content ∧
      Addressed V (s.start cfg height) := by
  unfold TaggedDB.start
  split
  · split
    · exact ⟨.refl _, h.content, h.batches, h.batch⟩
    · exact ⟨.refl _, h.content, h.batches, nofun⟩
  · exact ⟨.refl _, h.content, h.batches, h.batch⟩

variable {db : RollingDB}

theorem get_of_lookup (h : ∀ l k, ∀ v ∈ db.content l k, v = V k) (hk : (db.lookup k).isSome) :
    db.get k = .ok (V k) := by
  obtain ⟨v, hv⟩ := isSome_iff_exists.mp hk
  obtain ⟨l, -, hl⟩ := exists_of_findSome?_eq_some hv
  rw [RollingDB.get_eq]
  show Table.get db.lookup k = _
  rw [Table.get, hv, h l k v hl]

theorem get_of_addressed (h : ∀ l k, ∀ v ∈ db.content l k, v = V k) {l : DBLayer}
    (hl : l ∈ db.allLayers) (hk : (db.content l k).isSome) : db.get k = .ok (V k) := by
  refine get_of_lookup h ?_
  unfold RollingDB.lookup
  rw [findSome?_isSome_iff]
  exact ⟨l, hl, hk⟩

theorem value_of_get (h : ∀ l k, ∀ v ∈ db.content l k, v = V k) {k v : Bytes}
    (hget : db.get k = .ok v) : v = V k := by
  rw [RollingDB.get_eq] at hget
  change Table.get db.lookup k = .ok v at hget
  unfold Table.get at hget
  split at hget
  · next v' hv' =>
    cases hget
    obtain ⟨l, -, hl⟩ := exists_of_findSome?_eq_some hv'
    exact h l k v hl
  · cases hget

end Content

section Copy

variable {cfg : RollingConfig} {V : Bytes → Bytes}

/-- Every node is still to be copied, in the batch, or in the target layer. -/
def Copied (s : TaggedDB) (c : Copying) : Prop :=
  ∀ x ∈ c.nodes, x ∈ c.todo ∨ (∃ w ∈ c.batch, w.key = nodeKey x) ∨
    (s.db.content c.target (nodeKey x)).isSome

theorem Copied.grows {s s' : TaggedDB} {c : Copying} (h : Copied s c)
    (hgrows : Grows V s.db.content s'.db.content) : Copied s' c := by
  intro x hx
  rcases h x hx with htodo | hbatch | hcopied
  · exact .inl htodo
  · exact .inr (.inl hbatch)
  · exact .inr (.inr (hgrows.isSome hcopied))

theorem copied_step {s s' : TaggedDB} {c : Copying} (hphase : s.phase = .copying c)
    (h : Addressed V s) (hcopied : Copied s c) (hstep : During cfg (Adds V) s s') :
    Grows V s.db.content s'.db.content ∧ Addressed V s' ∧
      ∃ c', s'.phase = .copying c' ∧ Copied s' c' := by
  cases hstep with
  | write op hop =>
    obtain ⟨hgrows, haddressed⟩ := addressed_write h hop
    exact ⟨hgrows, haddressed, c, hphase, hcopied.grows hgrows⟩
  | tag height stateRoot =>
    obtain ⟨hgrows, haddressed⟩ := addressed_tagAt cfg h height stateRoot
    exact ⟨hgrows, haddressed, c, (s.tagAt_eq cfg height stateRoot).1.trans hphase,
      hcopied.grows hgrows⟩
  | start height =>
    obtain ⟨hgrows, haddressed⟩ := addressed_start cfg h height
    exact ⟨hgrows, haddressed, c, (s.start_eq cfg hphase height).2.2.trans hphase,
      hcopied.grows hgrows⟩
  | copy _ hcopy =>
    obtain ⟨x, todo, value, htodo, hget, hdb, -, hphase'⟩ := s.copyNode_eq_some hcopy hphase
    have hvalue : value = V (nodeKey x) := value_of_get h.content hget
    refine ⟨hdb ▸ Grows.refl _, ⟨hdb ▸ h.content, hdb ▸ h.batches, ?_⟩, _, hphase', ?_⟩
    · intro c' hc' w hw
      obtain rfl := Phase.copying.inj (hphase'.symm.trans hc')
      rcases mem_append.mp hw with hw | hw
      · exact h.batch c hphase w hw
      · rw [mem_singleton.mp hw, hvalue]
        rfl
    · intro y hy
      rcases hcopied y hy with hy | ⟨w, hw, hkey⟩ | hy
      · rw [htodo] at hy
        rcases mem_cons.mp hy with rfl | hy
        · exact .inr (.inl ⟨_, mem_append_right _ (mem_singleton_self _), rfl⟩)
        · exact .inl hy
      · exact .inr (.inl ⟨w, mem_append_left _ hw, hkey⟩)
      · exact .inr (.inr (by rw [hdb]; exact hy))
  | flush =>
    obtain ⟨hphase', -, -, -, hbatches, hcontent⟩ := s.flush_eq hphase
    have hputs := h.batch c hphase
    have hgrows : Grows V s.db.content s.flush.db.content := by
      rw [hcontent]
      exact grows_foldl hputs _ _
    refine ⟨hgrows, ⟨hgrows.content h.content, hbatches ▸ h.batches, ?_⟩, _, hphase', ?_⟩
    · intro c' hc' w hw
      obtain rfl := Phase.copying.inj (hphase'.symm.trans hc')
      cases hw
    · intro y hy
      rcases hcopied y hy with hy | ⟨w, hw, hkey⟩ | hy
      · exact .inl hy
      · right; right
        rw [hcontent, ← hkey]
        exact isSome_foldl hputs _ _ hw
      · exact .inr (.inr (hgrows.isSome hy))

theorem copied_run {s₀ s : TaggedDB} {c₀ : Copying} (hphase : s₀.phase = .copying c₀)
    (h : Addressed V s₀) (hcopied : Copied s₀ c₀)
    (hrun : Relation.ReflTransGen (During cfg (Adds V)) s₀ s) :
    Grows V s₀.db.content s.db.content ∧ Addressed V s ∧
      ∃ c, s.phase = .copying c ∧ Copied s c := by
  induction hrun with
  | refl => exact ⟨.refl _, h, c₀, hphase, hcopied⟩
  | tail _ hstep ih =>
    obtain ⟨hgrows, haddressed, c, hphase, hcopied⟩ := ih
    obtain ⟨hgrows', hrest⟩ := copied_step hphase haddressed hcopied hstep
    exact ⟨hgrows.trans hgrows', hrest⟩

def Stays (source : DBLayer) (db : RollingDB) (k : Bytes) : Prop :=
  ∃ l ∈ db.allLayers, (l = .root ∨ source.name < l.name) ∧ (db.content l k).isSome

theorem get_destroyUpTo {db : RollingDB} (h : ∀ l k, ∀ v ∈ db.content l k, v = V k)
    (hroot : .root ∉ db.layers) {source : DBLayer} {k : Bytes} (hk : Stays source db k) :
    (db.destroyUpTo source.name).get k = .ok (V k) ∧ db.get k = .ok (V k) := by
  obtain ⟨l, hl, hnewer, hsome⟩ := hk
  have hkept : db.destroyed source.name l = false := by
    rw [RollingDB.destroyed, Bool.and_eq_false_iff, decide_eq_false_iff_not,
      decide_eq_false_iff_not, not_le]
    rcases hnewer with rfl | hlt
    · exact .inl hroot
    · exact .inr hlt
  have hcontent : (db.destroyUpTo source.name).content l = db.content l := by
    show (if db.destroyed source.name l then _ else _) = _
    rw [hkept]
    rfl
  refine ⟨get_of_addressed (l := l) ?_ ?_ (hcontent ▸ hsome), get_of_addressed h hl hsome⟩
  · intro l' k' v hv
    refine h l' k' v ?_
    change v ∈ (if db.destroyed source.name l' then fun _ => none else db.content l') k' at hv
    split at hv
    · cases hv
    · exact hv
  · rcases mem_cons.mp hl with rfl | hl
    · exact .head _
    · refine .tail _ ?_
      rcases mem_append.mp hl with hl | hl
      · have hmem := mem_reverse.mp hl
        refine mem_append_left _ (mem_reverse.mpr (mem_filter.mpr ⟨hmem, ?_⟩))
        rcases hnewer with rfl | hlt
        · exact absurd hmem hroot
        · exact decide_eq_true hlt
      · exact mem_append_right _ hl

theorem compaction_keeps_state {fmt : TrieFormat} {s₀ s s' : TaggedDB} {height : UInt64}
    {source target : DBLayer} {root : Hash}
    (h : Compacts cfg fmt (Adds V) s₀ s s' height source target root) (haddressed : Addressed V s₀)
    (htarget : ∀ l ∈ s₀.db.layers, s₀.oldEnough cfg height l = true → l.name < target.name) :
    (∀ x, StateNode fmt s₀.db.lookup root x → s'.db.get (nodeKey x) = s₀.db.get (nodeKey x)) ∧
      (∀ k, Stays source s₀.db k → s'.db.get k = s₀.db.get k) ∧
        ∀ k, Stays source s.db k → s'.db.get k = s.db.get k := by
  obtain ⟨hstarted, finalized, nodes, hcut, hnodes, hrun, c, hc, htodo, hbatch, rfl⟩ := h
  obtain ⟨hdb, -, hphase⟩ := s₀.choose_eq cfg hstarted hcut
  obtain ⟨hsource, hold⟩ := s₀.of_cut cfg hcut
  have hlt : source.name < target.name := htarget source hsource hold
  obtain ⟨c', hkeeps⟩ := Keeps.run hphase hrun
  obtain rfl := Phase.copying.inj (hc.symm.trans hkeeps.phase)
  obtain ⟨-, hcsource, hctarget, hcnodes⟩ := hkeeps.same
  change c.target = target at hctarget
  -- in the chosen state everything is still to be copied
  have haddressed' : Addressed V (s₀.choose cfg finalized nodes) := by
    refine ⟨hdb ▸ haddressed.content, hdb ▸ haddressed.batches, ?_⟩
    intro c' hc' w hw
    obtain rfl := Phase.copying.inj (hphase.symm.trans hc')
    cases hw
  obtain ⟨hgrows, haddr, c', hc', hcopied⟩ :=
    copied_run hphase haddressed' (fun x hx => .inl hx) hrun
  obtain rfl := Phase.copying.inj (hc.symm.trans hc')
  have hafter : ∀ k, Stays source s.db k →
      (s.destroy c.source).db.get k = .ok (V k) ∧ s.db.get k = .ok (V k) := by
    intro k hk
    rw [show c.source = source from hcsource]
    exact get_destroyUpTo haddr.content s.rootApart.2 hk
  refine ⟨?_, ?_, ?_⟩
  · intro x hx
    have hcopy : (s.db.content target (nodeKey x)).isSome := by
      rcases hcopied x (hcnodes ▸ hnodes x hx) with hx | ⟨w, hw, -⟩ | hx
      · exact absurd (htodo ▸ hx) not_mem_nil
      · exact absurd (hbatch ▸ hw) not_mem_nil
      · exact hctarget ▸ hx
    have hopen : target ∈ s.db.allLayers := by
      refine hkeeps.mem_allLayers ?_
      rw [hdb]
      rcases s₀.target_open target (by rw [hstarted]; rfl) with h | h
      · exact h ▸ .head _
      · exact .tail _ (mem_append_left _ (mem_reverse.mpr h))
    rw [(hafter _ ⟨target, hopen, .inr hlt, hcopy⟩).1,
      get_of_lookup haddressed.content (isSome_of_stateNode hx)]
  · rintro k ⟨l, hl, hnewer, hsome⟩
    have hl' : l ∈ s.db.allLayers := hkeeps.mem_allLayers (by rw [hdb]; exact hl)
    have hsome' : (s.db.content l k).isSome := hgrows.isSome (by rw [hdb]; exact hsome)
    rw [(hafter k ⟨l, hl', hnewer, hsome'⟩).1, get_of_addressed haddressed.content hl hsome]
  · intro k hk
    obtain ⟨hget', hget⟩ := hafter k hk
    rw [hget', hget]

end Copy

/-- A root with one child, a leaf whose account has a storage trie of one node. -/
def smallFormat : TrieFormat :=
  ⟨fun e => if e = [7] then [2] else [], fun e => if e = [8] then [3] else []⟩

theorem eq_of_trieNode_small (hn : TrieNode smallFormat t root h) : h = root ∨ h = 2 := by
  cases hn with
  | root => exact .inl rfl
  | child _ _ hc _ =>
    rw [smallFormat, mem_ite_nil_right] at hc
    exact .inr (mem_singleton.mp hc.2)

def smallNodes : List Hash := [1, 2, 3]

theorem mem_of_stateNode_small (hn : StateNode smallFormat t 1 h) : h ∈ smallNodes := by
  rcases hn with hn | ⟨_, _, storage, _, _, hs, hn⟩
  · rcases eq_of_trieNode_small hn with rfl | rfl <;> simp [smallNodes]
  · rw [smallFormat, mem_ite_nil_right, mem_singleton] at hs
    rcases eq_of_trieNode_small hn with rfl | rfl <;> simp [smallNodes, hs.2]

def copyNodes (cfg : RollingConfig) (finalized : UInt64 → Option Hash) (s₀ : TaggedDB) :
    Option TaggedDB :=
  smallNodes.foldlM (fun s _ => s.copyNode) (s₀.choose cfg finalized fun _ => smallNodes)

def copied (cfg : RollingConfig) (finalized : UInt64 → Option Hash) (s₀ : TaggedDB) : TaggedDB :=
  ((copyNodes cfg finalized s₀).getD s₀).flush

def TaggedDB.copiedFrom (source : DBLayer) (s : TaggedDB) : Bool :=
  match s.phase with
  | .copying c => c.todo.isEmpty && c.batch.isEmpty && decide (c.source = source)
  | _ => false

theorem during_foldlM {cfg : RollingConfig} {allowed : WriteOp → Prop} {nodes : List Hash}
    {s s' : TaggedDB} (h : nodes.foldlM (fun s _ => s.copyNode) s = some s') :
    Relation.ReflTransGen (During cfg allowed) s s' := by
  induction nodes generalizing s with
  | nil =>
    cases h
    exact .refl
  | cons x nodes ih =>
    obtain ⟨s₁, hs₁, h⟩ := bind_eq_some_iff.mp h
    exact .head (.copy _ _ hs₁) (ih h)

theorem compacts_small {cfg : RollingConfig} {allowed : WriteOp → Prop} {s₀ : TaggedDB}
    {height : UInt64} {source target : DBLayer} {finalized : UInt64 → Option Hash}
    (hstarted : s₀.phase = .started height target)
    (hcut : s₀.cut cfg finalized height = some (source, 1))
    (hcopy : (copyNodes cfg finalized s₀).isSome)
    (hdone : (copied cfg finalized s₀).copiedFrom source = true) :
    Compacts cfg smallFormat allowed s₀ (copied cfg finalized s₀)
      ((copied cfg finalized s₀).destroy source) height source target 1 := by
  obtain ⟨s₁, hs₁⟩ := isSome_iff_exists.mp hcopy
  have hrun := (during_foldlM hs₁ : Relation.ReflTransGen (During cfg allowed) _ s₁)
  refine ⟨hstarted, finalized, fun _ => smallNodes, hcut, fun h => mem_of_stateNode_small, ?_, ?_⟩
  · rw [copied, hs₁]
    exact .tail hrun (.flush s₁)
  · unfold TaggedDB.copiedFrom at hdone
    split at hdone
    · next c hc =>
      rw [Bool.and_eq_true, Bool.and_eq_true, List.isEmpty_iff, List.isEmpty_iff,
        decide_eq_true_iff] at hdone
      exact ⟨c, hc, hdone.1.1, hdone.1.2, by rw [hdone.2]⟩
    · cases hdone

def hundredConfig : RollingConfig where
  rollingInterval := 100
  retainedBlocks := 2000
  interval_ne_zero := by decide

def overRoot (root : Table) : TaggedDB where
  db := { emptyDB with
    content := fun l => if l = .root then root else fun _ => none
    fresh := fun _ _ => if_neg nofun }
  tag := fun _ => {}
  sorted := .nil
  rootApart := ⟨nofun, List.not_mem_nil⟩
  target_open := by
    intro t ht
    cases ht

def finalizedAt (height : UInt64) : UInt64 → Option Hash :=
  fun h => if h = height then some 1 else none

def smallValues (key : Bytes) : Bytes :=
  if key = nodeKey 1 then [7] else if key = nodeKey 2 then [8] else [9]

def TaggedDB.writeNodes (s : TaggedDB) : TaggedDB :=
  ((s.write (.put (nodeKey 1) [7])).write (.put (nodeKey 2) [8])).write (.put (nodeKey 3) [9])

def agedState : TaggedDB :=
  (((overRoot fun _ => none).writeNodes.tagAt hundredConfig 50 1).tagAt hundredConfig 2170 3).start
    hundredConfig 2170

def agedCopied : TaggedDB := copied hundredConfig (finalizedAt 50) agedState

theorem compacts_agedState (allowed : WriteOp → Prop) :
    Compacts hundredConfig smallFormat allowed agedState agedCopied
      (agedCopied.destroy (.rolling 1)) 2170 (.rolling 1) (.rolling 2) 1 :=
  compacts_small rfl (by decide) (by decide +kernel) (by decide)

theorem addressed_agedState : Addressed smallValues agedState := by
  have hempty : Addressed smallValues (overRoot fun _ => none) := by
    refine ⟨?_, fun _ hb => absurd hb not_mem_nil, nofun⟩
    intro l k v hv
    change v ∈ (if l = .root then fun _ => none else fun _ => none : Table) k at hv
    rw [ite_self] at hv
    cases hv
  have hadds : Adds smallValues (.put (nodeKey 1) [7]) ∧ Adds smallValues (.put (nodeKey 2) [8]) ∧
      Adds smallValues (.put (nodeKey 3) [9]) := by
    show _ = smallValues _ ∧ _ = smallValues _ ∧ _ = smallValues _
    decide
  have hroot := (addressed_write hempty hadds.1).2
  have hleaf := (addressed_write hroot hadds.2.1).2
  have hput := (addressed_write hleaf hadds.2.2).2
  have hfifty := (addressed_tagAt hundredConfig hput 50 1).2
  have htagged := (addressed_tagAt hundredConfig hfifty 2170 3).2
  exact (addressed_start hundredConfig htagged 2170).2

theorem compaction_retired_aged :
    InOrder agedState 2170 ∧ agedCopied.db.destroyed 1 (.rolling 1) = true ∧
      Retired hundredConfig 2170 (agedCopied.tag (.rolling 1)) := by
  have horder : InOrder agedState 2170 := ⟨by decide, by decide⟩
  have hdestroyed : agedCopied.db.destroyed 1 (.rolling 1) = true := by decide
  exact ⟨horder, hdestroyed,
    compaction_retired (compacts_agedState fun _ => True) horder (.rolling 1) hdestroyed⟩

def lateState : TaggedDB :=
  ((((overRoot fun _ => none).writeNodes.tagAt hundredConfig 50 1).tagAt hundredConfig 150 1).tagAt
    hundredConfig 70 2).start hundredConfig 70

def lateCopied : TaggedDB := copied hundredConfig (finalizedAt 150) lateState

/-- The unsigned age of a layer that is tagged above the height is huge. -/
theorem later_layer_destroyed :
    Compacts hundredConfig smallFormat (fun _ => True) lateState lateCopied
        (lateCopied.destroy (.rolling 2)) 70 (.rolling 2) (.rolling 3) 1 ∧
      lateCopied.db.destroyed 2 (.rolling 2) = true ∧
      ¬ Retired hundredConfig 70 (lateCopied.tag (.rolling 2)) :=
  ⟨compacts_small rfl (by decide +kernel) (by decide +kernel) (by decide +kernel), by decide,
    by decide +kernel⟩

theorem compaction_keeps_state_aged :
    Compacts hundredConfig smallFormat (Adds smallValues) agedState agedCopied
        (agedCopied.destroy (.rolling 1)) 2170 (.rolling 1) (.rolling 2) 1 ∧
      StateNode smallFormat agedState.db.lookup 1 3 ∧
      ∀ x, StateNode smallFormat agedState.db.lookup 1 x →
        (agedCopied.destroy (.rolling 1)).db.get (nodeKey x) = agedState.db.get (nodeKey x) := by
  have hleaf : TrieNode smallFormat agedState.db.lookup 1 2 :=
    .child (.root (by decide +kernel)) (show _ = some [7] by decide) (by decide) (by decide)
  exact ⟨compacts_agedState _,
    .inr ⟨2, [8], 3, hleaf, by decide +kernel, by decide +kernel, .root (by decide)⟩,
    (compaction_keeps_state (compacts_agedState _) addressed_agedState (by decide)).1⟩

def overtakenState : TaggedDB :=
  ((((overRoot fun _ => none).tagAt hundredConfig 50 2).writeNodes.tagAt hundredConfig 70 3).start
    hundredConfig 70).tagAt hundredConfig 150 1

def rewrittenState : TaggedDB :=
  ((((overRoot fun k => if k = [1] then some [5] else none).writeNodes.write (.put [1] [6])).tagAt
    hundredConfig 50 1).tagAt hundredConfig 2170 3).start hundredConfig 2170

def overtakenCopied : TaggedDB := copied hundredConfig (finalizedAt 150) overtakenState

def rewrittenCopied : TaggedDB := copied hundredConfig (finalizedAt 50) rewrittenState

/-- The nodes that were copied into the source itself are destroyed with it, and a value of the
root layer comes back when the layer that replaced it is destroyed. -/
theorem compaction_loses :
    (Compacts hundredConfig smallFormat (fun _ => True) overtakenState overtakenCopied
        (overtakenCopied.destroy (.rolling 2)) 70 (.rolling 2) (.rolling 2) 1 ∧
      StateNode smallFormat overtakenState.db.lookup 1 1 ∧
      overtakenState.db.get (nodeKey 1) = .ok [7] ∧
      (overtakenCopied.destroy (.rolling 2)).db.get (nodeKey 1) = .error .keyNotFound) ∧
    (Compacts hundredConfig smallFormat (fun _ => True) rewrittenState rewrittenCopied
        (rewrittenCopied.destroy (.rolling 1)) 2170 (.rolling 1) (.rolling 2) 1 ∧
      (rewrittenState.db.content .root [1]).isSome ∧
      rewrittenState.db.get [1] = .ok [6] ∧
      (rewrittenCopied.destroy (.rolling 1)).db.get [1] = .ok [5]) := by
  refine ⟨⟨compacts_small rfl (by decide) (by decide) (by decide), .inl (.root ?_), ?_⟩,
    compacts_small rfl (by decide) (by decide) (by decide), ?_⟩
  all_goals decide

end ThetaSubchain.Rolling
