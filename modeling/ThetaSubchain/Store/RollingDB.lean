/-
The rolling database (store/rollingdb/{rollingdb,layer,rawdb}.go): a stack of leveldb databases that
is written at the top and read from the top down.

`flat` is the one map that a stack stands for.  `Has` asks the active layer only, and a batch writes
into the layer that was active when it was opened.
-/
import ThetaSubchain.Core.Types

namespace ThetaSubchain.Rolling

open Function List

abbrev Table := Bytes → Option Bytes

inductive DbError where
  | keyNotFound
deriving DecidableEq, Repr

def Table.get (t : Table) (key : Bytes) : Except DbError Bytes :=
  match t key with
  | some value => .ok value
  | none => .error .keyNotFound

def Table.has (t : Table) (key : Bytes) : Except DbError Bool := .ok (t key).isSome

inductive Write where
  | put (key value : Bytes)
  | delete (key : Bytes)
deriving DecidableEq, Repr

namespace Write

def key : Write → Bytes
  | put key _ => key
  | delete key => key

def value : Write → Option Bytes
  | put _ value => some value
  | delete _ => none

def apply (t : Table) (w : Write) : Table := Function.update t w.key w.value

def effect : List Write → Bytes → Option (Option Bytes)
  | [], _ => none
  | w :: ws, key => (effect ws key).or (if w.key = key then some w.value else none)

theorem foldl_apply (ws : List Write) (t : Table) (key : Bytes) :
    ws.foldl apply t key = (effect ws key).getD (t key) := by
  induction ws generalizing t with
  | nil => rfl
  | cons w ws ih =>
    rw [foldl_cons, ih, effect]
    cases effect ws key with
    | some v => rfl
    | none =>
      show apply t w key = (if w.key = key then some w.value else none).getD (t key)
      by_cases hkey : w.key = key
      · rw [if_pos hkey, ← hkey]
        exact update_self ..
      · rw [if_neg hkey]
        exact update_of_ne (Ne.symm hkey) ..

theorem exists_of_effect {ws : List Write} {key : Bytes} {v : Option Bytes}
    (h : effect ws key = some v) : ∃ w ∈ ws, w.key = key := by
  induction ws with
  | nil => cases h
  | cons w ws ih =>
    by_cases hkey : w.key = key
    · exact ⟨w, .head _, hkey⟩
    · rw [effect, if_neg hkey, Option.or_none] at h
      obtain ⟨w', hw', hkey'⟩ := ih h
      exact ⟨w', mem_cons_of_mem w hw', hkey'⟩

end Write

inductive DBLayer where
  | root
  | rolling (name : Int)
deriving DecidableEq, Repr

def DBLayer.name : DBLayer → Int
  | root => 0
  | rolling name => name

structure Batch where
  layer : DBLayer
  writes : List Write := []

def writeLayer (content : DBLayer → Table) (layer : DBLayer) (w : Write) : DBLayer → Table :=
  Function.update content layer (w.apply (content layer))

theorem foldl_writeLayer (content : DBLayer → Table) (layer : DBLayer) (ws : List Write) :
    ws.foldl (writeLayer · layer) content =
      update content layer (ws.foldl Write.apply (content layer)) := by
  induction ws generalizing content with
  | nil => exact (update_eq_self ..).symm
  | cons w ws ih =>
    rw [foldl_cons, ih, writeLayer, update_self, update_idem,
      foldl_cons]

/-- `RollingDB`.  The active layer may be the root layer itself. -/
structure RollingDB where
  content : DBLayer → Table
  layers : List DBLayer
  activeLayer : DBLayer
  batches : List Batch := []
  older : ∀ l ∈ layers, l.name < activeLayer.name
  fresh : ∀ name, activeLayer.name < name → content (.rolling name) = fun _ => none
  opened : ∀ b ∈ batches, b.layer = activeLayer ∨ b.layer ∈ layers

namespace RollingDB

variable (rdb : RollingDB)

def allLayers : List DBLayer := rdb.activeLayer :: (rdb.layers.reverse ++ [.root])

def firstAnswer {α : Type} (ask : DBLayer → Except DbError α) : List DBLayer → Except DbError α
  | [] => .error .keyNotFound
  | l :: ls =>
    match ask l with
    | .ok result => .ok result
    | .error _ => firstAnswer ask ls

variable (key : Bytes)

def get : Except DbError Bytes :=
  firstAnswer (fun l => (rdb.content l).get key) rdb.allLayers

def has : Except DbError Bool :=
  firstAnswer (fun l => (rdb.content l).has key) rdb.allLayers

theorem name_le_of_opened {b : Batch} (hb : b ∈ rdb.batches) :
    b.layer.name ≤ rdb.activeLayer.name := by
  rcases rdb.opened b hb with h | h
  · exact le_of_eq (congrArg DBLayer.name h)
  · exact le_of_lt (rdb.older _ h)

theorem fresh_update {layer : DBLayer} (hle : layer.name ≤ rdb.activeLayer.name) (t : Table)
    (name : Int) (hname : rdb.activeLayer.name < name) :
    update rdb.content layer t (.rolling name) = fun _ => none := by
  have hne : DBLayer.rolling name ≠ layer := by
    rintro rfl
    exact absurd hname (not_lt.mpr hle)
  rw [update_of_ne hne]
  exact rdb.fresh name hname

def put (value : Bytes) : RollingDB :=
  { rdb with
    content := writeLayer rdb.content rdb.activeLayer (.put key value)
    fresh := rdb.fresh_update le_rfl _ }

def deleteFrom (ls : List DBLayer) (content : DBLayer → Table) : DBLayer → Table :=
  ls.foldl (fun c l => writeLayer c l (.delete key)) content

theorem deleteFrom_apply (ls : List DBLayer) (content : DBLayer → Table) (l : DBLayer) (k : Bytes) :
    deleteFrom key ls content l k = if l ∈ ls ∧ k = key then none else content l k := by
  induction ls generalizing content with
  | nil => simp [deleteFrom]
  | cons l' ls ih =>
    show deleteFrom key ls (writeLayer content l' (.delete key)) l k = _
    have hwrite : writeLayer content l' (.delete key) l k =
        if l = l' ∧ k = key then none else content l k := by
      by_cases hl : l = l'
      · subst hl
        simp [writeLayer, Write.apply, Write.key, Write.value, update_apply]
      · simp [writeLayer, hl]
    rw [ih, hwrite]
    by_cases hk : k = key <;> by_cases hl : l = l' <;> by_cases hls : l ∈ ls <;> simp [hk, hl, hls]

def delete : RollingDB :=
  { rdb with
    content := deleteFrom key rdb.allLayers rdb.content
    fresh := by
      intro name hname
      funext k
      rw [deleteFrom_apply, rdb.fresh name hname, ite_self] }

def newBatch : RollingDB :=
  { rdb with
    batches := rdb.batches ++ [{ layer := rdb.activeLayer }]
    opened := by
      intro b hb
      rcases List.mem_append.mp hb with hb | hb
      · exact rdb.opened b hb
      · exact .inl (congrArg Batch.layer (List.mem_singleton.mp hb)) }

theorem opened_modify (i : Nat) (g : List Write → List Write) :
    ∀ b ∈ rdb.batches.modify i (fun b => { b with writes := g b.writes }),
      b.layer = rdb.activeLayer ∨ b.layer ∈ rdb.layers := by
  intro b hb
  obtain ⟨j, hj, rfl⟩ := mem_iff_getElem.mp hb
  rw [length_modify] at hj
  have hlayer : (rdb.batches.modify i fun b => { b with writes := g b.writes })[j].layer =
      rdb.batches[j].layer := by
    rw [getElem_modify]
    split <;> rfl
  rw [hlayer]
  exact rdb.opened _ (getElem_mem hj)

def batchAdd (i : Nat) (w : Write) : RollingDB :=
  { rdb with
    batches := rdb.batches.modify i fun b => { b with writes := b.writes ++ [w] }
    opened := rdb.opened_modify i (· ++ [w]) }

def commitBatch (i : Nat) (b : Batch) (hb : b ∈ rdb.batches) : RollingDB :=
  { rdb with
    content := b.writes.foldl (writeLayer · b.layer) rdb.content
    batches := rdb.batches.modify i fun b => { b with writes := [] }
    fresh := by
      rw [foldl_writeLayer]
      exact rdb.fresh_update (rdb.name_le_of_opened hb) _
    opened := rdb.opened_modify i fun _ => [] }

def batchWrite (i : Nat) : RollingDB :=
  if h : i < rdb.batches.length then rdb.commitBatch i rdb.batches[i] (List.getElem_mem h)
  else rdb

def addLayer : RollingDB :=
  { rdb with
    layers := rdb.layers ++ [rdb.activeLayer]
    activeLayer := .rolling (rdb.activeLayer.name + 1)
    older := by
      intro l hl
      show l.name < rdb.activeLayer.name + 1
      rcases List.mem_append.mp hl with hl | hl
      · have := rdb.older l hl
        omega
      · rw [List.mem_singleton.mp hl]
        omega
    fresh := by
      intro name hname
      have : rdb.activeLayer.name + 1 < name := hname
      exact rdb.fresh name (by omega)
    opened := by
      intro b hb
      refine .inr (List.mem_append.mpr ?_)
      rcases rdb.opened b hb with h | h
      · exact .inr (List.mem_singleton.mpr h)
      · exact .inl h }

end RollingDB

structure FlatDB where
  table : Table
  batches : List (List Write) := []

namespace FlatDB

variable (db : FlatDB)

def batchWrite (i : Nat) : FlatDB :=
  match db.batches[i]? with
  | none => db
  | some ws => ⟨ws.foldl Write.apply db.table, db.batches.modify i fun _ => []⟩

end FlatDB

inductive Op where
  | put (key value : Bytes)
  | get (key : Bytes)
  | has (key : Bytes)
  | delete (key : Bytes)
  | newBatch
  | batchAdd (batch : Nat) (w : Write)
  | batchWrite (batch : Nat)
  | addLayer

inductive Answer where
  | done
  | value (result : Except DbError Bytes)
  | found (result : Except DbError Bool)
deriving DecidableEq

def RollingDB.step (rdb : RollingDB) : Op → Answer × RollingDB
  | .put key value => (.done, rdb.put key value)
  | .get key => (.value (rdb.get key), rdb)
  | .has key => (.found (rdb.has key), rdb)
  | .delete key => (.done, rdb.delete key)
  | .newBatch => (.done, rdb.newBatch)
  | .batchAdd i w => (.done, rdb.batchAdd i w)
  | .batchWrite i => (.done, rdb.batchWrite i)
  | .addLayer => (.done, rdb.addLayer)

def FlatDB.step (db : FlatDB) : Op → Answer × FlatDB
  | .put key value => (.done, { db with table := Write.apply db.table (.put key value) })
  | .get key => (.value (db.table.get key), db)
  | .has key => (.found (db.table.has key), db)
  | .delete key => (.done, { db with table := Write.apply db.table (.delete key) })
  | .newBatch => (.done, { db with batches := db.batches ++ [[]] })
  | .batchAdd i w => (.done, { db with batches := db.batches.modify i (· ++ [w]) })
  | .batchWrite i => (.done, db.batchWrite i)
  | .addLayer => (.done, db)

def RollingDB.answers (rdb : RollingDB) : List Op → List Answer
  | [] => []
  | op :: ops => (rdb.step op).1 :: (rdb.step op).2.answers ops

def FlatDB.answers (db : FlatDB) : List Op → List Answer
  | [] => []
  | op :: ops => (db.step op).1 :: (db.step op).2.answers ops

/-! ## The map a stack of layers stands for -/

namespace RollingDB

variable (rdb : RollingDB)

def lookup (key : Bytes) : Option Bytes := rdb.allLayers.findSome? fun l => rdb.content l key

def flat : FlatDB := ⟨rdb.lookup, rdb.batches.map Batch.writes⟩

def newer (layer : DBLayer) : List DBLayer := rdb.allLayers.takeWhile (· ≠ layer)

/-- What writing a value, or a deletion, into the layer asks of the other layers: no newer
one holds a key that is put, and none at all holds a key that is deleted. -/
def Exposes (layer : DBLayer) (key : Bytes) : Option Bytes → Prop
  | some _ => ∀ l ∈ rdb.newer layer, rdb.content l key = none
  | none => ∀ l ∈ rdb.allLayers, l ≠ layer → rdb.content l key = none

instance (layer : DBLayer) (key : Bytes) : (v : Option Bytes) → Decidable (rdb.Exposes layer key v)
  | some _ => inferInstanceAs (Decidable (∀ l ∈ rdb.newer layer, rdb.content l key = none))
  | none =>
    inferInstanceAs (Decidable (∀ l ∈ rdb.allLayers, l ≠ layer → rdb.content l key = none))

def Exposed (b : Batch) : Prop :=
  ∀ w ∈ b.writes, ∀ v ∈ Write.effect b.writes w.key, rdb.Exposes b.layer w.key v

instance (b : Batch) : Decidable (rdb.Exposed b) :=
  inferInstanceAs (Decidable (∀ w ∈ b.writes, ∀ v ∈ Write.effect b.writes w.key, _))

def Transparent : Op → Prop
  | .has key =>
    (rdb.content rdb.activeLayer key).isSome ∨ ∀ l ∈ rdb.allLayers, rdb.content l key = none
  | .batchWrite i => ∀ b ∈ rdb.batches[i]?, rdb.Exposed b
  | _ => True

instance : (op : Op) → Decidable (rdb.Transparent op)
  | .has key =>
    inferInstanceAs (Decidable ((rdb.content rdb.activeLayer key).isSome ∨
      ∀ l ∈ rdb.allLayers, rdb.content l key = none))
  | .batchWrite i => inferInstanceAs (Decidable (∀ b ∈ rdb.batches[i]?, rdb.Exposed b))
  | .put .. | .get _ | .delete _ | .newBatch | .batchAdd .. | .addLayer =>
    inferInstanceAs (Decidable True)

def AllTransparent (rdb : RollingDB) : List Op → Prop
  | [] => True
  | op :: ops => rdb.Transparent op ∧ (rdb.step op).2.AllTransparent ops

instance decidableAllTransparent (rdb : RollingDB) :
    (ops : List Op) → Decidable (rdb.AllTransparent ops)
  | [] => inferInstanceAs (Decidable True)
  | op :: ops =>
    have := decidableAllTransparent (rdb.step op).2 ops
    inferInstanceAs (Decidable (rdb.Transparent op ∧ (rdb.step op).2.AllTransparent ops))

variable {rdb}

theorem firstAnswer_get (content : DBLayer → Table) (key : Bytes) (ls : List DBLayer) :
    firstAnswer (fun l => (content l).get key) ls =
      Table.get (fun k => ls.findSome? fun l => content l k) key := by
  induction ls with
  | nil => rfl
  | cons l ls ih =>
    rw [firstAnswer, ih]
    simp only [Table.get, findSome?_cons]
    cases content l key <;> rfl

theorem get_eq (key : Bytes) : rdb.get key = rdb.flat.table.get key :=
  firstAnswer_get rdb.content key rdb.allLayers

theorem has_eq (key : Bytes) :
    rdb.has key = .ok (rdb.content rdb.activeLayer key).isSome := rfl

theorem has_eq_flat {key : Bytes} (h : rdb.Transparent (.has key)) :
    rdb.has key = rdb.flat.table.has key := by
  show rdb.has key = .ok (rdb.lookup key).isSome
  rw [has_eq]
  congr 1
  rcases h with h | h
  · obtain ⟨v, hv⟩ := Option.isSome_iff_exists.mp h
    rw [lookup, allLayers, findSome?_cons, hv]
  · have hnone : rdb.lookup key = none := findSome?_eq_none_iff.mpr h
    rw [hnone, h rdb.activeLayer mem_cons_self]

theorem lookup_put (key value k : Bytes) :
    (rdb.put key value).lookup k = Write.apply rdb.lookup (.put key value) k := by
  by_cases hk : k = key
  · subst hk
    have htop : (rdb.put k value).content rdb.activeLayer k = some value := by
      simp [put, writeLayer, Write.apply, Write.key, Write.value]
    have hlookup : (rdb.put k value).lookup k = some value := by
      show (rdb.activeLayer :: (rdb.layers.reverse ++ [.root])).findSome?
        (fun l => (rdb.put k value).content l k) = some value
      rw [findSome?_cons, htop]
    rw [hlookup]
    exact (update_self (f := rdb.lookup) ..).symm
  · have hsame : (fun l => (rdb.put key value).content l k) = fun l => rdb.content l k := by
      funext l
      by_cases hl : l = rdb.activeLayer
      · subst hl
        simp [put, writeLayer, Write.apply, Write.key, update_of_ne hk]
      · simp [put, writeLayer, update_of_ne hl]
    show rdb.allLayers.findSome? _ = update rdb.lookup key _ k
    rw [hsame, update_of_ne hk]
    rfl

theorem lookup_delete (key k : Bytes) :
    (rdb.delete key).lookup k = Write.apply rdb.lookup (.delete key) k := by
  show rdb.allLayers.findSome? (fun l => deleteFrom key rdb.allLayers rdb.content l k) =
    update rdb.lookup key none k
  simp only [deleteFrom_apply, update_apply]
  by_cases hk : k = key
  · rw [if_pos hk, findSome?_eq_none_iff]
    intro l hl
    rw [if_pos ⟨hl, hk⟩]
  · simp only [hk, and_false, if_false]
    rfl

theorem lookup_addLayer (k : Bytes) : rdb.addLayer.lookup k = rdb.lookup k := by
  have hempty : rdb.content (.rolling (rdb.activeLayer.name + 1)) k = none := by
    rw [rdb.fresh _ (by omega)]
  show (DBLayer.rolling (rdb.activeLayer.name + 1) ::
    ((rdb.layers ++ [rdb.activeLayer]).reverse ++ [.root])).findSome? (rdb.content · k) = _
  rw [findSome?_cons, hempty, reverse_append]
  rfl

theorem allLayers_split {layer : DBLayer} (h : layer ∈ rdb.allLayers) :
    layer ∉ rdb.newer layer ∧ ∃ rest, rdb.allLayers = rdb.newer layer ++ layer :: rest := by
  obtain ⟨before, rest, hsplit, hnot⟩ := eq_append_cons_of_mem h
  have hnewer : rdb.newer layer = before := by
    have hpos : ∀ l ∈ before, decide (l ≠ layer) = true := by
      intro l hl
      exact decide_eq_true (ne_of_mem_of_not_mem hl hnot)
    rw [newer, hsplit, takeWhile_append_of_pos hpos, takeWhile_cons_of_neg (by simp),
      append_nil]
  rw [hnewer]
  exact ⟨hnot, rest, hsplit⟩

theorem layer_mem_allLayers {b : Batch} (hb : b ∈ rdb.batches) : b.layer ∈ rdb.allLayers := by
  rcases rdb.opened b hb with h | h
  · rw [h]
    exact .head _
  · simp [allLayers, h]

theorem findSome_batch {b : Batch} (hb : b ∈ rdb.batches) (hexposed : rdb.Exposed b) (k : Bytes) :
    (rdb.allLayers.findSome? fun l =>
        update rdb.content b.layer
          (b.writes.foldl Write.apply (rdb.content b.layer)) l k) =
      b.writes.foldl Write.apply rdb.lookup k := by
  set content' := update rdb.content b.layer
    (b.writes.foldl Write.apply (rdb.content b.layer)) with hcontent
  have hown : content' b.layer k = (Write.effect b.writes k).getD (rdb.content b.layer k) := by
    rw [hcontent, update_self, Write.foldl_apply]
  have hother : ∀ l, l ≠ b.layer → content' l k = rdb.content l k := by
    intro l hl
    rw [hcontent, update_of_ne hl]
  rw [Write.foldl_apply]
  cases heffect : Write.effect b.writes k with
  | none =>
    have hsame : ∀ l, content' l k = rdb.content l k := by
      intro l
      by_cases hl : l = b.layer
      · rw [hl, hown, heffect]
        rfl
      · exact hother l hl
    simp only [hsame]
    rfl
  | some v =>
    obtain ⟨w, hw, rfl⟩ := Write.exists_of_effect heffect
    have hcond := hexposed w hw v heffect
    rw [heffect] at hown
    cases v with
    | some value =>
      -- The newer layers pass the lookup on to the layer of the batch.
      obtain ⟨hnot, rest, hsplit⟩ := allLayers_split (layer_mem_allLayers hb)
      rw [hsplit, findSome?_append, findSome?_eq_none_iff.mpr, Option.none_or,
        findSome?_cons, hown]
      · rfl
      · intro l hl
        rw [hother l (ne_of_mem_of_not_mem hl hnot)]
        exact hcond l hl
    | none =>
      rw [Option.getD_some, findSome?_eq_none_iff]
      intro l hl
      by_cases hlayer : l = b.layer
      · rw [hlayer, hown]
        rfl
      · rw [hother l hlayer]
        exact hcond l hl hlayer

theorem map_writes_modify (bs : List Batch) (i : Nat) (g : List Write → List Write) :
    (bs.modify i fun b => { b with writes := g b.writes }).map Batch.writes =
      (bs.map Batch.writes).modify i g := by
  apply ext_getElem
  · simp
  · intro j _ _
    simp only [getElem_map, getElem_modify]
    split <;> rfl

theorem flat_batchWrite {i : Nat} (h : rdb.Transparent (.batchWrite i)) :
    (rdb.batchWrite i).flat = rdb.flat.batchWrite i := by
  have hflat : rdb.flat.batches[i]? = (rdb.batches[i]?).map Batch.writes := getElem?_map
  unfold batchWrite FlatDB.batchWrite
  rw [hflat]
  split
  · next hi =>
    have hget : rdb.batches[i]? = some rdb.batches[i] := getElem?_eq_getElem hi
    rw [hget]
    have hmem : rdb.batches[i] ∈ rdb.batches := getElem_mem hi
    have htable : (rdb.commitBatch i rdb.batches[i] hmem).lookup =
        rdb.batches[i].writes.foldl Write.apply rdb.lookup := by
      funext k
      show rdb.allLayers.findSome?
        (fun l => rdb.batches[i].writes.foldl (writeLayer · _) rdb.content l k) = _
      rw [foldl_writeLayer]
      exact findSome_batch hmem (h _ hget) k
    exact congrArg₂ FlatDB.mk htable (map_writes_modify rdb.batches i fun _ => [])
  · next hi =>
    rw [getElem?_eq_none (not_lt.mp hi)]
    rfl

theorem step_flat {op : Op} (h : rdb.Transparent op) :
    rdb.flat.step op = ((rdb.step op).1, (rdb.step op).2.flat) := by
  cases op with
  | put key value =>
    have htable : (rdb.put key value).lookup = Write.apply rdb.lookup (.put key value) :=
      funext (lookup_put key value)
    exact congrArg (fun t => (Answer.done, FlatDB.mk t rdb.flat.batches)) htable.symm
  | get key => exact congrArg (fun r => (Answer.value r, rdb.flat)) (get_eq key).symm
  | has key => exact congrArg (fun r => (Answer.found r, rdb.flat)) (has_eq_flat h).symm
  | delete key =>
    have htable : (rdb.delete key).lookup = Write.apply rdb.lookup (.delete key) :=
      funext (lookup_delete key)
    exact congrArg (fun t => (Answer.done, FlatDB.mk t rdb.flat.batches)) htable.symm
  | newBatch =>
    have hbatches : rdb.newBatch.batches.map Batch.writes = rdb.batches.map Batch.writes ++ [[]] :=
      map_append
    exact congrArg (fun bs => (Answer.done, FlatDB.mk rdb.lookup bs)) hbatches.symm
  | batchAdd i w =>
    have hbatches : (rdb.batchAdd i w).batches.map Batch.writes =
        (rdb.batches.map Batch.writes).modify i (· ++ [w]) :=
      map_writes_modify rdb.batches i (· ++ [w])
    exact congrArg (fun bs => (Answer.done, FlatDB.mk rdb.lookup bs)) hbatches.symm
  | batchWrite i => exact congrArg (Prod.mk Answer.done) (flat_batchWrite h).symm
  | addLayer =>
    have htable : rdb.addLayer.lookup = rdb.lookup := funext lookup_addLayer
    exact congrArg (fun t => (Answer.done, FlatDB.mk t rdb.flat.batches)) htable.symm

/-- However the data is spread over the layers, a sequence of transparent steps answers
like one map that receives the same writes in the same order. -/
theorem answers_eq_flat (rdb : RollingDB) (ops : List Op) (h : rdb.AllTransparent ops) :
    rdb.answers ops = rdb.flat.answers ops := by
  induction ops generalizing rdb with
  | nil => rfl
  | cons op ops ih =>
    rw [answers, FlatDB.answers, step_flat h.1, ih _ h.2]

end RollingDB

def emptyDB : RollingDB where
  content := fun _ _ => none
  layers := []
  activeLayer := .rolling 1
  older := by simp
  fresh := fun _ _ => rfl
  opened := by simp

def layeredOps : List Op :=
  [.put [1] [10], .addLayer, .get [1], .newBatch, .batchAdd 0 (.put [1] [11]), .batchWrite 0,
    .get [1], .has [1], .delete [1], .get [1], .has [1]]

theorem answers_eq_flat_layered :
    emptyDB.AllTransparent layeredOps ∧
      emptyDB.answers layeredOps = emptyDB.flat.answers layeredOps := by
  have h : emptyDB.AllTransparent layeredOps := by decide
  exact ⟨h, RollingDB.answers_eq_flat emptyDB layeredOps h⟩

def olderKeyOps : List Op := [.put [1] [10], .addLayer, .get [1], .has [1]]

def lateBatchOps : List Op :=
  [.newBatch, .batchAdd 0 (.put [1] [10]), .addLayer, .put [1] [9], .batchWrite 0, .get [1]]

def batchDeleteOps : List Op :=
  [.put [1] [10], .addLayer, .newBatch, .batchAdd 0 (.delete [1]), .batchWrite 0, .get [1]]

/-- A key of an older layer is not there for `Has`, a batch that is written late is hidden
by an earlier write, and a deletion by a batch leaves the value of an older layer. -/
theorem layers_show :
    ((emptyDB.answers olderKeyOps).getLast? = some (.found (.ok false)) ∧
      (emptyDB.flat.answers olderKeyOps).getLast? = some (.found (.ok true))) ∧
    ((emptyDB.answers lateBatchOps).getLast? = some (.value (.ok [9])) ∧
      (emptyDB.flat.answers lateBatchOps).getLast? = some (.value (.ok [10]))) ∧
    ((emptyDB.answers batchDeleteOps).getLast? = some (.value (.ok [10])) ∧
      (emptyDB.flat.answers batchDeleteOps).getLast? = some (.value (.error .keyNotFound))) := by
  decide

end ThetaSubchain.Rolling
