/-
The tip (consensus/engine.go, `GetTip`).

Between two steps of a node every valid block is among the children of its parent (`Tidy`), so the
search finds the highest block that descends from the highest CC block through valid blocks.
-/
import ThetaSubchain.Blockchain.Links
import ThetaSubchain.Consensus.AncestorClosure
import ThetaSubchain.Lib.StackSearch

namespace ThetaSubchain

open Durable EngineConf Engine ThetaSubchain ExtendedBlock List

variable {nd : Node} {a : Answers} {inp : Inputs} {J : EngineConf → Prop} {s s' : EngineConf}
  {d d' d₀ : Store}

/-- The children of stored blocks are stored, and a block that is one higher than its parent is
one of the children of the parent.  The root and blocks below it may be in no list. -/
structure Tidy (nd : Node) (d : Store) : Prop where
  children : ∀ p pb c, d.block p = some pb → c ∈ pb.children →
    ∃ cb, d.block c = some cb ∧ cb.header.parent = p
  listed : ∀ p pb c cb, d.block p = some pb → d.block c = some cb → cb.header.parent = p →
    Recent nd d cb → c ≠ nd.cfg.root → cb.header.height = pb.header.height + 1 → c ∈ pb.children
  index : ∀ c cb, d.block c = some cb → Recent nd d cb → c ≠ nd.cfg.root →
    c ∈ (d.blocksByHeight cb.header.height).getD []

theorem Fresh.tidy (hd : Fresh nd d) : Tidy nd d where
  children := hd.children
  listed _ _ c cb _ hc _ hrecent hroot _ := absurd hrecent (hd.older c cb hc hroot).1
  index c cb hc hrecent hroot := absurd hrecent (hd.older c cb hc hroot).1

structure SameLinks (d d' : Store) : Prop where
  block : ∀ h, (d'.block h).map (fun eb => (eb.header, eb.children)) =
    (d.block h).map fun eb => (eb.header, eb.children)
  index : d'.blocksByHeight = d.blocksByHeight

theorem SameLinks.refl (d : Store) : SameLinks d d := ⟨fun _ => rfl, rfl⟩

theorem SameLinks.trans {d'' : Store} (h : SameLinks d d') (h' : SameLinks d' d'') :
    SameLinks d d'' :=
  ⟨fun x => (h'.block x).trans (h.block x), h'.index.trans h.index⟩

variable {xb : ExtendedBlock} {x : Hash}

theorem SameLinks.back (h : SameLinks d d') (hx : d'.block x = some xb) :
    ∃ xb', d.block x = some xb' ∧ xb'.header = xb.header ∧ xb'.children = xb.children := by
  have hmap := h.block x
  rw [hx] at hmap
  obtain ⟨xb', hxb', heq⟩ := Option.map_eq_some_iff.1 hmap.symm
  exact ⟨xb', hxb', (Prod.mk.inj heq).1, (Prod.mk.inj heq).2⟩

theorem SameLinks.symm (h : SameLinks d d') : SameLinks d' d :=
  ⟨fun x => (h.block x).symm, h.index.symm⟩

theorem rootHeight_congr (h : (d'.block nd.cfg.root).map header =
      (d.block nd.cfg.root).map header) : rootHeight nd d' = rootHeight nd d := by
  have hmap : ∀ d : Store, rootHeight nd d =
      ((d.block nd.cfg.root).map header).elim 0 fun hd => hd.height.toNat := by
    intro d
    rw [rootHeight]
    cases d.block nd.cfg.root <;> rfl
  rw [hmap, hmap, h]

theorem SameLinks.rootHeight (h : SameLinks d d') : rootHeight nd d' = rootHeight nd d := by
  refine rootHeight_congr ?_
  have hmap := congrArg (Option.map Prod.fst) (h.block nd.cfg.root)
  rwa [Option.map_map, Option.map_map] at hmap

theorem Tidy.of_sameLinks (hd : Tidy nd d) (h : SameLinks d d') : Tidy nd d' := by
  have hrecent : ∀ {x x' : ExtendedBlock}, x'.header = x.header → Recent nd d' x →
      Recent nd d x' := by
    intro x x' heq hx
    rwa [Recent, heq, ← h.rootHeight]
  constructor
  · intro p pb c hp hc
    obtain ⟨pb', hp', -, hchildren⟩ := h.back hp
    obtain ⟨cb, hcb, hparent⟩ := hd.children p pb' c hp' (hchildren ▸ hc)
    obtain ⟨cb', hcb', hheader, -⟩ := h.symm.back hcb
    exact ⟨cb', hcb', hheader ▸ hparent⟩
  · intro p pb c cb hp hc hparent hrec hroot hheight
    obtain ⟨pb', hp', hpheader, hchildren⟩ := h.back hp
    obtain ⟨cb', hc', hcheader, -⟩ := h.back hc
    rw [← hchildren]
    exact hd.listed p pb' c cb' hp' hc' (hcheader ▸ hparent) (hrecent hcheader hrec) hroot
      (by rw [hcheader, hpheader, hheight])
  · intro c cb hc hrec hroot
    obtain ⟨cb', hc', hcheader, -⟩ := h.back hc
    rw [h.index, ← hcheader]
    exact hd.index c cb' hc' (hrecent hcheader hrec) hroot

variable {eb eb' : ExtendedBlock} {h : Hash}

theorem sameLinks_withBlock (hb : s.disk.block h = some eb) (hblock : eb'.block = eb.block)
    (hchildren : eb'.children = eb.children) : SameLinks s.disk (s.withBlock h eb').disk := by
  refine ⟨fun x => ?_, rfl⟩
  rw [withBlock_block]
  by_cases hx : x = h
  · rw [if_pos hx, hx, hb, Option.map_some, Option.map_some, header, hblock, hchildren]
  · rw [if_neg hx]

theorem Effect.sameLinks (he : Effect nd a inp J s s') (hnone : inp.blocks = ∅) :
    SameLinks s.disk s'.disk := by
  have habsurd : ∀ b, b ∉ inp.blocks := by simp [hnone]
  cases he with
  | linkChild b pb hJ hb hnew hp => exact absurd hb (habsurd b)
  | newBlock b children hJ hb hnew hchildren => exact absurd hb (habsurd b)
  | heightIndex f hJ hb => exact absurd hb.some_mem (habsurd _)
  | markInvalid h eb hJ hb hpending => exact sameLinks_withBlock hb rfl rfl
  | markUpdate h eb hJ hb hpending happly => exact sameLinks_withBlock hb rfl rfl
  | markValid h eb pb hJ hb hpending hp hvalid hrecent hheight hcov happly =>
    exact sameLinks_withBlock hb rfl rfl
  | commit eb hJ hb hvalid => exact sameLinks_withBlock hb rfl rfl
  | _ => exact ⟨fun _ => rfl, rfl⟩

theorem MidEffect.sameLinks (he : MidEffect nd a J s s') : SameLinks s.disk s'.disk := by
  cases he with
  | markFinalized c h eb lb st hc hl hpath hb hvalid hrecent hle hst =>
    exact sameLinks_withBlock hb rfl rfl
  | _ => exact ⟨fun _ => rfl, rfl⟩

theorem closed_sameLinks (nd : Node) (a : Answers) (d : Store) :
    Closed nd a ⟨Set.univ, ∅⟩ (fun s => SameLinks d s.disk) (fun _ => True) fun _ _ => True where
  effect _ h he := ⟨h.trans (he.sameLinks rfl), trivial⟩
  mid _ h he := h.trans he.sameLinks
  keep _ _ := trivial

def LinkStep (nd : Node) (d d' : Store) : Prop :=
  SameLinks d d' ∨
    ∃ b : Block, d.block (nd.cfg.hash b.header) = none ∧ d' = Chain.stored nd.cfg d b

variable {b : Block}

theorem linkStep_of_addBlock {r : Except String ExtendedBlock}
    (hrun : (Chain.addBlock nd.cfg b false : EngineProc _).run s = (some r, s')) :
    LinkStep nd s.disk s'.disk := by
  rw [Chain.run_addBlock] at hrun
  split at hrun
  · cases hrun
    exact .inl (.refl _)
  · split at hrun
    · cases hrun
      exact .inl (.refl _)
    · next hfound =>
      cases hrun
      exact .inr ⟨b, Option.not_isSome_iff_eq_none.1 hfound, rfl⟩

theorem linkStep_of_propose (hrun : (propose nd a).run s = (some (), s')) :
    LinkStep nd s.disk s'.disk := by
  have hnew : ∀ sameDynasty, (propose.proposeNew nd a sameDynasty).wp (fun _ _ => True)
      (fun _ s' => LinkStep nd s.disk s'.disk) s := by
    intro sameDynasty
    unfold propose.proposeNew
    rw [Proc.wp_bind]
    refine Proc.wp_mono ?_ (wp_createProposal sameDynasty)
    rintro r s₁ ⟨rfl, -⟩
    cases r with
    | none => exact .inl (.refl _)
    | some p =>
      simp only [Proc.wp_bind, Proc.wp_modifyMem, Proc.wp_orDie]
      intro b _
      refine Proc.wp_of_run fun r₂ s₂ hadd => ?_
      have hstep := linkStep_of_addBlock hadd
      cases r₂ with
      | error m => trivial
      | ok eb => exact ⟨trivial, hstep⟩
  refine Proc.wp_run (P := fun _ _ => True) (Q := fun _ s' => LinkStep nd s.disk s'.disk) ?_ hrun
  unfold propose
  rw [Proc.wp_bind, getTipToExtend, wp_getTip]
  intro H _ tip _
  simp only [Proc.wp_bind, Proc.wp_mem, Proc.wp_orDie]
  intro turn _
  split
  · exact .inl (.refl _)
  · simp only [Proc.wp_bind, Proc.wp_disk, Proc.wp_orDie]
    intro sameDynasty _
    cases s.mem.state.lastProposal.block with
    | none => exact hnew sameDynasty
    | some c =>
      dsimp only
      split
      · exact ⟨trivial, .inl (.refl _)⟩
      · exact hnew sameDynasty

theorem linkStep_of_step (hw : WellFormed nd s) {act : Engine.Action}
    (hrun : (step nd a act).run s = (some (), s')) : LinkStep nd s.disk s'.disk := by
  have hother : act.added nd a s = ∅ → LinkStep nd s.disk s'.disk := by
    intro hnone
    have hstep := wp_step (closed_sameLinks nd a s.disk) ⟨⟨hw, .refl _⟩, trivial⟩ act
      (Set.subset_univ _) (by rw [hnone])
    exact .inl (Proc.wp_run hstep hrun).inv
  cases act with
  | addBlock b =>
    obtain ⟨r, u, hadd, hpure⟩ := Proc.run_bind_eq_some.1 hrun
    cases hpure
    exact linkStep_of_addBlock hadd
  | propose =>
    by_cases hstopped : s.mem.stopped
    · have hstay : (step nd a .propose).run s = (some (), s) := by
        show Proc.run (if s.mem.stopped then pure () else _) s = _
        rw [if_pos hstopped]
        rfl
      rw [hstay] at hrun
      cases hrun
      exact .inl (.refl _)
    · have hpropose : (step nd a .propose).run s = (propose nd a).run s := by
        show Proc.run (if s.mem.stopped then pure () else _) s = _
        rw [if_neg hstopped]
        rfl
      rw [hpropose] at hrun
      exact linkStep_of_propose hrun
  | block b => exact hother rfl
  | vote v => exact hother rfl
  | voteTimer => exact hother rfl
  | epochTimer => exact hother rfl
  | enterEpoch => exact hother rfl
  | stop => exact hother rfl

theorem ne_add_one (n : UInt64) : n ≠ n + 1 := by
  intro h
  have hnat := congrArg UInt64.toNat h
  rw [UInt64.toNat_add] at hnat
  have hlt := n.toNat_lt
  change n.toNat = (n.toNat + 1) % 2 ^ 64 at hnat
  omega

theorem rootHeight_stored (hkey : Chain.Keyed nd.cfg d) (hroot : (d.block nd.cfg.root).isSome)
    (hnew : d.block (nd.cfg.hash b.header) = none) :
    rootHeight nd (Chain.stored nd.cfg d b) = rootHeight nd d := by
  refine rootHeight_congr ?_
  rw [Chain.stored_header hkey, if_neg]
  intro heq
  rw [heq, hnew] at hroot
  cases hroot

theorem header_of_stored (hkey : Chain.Keyed nd.cfg d)
    (hx : (Chain.stored nd.cfg d b).block x = some xb) (hne : x ≠ nd.cfg.hash b.header) :
    ∃ xb', d.block x = some xb' ∧ xb'.header = xb.header := by
  have hheader := congrArg (Option.map header) hx
  rw [Chain.stored_header hkey, if_neg hne] at hheader
  exact Option.map_eq_some_iff.1 hheader

theorem exists_stored (hkey : Chain.Keyed nd.cfg d) (hnew : d.block (nd.cfg.hash b.header) = none)
    (hx : d.block x = some xb) :
    ∃ xb', (Chain.stored nd.cfg d b).block x = some xb' ∧ xb'.header = xb.header := by
  have hne : x ≠ nd.cfg.hash b.header := by
    intro heq
    rw [heq, hnew] at hx
    cases hx
  have hheader := Chain.stored_header hkey b x
  rw [if_neg hne, hx, Option.map_some] at hheader
  exact Option.map_eq_some_iff.1 hheader

theorem Tidy.stored (hd : Tidy nd d) (hzero : nd.NonZeroHash) (hkey : Chain.Keyed nd.cfg d)
    (hroot : (d.block nd.cfg.root).isSome) (hnew : d.block (nd.cfg.hash b.header) = none) :
    Tidy nd (Chain.stored nd.cfg d b) := by
  have hstored := Chain.stored_block hkey b
  have hself : (Chain.stored nd.cfg d b).block (nd.cfg.hash b.header) =
      some (Chain.newBlock nd.cfg d b) := by rw [hstored, if_pos rfl]
  have hrecent : ∀ {x x' : ExtendedBlock}, x'.header = x.header →
      Recent nd (Chain.stored nd.cfg d b) x → Recent nd d x' := by
    intro x x' heq hx
    rwa [Recent, heq, ← rootHeight_stored hkey hroot hnew]
  constructor
  · intro p pb c hp hc
    rw [hstored] at hp
    split at hp
    · next heq =>
      cases hp
      obtain ⟨-, cb, hcb, hparent⟩ := (Chain.mem_childrenInIndex hkey b c).1 hc
      obtain ⟨cb', hcb', hheader⟩ := exists_stored hkey hnew hcb
      exact ⟨cb', hcb', by rw [hheader, hparent, heq]⟩
    · have hold : ∀ pb₀, d.block p = some pb₀ → c ∈ pb₀.children →
          ∃ cb, (Chain.stored nd.cfg d b).block c = some cb ∧ cb.header.parent = p := by
        intro pb₀ hp₀ hc₀
        obtain ⟨cb, hcb, hparent⟩ := hd.children p pb₀ c hp₀ hc₀
        obtain ⟨cb', hcb', hheader⟩ := exists_stored hkey hnew hcb
        exact ⟨cb', hcb', hheader ▸ hparent⟩
      split at hp
      · next hparent =>
        obtain ⟨pb₀, hp₀, rfl⟩ := Option.map_eq_some_iff.1 hp
        rcases mem_append.1 hc with hc | hc
        · exact hold pb₀ hp₀ hc
        · rw [mem_singleton.1 hc]
          exact ⟨_, hself, hparent.2.symm⟩
      · exact hold pb hp hc
  · intro p pb c cb hp hc hparent hrec hcroot hheight
    by_cases hcnew : c = nd.cfg.hash b.header
    · -- the new block is listed with its parent
      rw [hcnew, hself] at hc
      cases hc
      have hparent : b.header.parent = p := hparent
      rw [hstored] at hp
      split at hp
      · cases hp
        exact absurd hheight (ne_add_one _)
      · next hpnew =>
        split at hp
        · obtain ⟨pb₀, -, rfl⟩ := Option.map_eq_some_iff.1 hp
          rw [hcnew]
          exact mem_append_right _ (mem_singleton_self _)
        · next hlink =>
          have hpkey : nd.cfg.hash pb.header = p := hkey p pb hp
          refine absurd ⟨?_, hparent.symm⟩ hlink
          rw [hparent, ← hpkey]
          exact hzero pb.header
    · obtain ⟨cb₀, hc₀, hcheader⟩ := header_of_stored hkey hc hcnew
      have hrec₀ : Recent nd d cb₀ := hrecent hcheader hrec
      rw [hstored] at hp
      split at hp
      · -- the new block finds its child in the index
        next hpnew =>
        cases hp
        refine (Chain.mem_childrenInIndex hkey b c).2 ⟨?_, cb₀, hc₀, ?_⟩
        · have hindex := hd.index c cb₀ hc₀ hrec₀ hcroot
          rw [hcheader, hheight] at hindex
          exact hindex
        · rw [hcheader, hparent, hpnew]
      · have hold : ∀ pb₀, d.block p = some pb₀ → pb₀.header = pb.header → c ∈ pb₀.children := by
          intro pb₀ hp₀ hpheader
          exact hd.listed p pb₀ c cb₀ hp₀ hc₀ (hcheader ▸ hparent) hrec₀ hcroot
            (by rw [hcheader, hpheader, hheight])
        split at hp
        · obtain ⟨pb₀, hp₀, rfl⟩ := Option.map_eq_some_iff.1 hp
          exact mem_append_left _ (hold pb₀ hp₀ rfl)
        · exact hold pb hp rfl
  · intro c cb hc hrec hcroot
    show c ∈ ((Chain.indexed _ _ _).blocksByHeight _).getD []
    rw [Chain.mem_indexed]
    by_cases hcnew : c = nd.cfg.hash b.header
    · rw [hcnew, hself] at hc
      cases hc
      exact .inr ⟨rfl, hcnew⟩
    · obtain ⟨cb₀, hc₀, hcheader⟩ := header_of_stored hkey hc hcnew
      left
      show c ∈ ((Chain.linkToParent nd.cfg d b).blocksByHeight _).getD []
      rw [Chain.linkToParent_blocksByHeight, ← hcheader]
      exact hd.index c cb₀ hc₀ (hrecent hcheader hrec) hcroot

theorem Tidy.step (hd : Tidy nd s.disk) (hzero : nd.NonZeroHash) (hw : WellFormed nd s)
    {act : Engine.Action} (hrun : (step nd a act).run s = (some (), s')) : Tidy nd s'.disk := by
  rcases linkStep_of_step hw hrun with hsame | ⟨b, hnew, heq⟩
  · exact hd.of_sameLinks hsame
  · rw [heq]
    obtain ⟨rb, hrb, -⟩ := hw.root
    exact hd.stored hzero hw.key (by rw [hrb]; rfl) hnew

def Inherited (nd : Node) (d₀ : Store) (s : EngineConf) : Prop :=
  ∀ h eb, s.disk.block h = some eb → eb.status.isValid → (Recent nd s.disk eb → h = nd.cfg.root) →
    ∃ eb₀, d₀.block h = some eb₀ ∧ eb₀.header = eb.header

/-- A header that hashes to the parent of a block of the store is lower than the block. -/
def ParentsBelow (nd : Node) (d₀ : Store) : Prop :=
  ∀ h eb, d₀.block h = some eb → ∀ header, nd.cfg.hash header = eb.header.parent →
    header.height < eb.header.height

theorem rootHeight_withBlock (hb : s.disk.block h = some eb) (hheader : eb'.header = eb.header) :
    rootHeight nd (s.withBlock h eb').disk = rootHeight nd s.disk := by
  refine rootHeight_congr ?_
  rw [withBlock_block]
  by_cases hroot : nd.cfg.root = h
  · rw [if_pos hroot, hroot, hb, Option.map_some, Option.map_some, hheader]
  · rw [if_neg hroot]

theorem Inherited.withBlock (hI : Inherited nd d₀ s) (hb : s.disk.block h = some eb)
    (hheader : eb'.header = eb.header)
    (hvalid : eb'.status.isValid → eb.status.isValid ∨ (Recent nd s.disk eb ∧ h ≠ nd.cfg.root)) :
    Inherited nd d₀ (s.withBlock h eb') := by
  intro x xb hx hxv hxr
  rw [Recent, rootHeight_withBlock hb hheader] at hxr
  rw [withBlock_block] at hx
  by_cases hxh : x = h
  · rw [if_pos hxh, Option.some.injEq] at hx
    subst hxh hx
    rw [hheader] at hxr ⊢
    rcases hvalid hxv with hv | ⟨hrecent, hne⟩
    · exact hI x eb hb hv hxr
    · exact absurd (hxr hrecent) hne
  · rw [if_neg hxh] at hx
    exact hI x xb hx hxv hxr

theorem Inherited.newBlock (hw : WellFormed nd s) (hI : Inherited nd d₀ s) {eb : ExtendedBlock}
    (hnew : s.disk.block h = none) (hpending : eb.status = .pending) :
    Inherited nd d₀ (s.withBlock h eb) := by
  obtain ⟨rb, hrb, -⟩ := hw.root
  have hroot : nd.cfg.root ≠ h := by
    intro heq
    rw [heq, hnew] at hrb
    cases hrb
  have hheight : rootHeight nd (s.withBlock h eb).disk = rootHeight nd s.disk := by
    refine rootHeight_congr ?_
    rw [withBlock_block, if_neg hroot]
  intro x xb hx hxv hxr
  rw [Recent, hheight] at hxr
  rw [withBlock_block] at hx
  by_cases hxh : x = h
  · rw [if_pos hxh, Option.some.injEq] at hx
    rw [← hx, hpending] at hxv
    cases hxv
  · rw [if_neg hxh] at hx
    exact hI x xb hx hxv hxr

theorem Inherited.effect (hw : WellFormed nd s) (hI : Inherited nd d₀ s)
    (he : Effect nd a inp J s s') : Inherited nd d₀ s' := by
  cases he with
  | linkChild b pb hJ hb hnew hp => exact hI.withBlock hp rfl .inl
  | newBlock b children hJ hb hnew hchildren => exact hI.newBlock hw hnew rfl
  | markInvalid h eb hJ hb hpending =>
    refine hI.withBlock hb rfl fun hv => ?_
    cases hv
  | markUpdate h eb hJ hb hpending happly => exact hI.withBlock hb rfl .inl
  | markValid h eb pb hJ hb hpending hp hvalid hrecent hheight hcov happly =>
    refine hI.withBlock hb rfl fun _ => .inr ⟨?_, hw.ne_root hb ?_⟩
    · rw [Recent] at hrecent ⊢
      omega
    · simp [hpending, BlockStatus.isFinalized]
  | commit eb hJ hb hvalid =>
    refine hI.withBlock hb rfl fun _ => .inl ?_
    rw [hvalid]
    rfl
  | _ => exact hI

theorem Inherited.mid (hI : Inherited nd d₀ s) (he : MidEffect nd a J s s') :
    Inherited nd d₀ s' := by
  cases he with
  | markFinalized c h eb lb st hc hl hpath hb hvalid hrecent hle hst =>
    exact hI.withBlock hb rfl fun _ => .inl hvalid
  | _ => exact hI

theorem closed_inherited (nd : Node) (a : Answers) (inp : Inputs) (d₀ : Store) :
    Closed nd a inp (Inherited nd d₀) (fun _ => True) (fun _ _ => True) where
  effect hw h he := ⟨h.effect hw he, trivial⟩
  mid _ h he := h.mid he
  keep _ _ := trivial

theorem height_of_parent (hw : WellFormed nd s) (hI : Inherited nd d₀ s)
    (hbelow : ParentsBelow nd d₀) {x y : ExtendedBlock} {c : Hash}
    (hx : s.disk.block (nd.cfg.hash x.header) = some x) (hxr : Recent nd s.disk x)
    (hy : s.disk.block c = some y) (hyv : y.status.isValid)
    (hparent : y.header.parent = nd.cfg.hash x.header) :
    Recent nd s.disk y ∧ c ≠ nd.cfg.root ∧
      y.header.height.toNat = x.header.height.toNat + 1 := by
  by_cases hnew : Recent nd s.disk y ∧ c ≠ nd.cfg.root
  · obtain ⟨pb, hpb, -, -, hheight⟩ := hw.parent c y hy hnew.1 hyv hnew.2
    rw [hparent, hx, Option.some.injEq] at hpb
    exact ⟨hnew.1, hnew.2, hpb ▸ hheight⟩
  · -- a block of the start has only lower headers as its parent
    have hold : Recent nd s.disk y → c = nd.cfg.root := fun hr => not_not.1 fun hc => hnew ⟨hr, hc⟩
    obtain ⟨eb₀, heb₀, hheader⟩ := hI c y hy hyv hold
    have hlt := hbelow c eb₀ heb₀ x.header (by rw [hheader, hparent])
    rw [hheader, UInt64.lt_iff_toNat_lt] at hlt
    have hyr : Recent nd s.disk y := le_trans hxr hlt.le
    have hroot : rootHeight nd s.disk = y.header.height.toNat := by
      rw [rootHeight, ← hold hyr, hy]
    rw [Recent, hroot] at hxr
    omega

def Eligible (includePendingBlockingLeaf : Bool) (eb : ExtendedBlock) : Prop :=
  eb.status.isValid ∧ (includePendingBlockingLeaf = false → eb.hasValidatorUpdate = false)

/-- The stored blocks that descend from `H` through blocks, other than `H` itself, that are
eligible. -/
inductive Descends (d : Store) (includePendingBlockingLeaf : Bool) (H : ExtendedBlock) :
    ExtendedBlock → Prop where
  | self : Descends d includePendingBlockingLeaf H H
  | child {x y : ExtendedBlock} {c : Hash} (hx : Descends d includePendingBlockingLeaf H x)
      (hparent : d.block y.header.parent = some x) (hy : d.block c = some y)
      (helig : Eligible includePendingBlockingLeaf y) :
      Descends d includePendingBlockingLeaf H y

def skipTip (includePendingBlockingLeaf : Bool) (eb : ExtendedBlock) : Bool :=
  !eb.status.isValid || (!includePendingBlockingLeaf && eb.hasValidatorUpdate)

def findChildren (d : Store) (eb : ExtendedBlock) : Option (List ExtendedBlock) :=
  eb.children.mapM (Chain.findBlock d)

def heightKey (eb : ExtendedBlock) : Nat := eb.header.height.toNat

variable {incl : Bool}

theorem skipTip_eq_false {eb : ExtendedBlock} : skipTip incl eb = false ↔ Eligible incl eb := by
  unfold skipTip Eligible
  cases incl <;> simp

theorem tipLoop_eq_loop (d : Store) (incl : Bool) (n : Nat) (stack : List ExtendedBlock)
    (candidate : ExtendedBlock) :
    tipLoop d incl n stack candidate =
      StackSearch.loop (skipTip incl) (findChildren d) heightKey n stack candidate := by
  induction n generalizing stack candidate with
  | zero => rfl
  | succ n ih =>
    cases stack with
    | nil => rfl
    | cons curr stack =>
      rw [tipLoop, StackSearch.loop]
      by_cases hv : curr.status.isValid
      · rw [if_neg (by simp [hv])]
        by_cases hskip : (!incl && curr.hasValidatorUpdate) = true
        · rw [if_pos hskip, if_pos (by simp [skipTip, hskip]), ih]
        · have hgo : ¬skipTip incl curr = true := by simp [skipTip, hv, hskip]
          have hcandidate :
              (if curr.header.height > candidate.header.height then curr else candidate) =
                if heightKey candidate < heightKey curr then curr else candidate :=
            if_congr UInt64.lt_iff_toNat_lt rfl rfl
          rw [if_neg hskip, if_neg hgo, findChildren]
          simp only [hcandidate, ih]
          cases curr.children.mapM (Chain.findBlock d) <;> rfl
      · rw [if_pos (by simp [hv]), if_pos (by simp [skipTip, hv]), ih]

theorem mapM_findBlock {hs : List Hash} (h : ∀ c ∈ hs, ∃ cb, d.block c = some cb) :
    hs.mapM (Chain.findBlock d) = some (hs.filterMap (Chain.findBlock d)) := by
  induction hs with
  | nil => rfl
  | cons c hs ih =>
    obtain ⟨cb, hcb⟩ := h c mem_cons_self
    have hfind : Chain.findBlock d c = some cb := hcb
    rw [mapM_cons, hfind, ih fun x hx => h x (mem_cons_of_mem c hx),
      filterMap_cons_some hfind]
    rfl

def searched (nd : Node) (d : Store) : Set ExtendedBlock :=
  {x | d.block (nd.cfg.hash x.header) = some x ∧ Recent nd d x}

section Search

variable (hw : WellFormed nd s) (hI : Inherited nd d₀ s) (hbelow : ParentsBelow nd d₀)
  (htidy : Tidy nd s.disk)

include htidy in
theorem Tidy.findChildren {x : ExtendedBlock} (hx : x ∈ searched nd s.disk) :
    findChildren s.disk x = some (x.children.filterMap (Chain.findBlock s.disk)) := by
  refine mapM_findBlock fun c hc => ?_
  obtain ⟨cb, hcb, -⟩ := htidy.children _ x c hx.1 hc
  exact ⟨cb, hcb⟩

include hw hI hbelow htidy in
theorem link_iff (incl : Bool) {x : ExtendedBlock} (hx : x ∈ searched nd s.disk)
    (y : ExtendedBlock) :
    StackSearch.Link (skipTip incl) (findChildren s.disk) x y ↔
      s.disk.block (nd.cfg.hash y.header) = some y ∧ y.header.parent = nd.cfg.hash x.header ∧
        Eligible incl y := by
  unfold StackSearch.Link
  rw [htidy.findChildren hx]
  simp only [Option.some.injEq, exists_eq_left', mem_filterMap, skipTip_eq_false]
  constructor
  · rintro ⟨⟨c, hc, hfind⟩, helig⟩
    have hfind : s.disk.block c = some y := hfind
    obtain ⟨cb, hcb, hparent⟩ := htidy.children _ x c hx.1 hc
    rw [hfind, Option.some.injEq] at hcb
    rw [hw.key c y hfind]
    exact ⟨hfind, hcb ▸ hparent, helig⟩
  · rintro ⟨hy, hparent, helig⟩
    obtain ⟨hyr, hroot, hheight⟩ :=
      height_of_parent hw hI hbelow hx.1 hx.2 hy helig.1 hparent
    refine ⟨⟨_, htidy.listed _ x _ y hx.1 hy hparent hyr hroot ?_, hy⟩, helig⟩
    have hlt := y.header.height.toNat_lt
    rw [← UInt64.toNat_inj, UInt64.toNat_add, hheight]
    show _ = (x.header.height.toNat + 1) % 2 ^ 64
    omega

include hw hI hbelow htidy in
theorem ascending_search (incl : Bool) :
    StackSearch.Ascending (skipTip incl) (findChildren s.disk) heightKey
      (searched nd s.disk) (2 ^ 64) where
  defined x hx := ⟨_, htidy.findChildren hx⟩
  link x hx y hlink := by
    obtain ⟨hy, hparent, helig⟩ := (link_iff hw hI hbelow htidy incl hx y).1 hlink
    obtain ⟨hyr, -, hheight⟩ := height_of_parent hw hI hbelow hx.1 hx.2 hy helig.1 hparent
    refine ⟨⟨hy, hyr⟩, ?_⟩
    show x.header.height.toNat < y.header.height.toNat
    omega
  below x _ := x.header.height.toNat_lt

include hw hI hbelow htidy in
theorem reached_iff_descends {H : ExtendedBlock} (hH : H ∈ searched nd s.disk) (y : ExtendedBlock) :
    Relation.ReflTransGen (StackSearch.Link (skipTip incl) (findChildren s.disk)) H y ↔
      Descends s.disk incl H y := by
  constructor
  · intro hpath
    suffices y ∈ searched nd s.disk ∧ Descends s.disk incl H y from this.2
    induction hpath with
    | refl => exact ⟨hH, .self⟩
    | @tail x y _ hlink ih =>
      obtain ⟨hy, hparent, helig⟩ := (link_iff hw hI hbelow htidy incl ih.1 y).1 hlink
      exact ⟨((ascending_search hw hI hbelow htidy incl).link x ih.1 y hlink).1,
        .child ih.2 (hparent ▸ ih.1.1) hy helig⟩
  · intro hdesc
    suffices y ∈ searched nd s.disk ∧ Relation.ReflTransGen
      (StackSearch.Link (skipTip incl) (findChildren s.disk)) H y from this.2
    induction hdesc with
    | self => exact ⟨hH, .refl⟩
    | @child x y c _ hparent hy helig ih =>
      have hkey := (hw.key _ x hparent).symm
      have hlink := (link_iff hw hI hbelow htidy incl ih.1 y).2
        ⟨(hw.key c y hy).symm ▸ hy, hkey, helig⟩
      exact ⟨((ascending_search hw hI hbelow htidy incl).link x ih.1 y hlink).1, ih.2.tail hlink⟩

def Node.withFuel (nd : Node) (fuel : Nat) : Node := { nd with cfg := { nd.cfg with fuel := fuel } }

theorem run_getTip {H tip : ExtendedBlock} {fuel : Nat}
    (hH : s.disk.block s.mem.state.highestCCBlock = some H)
    (htip : tipLoop s.disk incl fuel [H] H = some tip) :
    (getTip (nd.withFuel fuel) incl).run s = (some tip, s) := by
  have hget : State.getHighestCCBlock.run s = (some H, s) := by
    show Proc.run (Proc.orDie (s.disk.block s.mem.state.highestCCBlock)) s = _
    rw [hH]
    rfl
  unfold getTip
  rw [Proc.run_bind, hget]
  show Proc.run (Proc.orDie (tipLoop s.disk incl fuel [H] H)) s = _
  rw [htip]
  rfl

include hw hI hbelow htidy in
theorem getTip_spec (incl : Bool) :
    ∃ H, s.disk.block s.mem.state.highestCCBlock = some H ∧ ∃ n tip,
      (∀ fuel, n ≤ fuel → (getTip (nd.withFuel fuel) incl).run s = (some tip, s)) ∧
      Descends s.disk incl H tip ∧
      (incl = false → H.hasValidatorUpdate = true → tip = H) ∧
      ((incl = false → H.hasValidatorUpdate = false) →
        ∀ y, Descends s.disk incl H y → y.header.height ≤ tip.header.height) := by
  obtain ⟨H, hH, hvalid, hrecent⟩ := hw.highestCC
  have hHs : H ∈ searched nd s.disk := ⟨by rw [hw.key _ H hH]; exact hH, hrecent⟩
  obtain ⟨n, tip, hloop, hfound, hbest⟩ :=
    StackSearch.loop_spec (ascending_search hw hI hbelow htidy incl) hHs
  have hreached : ∀ y, StackSearch.Reached (skipTip incl) (findChildren s.disk) [H] y ↔
      Eligible incl H ∧ Descends s.disk incl H y := by
    intro y
    rw [← skipTip_eq_false, ← reached_iff_descends hw hI hbelow htidy hHs]
    simp [StackSearch.Reached]
  refine ⟨H, hH, n, tip, fun fuel hfuel => run_getTip hH ?_, ?_, ?_, ?_⟩
  · rw [tipLoop_eq_loop]
    exact hloop fuel hfuel
  · rcases hfound with rfl | hr
    · exact .self
    · exact ((hreached tip).1 hr).2
  · intro hincl hupdate
    rcases hfound with rfl | hr
    · rfl
    · have helig := ((hreached tip).1 hr).1
      rw [helig.2 hincl] at hupdate
      cases hupdate
  · intro helig y hy
    rw [UInt64.le_iff_toNat_le]
    exact hbest y ((hreached y).2 ⟨⟨hvalid, helig⟩, hy⟩)

end Search

theorem tidy_under_iff {hash : MapOrder → BlockHeader → Hash} {ord : MapOrder} :
    Tidy (nd.under hash ord) d ↔ Tidy nd d :=
  ⟨fun h => ⟨h.children, h.listed, h.index⟩, fun h => ⟨h.children, h.listed, h.index⟩⟩

/-- Between two steps of a node that starts on a fresh store, the tip is the highest block that
descends from the highest CC block through valid blocks; for a new proposal, through valid blocks
without a validator update, and the highest CC block itself if it has one.  No certificate has two
votes of one voter, and a crash must not fall between the writes that store one block. -/
theorem tip_is_highest {digest : Rlp.Item → Hash} {m : Machine Engine Store Output}
    (hzero : ∀ i, (digest i).isEmpty = false)
    (hd : ∃ ord, Fresh (nd.under (headerHash digest) ord) d) (hvoters : d.DistinctVoters)
    (hbelow : ∀ ord, ParentsBelow (nd.under (headerHash digest) ord) d)
    (hrun : OrderedRun nd (headerHash digest) BringsDistinct (fun d _ => Tidy nd d) d m)
    {e : Engine} (hup : m.mem = some e) (incl : Bool) :
    ∃ H, m.disk.block e.state.highestCCBlock = some H ∧ ∃ n tip,
      (∀ fuel, n ≤ fuel → (Engine.getTip (nd.withFuel fuel) incl).run ⟨e, m.disk, m.outs⟩ =
        (some tip, ⟨e, m.disk, m.outs⟩)) ∧
      Descends m.disk incl H tip ∧
      (incl = false → H.hasValidatorUpdate = true → tip = H) ∧
      ((incl = false → H.hasValidatorUpdate = false) →
        ∀ y, Descends m.disk incl H y → y.header.height ≤ tip.header.height) := by
  obtain ⟨ord, hd⟩ := hd
  have hinv := reachable_invariant
    (fun s => ∃ ord, Good (nd.under (headerHash digest) ord)
      (fun s => Inherited nd d s ∧ s.disk.DistinctVoters) (fun _ => True) s ∧ Tidy nd s.disk)
    (fun d' outs => ∃ ord, Kept (nd.under (headerHash digest) ord)
      (fun s => Inherited nd d s ∧ s.disk.DistinctVoters) d' outs) ?_ ?_ ?_ ?_ hrun
  · obtain ⟨ord, hg, htidy⟩ := hinv.1 e hup
    exact getTip_spec hg.wf hg.inv.1 (hbelow ord) (tidy_under_iff.2 htidy) incl
  · have hinit : Inherited nd d ⟨new nd.cfg d, d, []⟩ := fun h eb hb _ _ => ⟨eb, hb, rfl⟩
    exact ⟨rfl, ⟨ord, _, hd.wellFormed [], hinit, hvoters⟩, tidy_under_iff.1 hd.tidy⟩
  · rintro s p ⟨a, act, hact, rfl⟩ ⟨ord, hg, htidy⟩
    have hw := hg.wf.under fun h eb hb => headerHash_eq (hg.inv.2 h eb hb) ord a.order
    have hc : Closed (nd.under (headerHash digest) a.order) a
        ⟨Set.univ, {b | b.header.DistinctVoters}⟩
        (fun s => Inherited nd d s ∧ s.disk.DistinctVoters) (fun _ => True) fun d' outs =>
        ∃ ord, Kept (nd.under (headerHash digest) ord)
          (fun s => Inherited nd d s ∧ s.disk.DistinctVoters) d' outs :=
      { (closed_inherited (nd.under (headerHash digest) a.order) a _ d).distinct with
        keep := fun hw hI => ⟨a.order, _, hw, hI⟩ }
    refine Proc.wp_mono ?_ (Proc.wp_and_run (wp_step hc ⟨⟨hw, hg.inv⟩, trivial⟩ act
      (Set.subset_univ _) hact.added))
    rintro ⟨⟩ s' ⟨hg', hrun'⟩
    have hstart : Tidy (nd.under (headerHash digest) a.order) s.disk := tidy_under_iff.2 htidy
    exact ⟨a.order, hg',
      tidy_under_iff.1 (hstart.step (fun h => hzero (h.toItem a.order)) hw hrun')⟩
  · rintro ⟨e, d', outs⟩ ⟨ord, hg, -⟩
    exact ⟨ord, e, hg.wf, hg.inv⟩
  · rintro d' outs ⟨ord, e, hw, hI⟩ htidy
    exact ⟨ord, ⟨⟨hw.restart, hI⟩, trivial⟩, htidy⟩

theorem parentsBelow_rootStore {digest : Rlp.Item → Hash} (hzero : ∀ i, (digest i).isEmpty = false)
    {root : Block} (hparent : root.header.parent.isEmpty) (ord : MapOrder) :
    ParentsBelow (nd.under (headerHash digest) ord) (rootStore nd root) := by
  intro h eb hb header hhash
  rw [(rootStore_block hb).2] at hhash
  have hempty := hzero (header.toItem ord)
  rw [show digest (header.toItem ord) = _ from hhash] at hempty
  exact absurd hparent (by simpa using hempty)

theorem tip_is_highest_three :
    ∃ t : EngineConf, oddRun (oddStart (rootStore oddNode sampleRoot) []) firstBlocks = some t ∧
      ∃ H, t.disk.block t.mem.state.highestCCBlock = some H ∧ ∃ n tip,
        (∀ fuel, n ≤ fuel → (Engine.getTip (oddNode.withFuel fuel) false).run t = (some tip, t)) ∧
        Descends t.disk false H tip ∧
        (H.hasValidatorUpdate = false →
          ∀ y, Descends t.disk false H y → y.header.height ≤ tip.header.height) := by
  obtain ⟨t, ht⟩ : ∃ t,
      oddRun (oddStart (rootStore oddNode sampleRoot) []) firstBlocks = some t :=
    Option.isSome_iff_exists.1 (by decide)
  have hdistinct : ∀ p ∈ firstBlocks, ∀ b ∈ p.2.brought, b.header.DistinctVoters := by
    decide
  have hrun : OrderedRun oddNode (headerHash firstVoteDigest) BringsDistinct
      (fun d _ => Tidy oddNode d) (rootStore oddNode sampleRoot) ⟨some t.mem, t.disk, t.outs⟩ :=
    OrderedRun.oddRun (s := oddStart _ []) OrderedRun.start (fun p hp _ => hdistinct p hp) ht
  obtain ⟨H, hH, n, tip, htip, hdesc, -, hhighest⟩ := tip_is_highest firstVoteDigest_nonzero
    fresh_odd distinctVoters_odd (parentsBelow_rootStore firstVoteDigest_nonzero rfl) hrun rfl false
  exact ⟨t, ht, H, hH, n, tip, htip, hdesc, fun hupdate => hhighest fun _ => hupdate⟩

/-- A block with two votes of one voter is copied to its second hash when a child is added, and the
copy is found valid.  The root has the first hash among its children, whose record is pending. -/
theorem tip_misses_valid_block :
    ∃ t : EngineConf, OrderedRun oddNode (headerHash firstVoteDigest) (fun _ _ _ => True)
        (fun _ _ => True) (rootStore oddNode sampleRoot) ⟨some t.mem, t.disk, t.outs⟩ ∧
      ∃ H tip y, t.disk.block t.mem.state.highestCCBlock = some H ∧
        ((Engine.getTip oddNode true).run t).1 = some tip ∧ Descends t.disk true H y ∧
        tip.header.height < y.header.height := by
  have heval : ((oddRun (oddStart (rootStore oddNode sampleRoot) [])
      [(.id, .addBlock revotedBlock₁), (.reverse, .addBlock (childOf revotedBlock₁ sampleRoot)),
        (.reverse, .block revotedBlock₁)]).map fun t =>
      decide (t.mem.state.highestCCBlock = 11 ∧ (t.disk.block 11).isSome ∧
        (((Engine.getTip oddNode true).run t).1.map fun tip => tip.header.height) = some 0 ∧
        ((t.disk.block (headerHash firstVoteDigest .reverse revotedBlock₁.header)).map fun y =>
          (y.status, y.header.parent, y.header.height)) = some (.valid, 11, 1))) = some true := by
    decide
  obtain ⟨t, ht, hfacts⟩ := Option.map_eq_some_iff.mp heval
  obtain ⟨hhighest, hroot, htip, hvalid⟩ := of_decide_eq_true hfacts
  obtain ⟨H, hH⟩ := Option.isSome_iff_exists.mp hroot
  obtain ⟨tip, hrun, hlow⟩ := Option.map_eq_some_iff.mp htip
  obtain ⟨y, hy, hfields⟩ := Option.map_eq_some_iff.mp hvalid
  simp only [Prod.mk.injEq] at hfields
  obtain ⟨hstatus, hparent, hheight⟩ := hfields
  refine ⟨t, OrderedRun.oddRun (s := oddStart _ []) OrderedRun.start (fun _ _ _ => trivial) ht,
    H, tip, y, hhighest ▸ hH, hrun, ?_, ?_⟩
  · exact .child .self (hparent ▸ hH) hy ⟨by rw [hstatus]; rfl, fun h => nomatch h⟩
  · rw [hlow, hheight]
    decide

end ThetaSubchain
