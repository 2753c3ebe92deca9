/-
Finality of a two-step commit rule over a log of votes.

A block is certified when a quorum has signed it, where every faulty voter counts as a signer of
every block, and final when a certified direct child names it as its lock.  Any two ancestors of
final blocks lie on one branch.  The log lists the honest signatures, newest first.
-/
import Mathlib.Logic.Relation
import Mathlib.Data.Set.Basic
import Mathlib.Tactic.WLOG

namespace VoteLog

open List

/-- A tree of blocks with heights, the lock each block carries, and the quorums of
its voters. -/
structure Chain (V B : Type*) where
  link : B → B → Prop
  height : B → ℕ
  lock : B → B
  root : B
  honest : V → Prop
  quorum : Set V → Prop
  link_unique : ∀ {a b c}, link a c → link b c → a = b
  link_height : ∀ {a b}, link a b → height b = height a + 1
  quorum_mono : ∀ {s t}, s ⊆ t → quorum s → quorum t
  quorum_inter : ∀ {s t}, quorum s → quorum t → ∃ v, honest v ∧ v ∈ s ∧ v ∈ t

namespace Chain

variable {V B : Type*} (C : Chain V B)

def Anc (a b : B) : Prop := Relation.ReflTransGen C.link a b

def signers (L : List (V × B)) (b : B) : Set V := {v | ¬ C.honest v ∨ (v, b) ∈ L}

def Certified (L : List (V × B)) (b : B) : Prop := C.quorum (C.signers L b)

def RootOrCertified (L : List (V × B)) (b : B) : Prop := b = C.root ∨ C.Certified L b

/-- The block `e` is at least as good a lock as `l`. -/
def Covers (L : List (V × B)) (e l : B) : Prop :=
  C.height l < C.height e ∨ (C.height l = C.height e ∧ C.RootOrCertified L l)

/-- What an honest voter checks before it signs `b`. -/
structure MayVote (L : List (V × B)) (v : V) (b : B) : Prop where
  fromRoot : C.Anc C.root b
  increasing : ∀ a, (v, a) ∈ L → C.height a < C.height b
  covered : ∃ e, C.RootOrCertified L e ∧ C.Anc e b ∧
    ∀ a, (v, a) ∈ L → a ≠ C.root → C.link (C.lock a) a → C.Covers L e (C.lock a)

/-- Logs in which every signature was checked against the log before it. -/
inductive Legal : List (V × B) → Prop where
  | nil : Legal []
  | cons {L : List (V × B)} {v : V} {b : B} :
      Legal L → C.MayVote L v b → Legal ((v, b) :: L)

/-- The block `d` is the root, or a certified direct child locks it. -/
def DirectlyFinal (L : List (V × B)) (d : B) : Prop :=
  d = C.root ∨ ∃ c, C.Certified L c ∧ c ≠ C.root ∧ C.link d c ∧ C.lock c = d

def Final (L : List (V × B)) (b : B) : Prop := ∃ d, C.Anc b d ∧ C.DirectlyFinal L d

variable {C} {L M : List (V × B)} {a b c d : B} {v : V}

theorem Anc.refl (a : B) : C.Anc a a := Relation.ReflTransGen.refl

theorem Anc.trans (h : C.Anc a b) (h' : C.Anc b c) : C.Anc a c :=
  Relation.ReflTransGen.trans h h'

theorem Anc.of_link (h : C.link a b) : C.Anc a b := Relation.ReflTransGen.single h

theorem Anc.height_le (h : C.Anc a b) : C.height a ≤ C.height b := by
  induction h with
  | refl => exact le_rfl
  | tail _ hl ih => rw [C.link_height hl]; omega

theorem Anc.total (h : C.Anc a c) (h' : C.Anc b c) : C.Anc a b ∨ C.Anc b a := by
  induction h with
  | refl => exact .inr h'
  | @tail x y hax hxy ih =>
    rcases Relation.ReflTransGen.cases_tail h' with rfl | ⟨z, hbz, hzy⟩
    · exact .inl (Relation.ReflTransGen.tail hax hxy)
    · rw [C.link_unique hzy hxy] at hbz
      exact ih hbz

theorem Anc.eq_of_height (h : C.Anc a b) (hh : C.height b ≤ C.height a) : a = b := by
  rcases Relation.ReflTransGen.cases_tail h with rfl | ⟨z, haz, hzb⟩
  · rfl
  · have h1 := Anc.height_le haz
    have h2 := C.link_height hzb
    omega

theorem Anc.of_ne (h : C.Anc a c) (hne : c ≠ a) (hl : C.link b c) : C.Anc a b := by
  rcases Relation.ReflTransGen.cases_tail h with rfl | ⟨z, haz, hzc⟩
  · exact absurd rfl hne
  · rwa [C.link_unique hzc hl] at haz

theorem Certified.mono (h : L ⊆ M) (hb : C.Certified L b) : C.Certified M b := by
  refine C.quorum_mono (fun v hv => ?_) hb
  rcases hv with hv | hv
  · exact .inl hv
  · exact .inr (h hv)

theorem RootOrCertified.mono (h : L ⊆ M) (hb : C.RootOrCertified L b) : C.RootOrCertified M b :=
  hb.imp id (Certified.mono h)

theorem Covers.mono (h : L ⊆ M) (hb : C.Covers L a b) : C.Covers M a b :=
  hb.imp id fun hb => ⟨hb.1, hb.2.mono h⟩

theorem DirectlyFinal.mono (h : L ⊆ M) (hd : C.DirectlyFinal L d) : C.DirectlyFinal M d :=
  hd.imp id fun ⟨c, hc, hne, hl, hlock⟩ => ⟨c, hc.mono h, hne, hl, hlock⟩

theorem Final.mono (h : L ⊆ M) (hb : C.Final L b) : C.Final M b :=
  let ⟨d, hbd, hd⟩ := hb
  ⟨d, hbd, hd.mono h⟩

theorem Certified.common (hb : C.Certified L b) (hc : C.Certified M c) :
    ∃ v, (v, b) ∈ L ∧ (v, c) ∈ M := by
  obtain ⟨v, hv, h1, h2⟩ := C.quorum_inter hb hc
  exact ⟨v, h1.resolve_left (not_not_intro hv), h2.resolve_left (not_not_intro hv)⟩

theorem Legal.mayVote {N : List (V × B)} (h : C.Legal (N ++ (v, b) :: M)) :
    C.Legal M ∧ C.MayVote M v b := by
  induction N with
  | nil => cases h with | cons hM hv => exact ⟨hM, hv⟩
  | cons x N ih => cases h with | cons hN _ => exact ih hN

theorem Legal.fromRoot (h : C.Legal L) (hb : (v, b) ∈ L) : C.Anc C.root b := by
  obtain ⟨N, M, rfl⟩ := append_of_mem hb
  exact h.mayVote.2.fromRoot

theorem Legal.eq_of_height (h : C.Legal L) (hb : (v, b) ∈ L) (hc : (v, c) ∈ L)
    (hh : C.height b = C.height c) : b = c := by
  induction h with
  | nil => simp at hb
  | cons hL hv ih =>
    rcases mem_cons.1 hb with heq | hb'
    · cases heq
      rcases mem_cons.1 hc with heq | hc'
      · cases heq; rfl
      · have := hv.increasing c hc'
        omega
    · rcases mem_cons.1 hc with heq | hc'
      · cases heq
        have := hv.increasing b hb'
        omega
      · exact ih hb' hc'

theorem Legal.mem_of_lt {N : List (V × B)} (h : C.Legal (N ++ (v, c) :: M))
    (hb : (v, b) ∈ N ++ (v, c) :: M) (hlt : C.height b < C.height c) : (v, b) ∈ M := by
  rcases mem_append.1 hb with hbN | hb
  · -- an entry of `N` came after `c`, so it is higher than `c`
    exfalso
    induction N with
    | nil => simp at hbN
    | cons x N ih =>
      cases h with
      | cons hL hv =>
        rcases mem_cons.1 hbN with heq | hbN
        · cases heq
          have := hv.increasing c (by simp)
          omega
        · exact ih hL (by simp [hbN]) hbN
  · rcases mem_cons.1 hb with heq | hb
    · cases heq
      omega
    · exact hb

theorem Certified.fromRoot (h : C.Legal L) (hb : C.Certified L b) : C.Anc C.root b := by
  obtain ⟨v, hv, _⟩ := hb.common hb
  exact h.fromRoot hv

theorem Certified.eq_of_height (h : C.Legal L) (hb : C.Certified L b) (hc : C.Certified L c)
    (hh : C.height b = C.height c) : b = c := by
  obtain ⟨v, hvb, hvc⟩ := hb.common hc
  exact h.eq_of_height hvb hvc hh

theorem RootOrCertified.eq_of_height (h : C.Legal L) (hb : C.RootOrCertified L b)
    (hc : C.RootOrCertified L c) (hh : C.height b = C.height c) : b = c := by
  rcases hb with rfl | hb
  · rcases hc with rfl | hc
    · rfl
    · exact (hc.fromRoot h).eq_of_height hh.ge
  · rcases hc with rfl | hc
    · exact ((hb.fromRoot h).eq_of_height hh.le).symm
    · exact hb.eq_of_height h hc hh

/-- Every certified block above a directly final block descends from it.  The
induction is on the part of the log that certifies the higher block: its honest
signer was covered, at that time, by an older certified block. -/
theorem anc_of_certified (hL : C.Legal L) (hc : C.Certified L c) (hne : c ≠ C.root)
    (hl : C.link d c) (hlock : C.lock c = d) :
    ∀ (n : ℕ) (N M : List (V × B)) (b : B), M.length = n → L = N ++ M → C.Certified M b →
      C.height d < C.height b → C.Anc d b := by
  have hroot : C.Anc C.root d := (hc.fromRoot hL).of_ne hne hl
  intro n
  induction n using Nat.strong_induction_on with
  | _ n ih =>
    intro N M b hn hLM hb hlt
    have hsub : M ⊆ L := by
      rw [hLM]
      exact subset_append_right N M
    obtain ⟨v, hvc, hvb⟩ := hc.common hb
    have hch := C.link_height hl
    rcases Nat.lt_or_ge (C.height c) (C.height b) with hcb | hcb
    · -- the common signer signed `c` first, so its later signature covers `lock c`
      obtain ⟨K, K', hK⟩ := append_of_mem hvb
      have hLK : L = (N ++ K) ++ (v, b) :: K' := by rw [hLM, hK, append_assoc]
      have hold : (v, c) ∈ K' := Legal.mem_of_lt (hLK ▸ hL) (hLK ▸ hvc) hcb
      obtain ⟨hK', hmay⟩ := Legal.mayVote (hLK ▸ hL)
      obtain ⟨e, he, heb, hcov⟩ := hmay.covered
      have hK'n : K'.length < n := by
        rw [← hn, hK]
        simp only [length_append, length_cons]
        omega
      have hLK' : L = (N ++ K ++ [(v, b)]) ++ K' := by rw [hLK]; simp
      rcases hcov c hold hne (hlock ▸ hl) with hlow | ⟨heq, hdc⟩
      · rw [hlock] at hlow
        rcases he with rfl | he
        · have := hroot.height_le
          omega
        · exact (ih _ hK'n _ K' e rfl hLK' he hlow).trans heb
      · rw [hlock] at heq hdc
        rw [hdc.eq_of_height hK' he heq]
        exact heb
    · have : b = c := (hL.eq_of_height hvc (hsub hvb) (by omega)).symm
      rw [this]
      exact Anc.of_link hl

theorem DirectlyFinal.fromRoot (hL : C.Legal L) (hd : C.DirectlyFinal L d) : C.Anc C.root d := by
  rcases hd with rfl | ⟨c, hc, hne, hl, _⟩
  · exact Anc.refl _
  · exact (hc.fromRoot hL).of_ne hne hl

theorem DirectlyFinal.total {e : B} (hL : C.Legal L) (hd : C.DirectlyFinal L d)
    (he : C.DirectlyFinal L e) : C.Anc d e ∨ C.Anc e d := by
  wlog hle : C.height d ≤ C.height e generalizing d e
  · exact (this he hd (by omega)).symm
  rcases hd with rfl | ⟨c, hc, hne, hl, hlock⟩
  · exact .inl (he.fromRoot hL)
  · rcases he with rfl | ⟨c', hc', _, hl', _⟩
    · exact .inr ((hc.fromRoot hL).of_ne hne hl)
    · have hh := C.link_height hl'
      have hdc' := anc_of_certified hL hc hne hl hlock _ [] L c' rfl rfl hc' (by omega)
      exact hdc'.total (Anc.of_link hl')

/-- Finality agreement: ancestors of directly final blocks lie on one branch. -/
theorem Final.total (hL : C.Legal L) (ha : C.Final L a) (hb : C.Final L b) :
    C.Anc a b ∨ C.Anc b a := by
  obtain ⟨d, had, hd⟩ := ha
  obtain ⟨e, hbe, he⟩ := hb
  rcases hd.total hL he with h | h
  · exact (had.trans h).total hbe
  · exact had.total (hbe.trans h)

end Chain

end VoteLog
