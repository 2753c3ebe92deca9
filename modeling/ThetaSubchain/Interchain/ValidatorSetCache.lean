/-
The cache of validator sets (interchain/witness/metachain_witness.go).

The cache is a map from decimal strings, but a cached set is only used if the dynasty it was made
with is the same pointer as the one that is asked for.
-/
import ThetaSubchain.Interchain.Witness

namespace ThetaSubchain

structure BigIntRef where
  pointer : Nat
  value : Int

structure CachingWitness where
  witness : Witness
  pointers : Int → Option Nat

abbrev RegistrarAnswer := Option (List Address × List Int)

def fetchedSet (dynasty : Int) (ans : RegistrarAnswer) : Option ValidatorSet :=
  match ans with
  | none => none
  | some (validatorAddrs, validatorStakes) =>
    if validatorAddrs.length ≠ validatorStakes.length then none
    else some ((validatorAddrs.zip validatorStakes).foldl
      (fun vs v => vs.addValidator ⟨v.1, v.2⟩) (ValidatorSet.new dynasty))

theorem Witness.updateValidatorSetCache_eq (w : Witness) (dynasty : Int) (ans : RegistrarAnswer) :
    w.updateValidatorSetCache dynasty ans =
      match fetchedSet dynasty ans with
      | none => (w, none)
      | some vs =>
        ({ w with validatorSetCache := Function.update w.validatorSetCache dynasty (some vs) },
          some vs) := by
  unfold updateValidatorSetCache fetchedSet
  cases ans with
  | none => rfl
  | some lists =>
    dsimp only
    split <;> rfl

namespace CachingWitness

variable (cfg : WitnessConfig) (r : LogReader)

def updateValidatorSetCache (s : CachingWitness) (dynasty : BigIntRef) (ans : RegistrarAnswer) :
    Option ValidatorSet × CachingWitness :=
  let (w, vs) := s.witness.updateValidatorSetCache dynasty.value ans
  (vs, ⟨w, if vs.isSome then Function.update s.pointers dynasty.value (some dynasty.pointer)
    else s.pointers⟩)

def getValidatorSetByDynasty (s : CachingWitness) (dynasty : BigIntRef) (ans : RegistrarAnswer) :
    Option ValidatorSet × CachingWitness :=
  match s.witness.validatorSetCache dynasty.value with
  | none => s.updateValidatorSetCache dynasty ans
  | some validatorSet =>
    if s.pointers dynasty.value = some dynasty.pointer then (some validatorSet, s)
    else s.updateValidatorSetCache dynasty ans

def fetchedByUpdate (w : Witness) (ans : UpdateAnswers) : Option (Int × ValidatorSet) := do
  let height ← (w.updateMainchainBlockHeight ans.mainchainHeight).mainchainBlockHeight
  let dynasty := calculateDynasty height
  if dynasty > w.witnessedDynasty then
    (fetchedSet dynasty ans.validatorSet).map fun vs => (dynasty, vs)
  else none

def update (s : CachingWitness) (pointer : Nat) (ans : UpdateAnswers) : CachingWitness :=
  ⟨s.witness.update cfg r ans,
    match fetchedByUpdate s.witness ans with
    | none => s.pointers
    | some (dynasty, _) => Function.update s.pointers dynasty (some pointer)⟩

inductive Call where
  | getValidatorSetByDynasty (dynasty : BigIntRef) (ans : RegistrarAnswer)
  | update (pointer : Nat) (ans : UpdateAnswers)

def call (s : CachingWitness) : Call → Option (Option ValidatorSet) × CachingWitness
  | .getValidatorSetByDynasty dynasty ans =>
    let (vs, s) := s.getValidatorSetByDynasty dynasty ans
    (some vs, s)
  | .update pointer ans => (none, s.update cfg r pointer ans)

def trace (s : CachingWitness) : List Call → List (Call × Option (Option ValidatorSet))
  | [] => []
  | c :: cs => (c, (s.call cfg r c).1) :: trace (s.call cfg r c).2 cs

/-- What a call must meet so that the set `vs` of the dynasty `d` is still used: it passes the
pointer the set was made with, or the endpoint is asked and the same set comes out again. -/
def Call.Keeps (s : CachingWitness) (d : Int) (vs : ValidatorSet) : Call → Prop
  | .getValidatorSetByDynasty dynasty ans =>
    dynasty.value = d → s.pointers d = some dynasty.pointer ∨ fetchedSet d ans = some vs
  | .update _ ans => ∀ vs', fetchedByUpdate s.witness ans = some (d, vs') → vs' = vs

def AllKeep (s : CachingWitness) (d : Int) (vs : ValidatorSet) : List Call → Prop
  | [] => True
  | c :: cs => c.Keeps s d vs ∧ AllKeep (s.call cfg r c).2 d vs cs

variable {cfg r} {s : CachingWitness} {d : Int} {vs : ValidatorSet}

theorem cached_updateValidatorSetCache (h : s.witness.validatorSetCache d = some vs)
    {dynasty : BigIntRef} {ans : RegistrarAnswer}
    (hkeeps : dynasty.value = d → fetchedSet d ans = some vs) :
    (s.updateValidatorSetCache dynasty ans).2.witness.validatorSetCache d = some vs := by
  unfold updateValidatorSetCache
  rw [Witness.updateValidatorSetCache_eq]
  cases hset : fetchedSet dynasty.value ans with
  | none => exact h
  | some vs' =>
    show Function.update s.witness.validatorSetCache dynasty.value (some vs') d = some vs
    by_cases hd : dynasty.value = d
    · rw [hd, hkeeps hd] at hset
      rw [hd, Function.update_self, hset]
    · rw [Function.update_of_ne (Ne.symm hd), h]

theorem validatorSetCache_update (w : Witness) (ans : UpdateAnswers) :
    (w.update cfg r ans).validatorSetCache =
      match fetchedByUpdate w ans with
      | none => w.validatorSetCache
      | some (dynasty, vs) => Function.update w.validatorSetCache dynasty (some vs) := by
  have hcollect : ∀ (w : Witness) (side : ChainSide) (ans : CollectAnswers),
      (w.collectInterChainMessageEventsOnChain cfg r side ans).validatorSetCache =
        w.validatorSetCache := by
    intro w side ans
    unfold Witness.collectInterChainMessageEventsOnChain Witness.setLastQueryedHeightForType
      Witness.stop
    grind
  have hheight : ∀ (w : Witness) (h : Option UInt64),
      (w.updateMainchainBlockHeight h).validatorSetCache = w.validatorSetCache ∧
      (w.updateMainchainBlockHeight h).witnessedDynasty = w.witnessedDynasty ∧
      (w.updateSubchainBlockHeight h).validatorSetCache = w.validatorSetCache := by
    intro w h
    cases h <;> exact ⟨rfl, rfl, rfl⟩
  unfold Witness.update fetchedByUpdate
  dsimp only
  rw [(hheight w ans.mainchainHeight).2.1]
  cases hknown : (w.updateMainchainBlockHeight ans.mainchainHeight).mainchainBlockHeight with
  | none => exact (hheight w ans.mainchainHeight).1
  | some height =>
    dsimp only
    simp only [Witness.updateValidatorSetCache_eq]
    cases hset : fetchedSet (calculateDynasty height) ans.validatorSet <;>
      by_cases hnew : calculateDynasty height > w.witnessedDynasty <;>
      simp [hnew] <;> grind

theorem cached_call (h : s.witness.validatorSetCache d = some vs) {c : Call}
    (hkeeps : c.Keeps s d vs) : (s.call cfg r c).2.witness.validatorSetCache d = some vs := by
  cases c with
  | getValidatorSetByDynasty dynasty ans =>
    show (s.getValidatorSetByDynasty dynasty ans).2.witness.validatorSetCache d = some vs
    unfold getValidatorSetByDynasty
    split
    next hnone =>
      refine cached_updateValidatorSetCache h fun hd => ?_
      rw [hd, h] at hnone
      cases hnone
    · split
      · exact h
      next hother =>
        refine cached_updateValidatorSetCache h fun hd => ?_
        rw [hd] at hother
        exact (hkeeps hd).resolve_left hother
  | update pointer ans =>
    show (s.witness.update cfg r ans).validatorSetCache d = some vs
    rw [validatorSetCache_update]
    cases hfetched : fetchedByUpdate s.witness ans with
    | none => exact h
    | some p =>
      obtain ⟨d', vs'⟩ := p
      show Function.update s.witness.validatorSetCache d' (some vs') d = some vs
      by_cases hd : d' = d
      · rw [hd] at hfetched
        rw [hd, Function.update_self, hkeeps vs' hfetched]
      · rw [Function.update_of_ne (Ne.symm hd), h]

theorem get_of_cached (h : s.witness.validatorSetCache d = some vs) (pointer : Nat)
    (ans : RegistrarAnswer) :
    (s.getValidatorSetByDynasty ⟨pointer, d⟩ ans).1 =
      if s.pointers d = some pointer then some vs else fetchedSet d ans := by
  unfold getValidatorSetByDynasty
  rw [h]
  dsimp only
  split
  · rfl
  · unfold updateValidatorSetCache
    rw [Witness.updateValidatorSetCache_eq]
    cases fetchedSet d ans <;> rfl

/-- Once the set of a dynasty is cached, it is the answer of every later call for the dynasty, as
long as each call passes the pointer the set was made with or fetches the same set again; and a call
answers so whatever the endpoint does exactly if it passes that pointer. -/
theorem fetched_set_is_answered (cfg : WitnessConfig) (r : LogReader)
    (h : s.witness.validatorSetCache d = some vs) (cs : List Call)
    (hkeep : s.AllKeep cfg r d vs cs) :
    (∀ dynasty ans answer, (.getValidatorSetByDynasty dynasty ans, answer) ∈ s.trace cfg r cs →
      dynasty.value = d → answer = some (some vs)) ∧
    ∀ pointer, (∀ ans, (s.getValidatorSetByDynasty ⟨pointer, d⟩ ans).1 = some vs) ↔
      s.pointers d = some pointer := by
  refine ⟨?_, fun pointer => ⟨fun hall => ?_, fun hpointer ans => ?_⟩⟩
  · induction cs generalizing s with
    | nil => exact fun _ _ _ hmem => nomatch hmem
    | cons c cs ih =>
      intro dynasty ans answer hmem hd
      obtain heq | hmem := List.mem_cons.mp hmem
      · obtain ⟨rfl, rfl⟩ := Prod.mk.inj heq
        obtain ⟨pointer, value⟩ := dynasty
        obtain rfl : value = d := hd
        show some (s.getValidatorSetByDynasty ⟨pointer, value⟩ ans).1 = _
        rw [get_of_cached h]
        split
        · rfl
        next hother => rw [(hkeep.1 rfl).resolve_left hother]
      · exact ih (cached_call h hkeep.1) hkeep.2 dynasty ans answer hmem hd
  · by_contra hother
    have hnone := hall none
    rw [get_of_cached h, if_neg hother] at hnone
    cases hnone
  · rw [get_of_cached h, if_pos hpointer]

def afterFetch : CachingWitness :=
  ((⟨⟨none, none, 0, fun _ => none, fun _ => none, [], true⟩, fun _ => none⟩ :
    CachingWitness).getValidatorSetByDynasty ⟨1, 5⟩ (some ([7], [10]))).2

/-- The endpoint is down, and dynasty 5 is asked for with another pointer. -/
theorem cached_set_not_answered :
    afterFetch.witness.validatorSetCache 5 = some ⟨5, [⟨7, 10⟩]⟩ ∧
      (afterFetch.getValidatorSetByDynasty ⟨2, 5⟩ none).1 = none := by
  decide

theorem fetched_set_is_answered_same :
    ∃ s : CachingWitness, s.witness.validatorSetCache 5 = some ⟨5, [⟨7, 10⟩]⟩ ∧ ∀ cfg r answer,
      (.getValidatorSetByDynasty ⟨1, 5⟩ none, answer) ∈
        s.trace cfg r [.getValidatorSetByDynasty ⟨1, 5⟩ none] →
      answer = some (some ⟨5, [⟨7, 10⟩]⟩) := by
  have hcached : afterFetch.witness.validatorSetCache 5 = some ⟨5, [⟨7, 10⟩]⟩ := by decide
  have hpointer : afterFetch.pointers 5 = some 1 := by decide
  refine ⟨afterFetch, hcached, fun cfg r answer hmem => ?_⟩
  exact (fetched_set_is_answered cfg r hcached [.getValidatorSetByDynasty ⟨1, 5⟩ none]
    ⟨fun _ => .inl hpointer, trivial⟩).1 _ _ answer hmem rfl

end CachingWitness

end ThetaSubchain
