/-
What an effect does to a stored block.

Five operations of the chain overwrite the status of a block without looking at it, and
the guards are spread over the engine.  `BlockChange` lists the changes that remain once
the guards are taken into account: they follow the transition diagram of block.go.
-/
import ThetaSubchain.Consensus.WellFormed

namespace ThetaSubchain

open Durable EngineConf

variable {nd : Node} {a : Answers} {inp : Inputs} {J : EngineConf → Prop} {s s' : EngineConf}

inductive BlockChange (a : Answers) (eb : ExtendedBlock) : ExtendedBlock → Prop where
  | link (children : List Hash) : BlockChange a eb { eb with children := children }
  | invalid (hpending : eb.status = .pending) : BlockChange a eb { eb with status := .invalid }
  | update (hpending : eb.status = .pending)
      (happly : a.applyBlockTxs eb.block = (.ok, some true)) :
      BlockChange a eb { eb with hasValidatorUpdate := true }
  | valid (hpending : eb.status = .pending)
      (happly : ∃ update, a.applyBlockTxs eb.block = (.ok, update) ∧
        (update = some true → eb.hasValidatorUpdate = true)) :
      BlockChange a eb { eb with status := .valid }
  | commit (hvalid : eb.status = .valid) : BlockChange a eb { eb with status := .committed }
  | finalize (st : BlockStatus) (hvalid : eb.status.isValid) (hst : st.isFinalized) :
      BlockChange a eb { eb with status := st }

namespace BlockChange

variable {eb eb' : ExtendedBlock}

variable (h : BlockChange a eb eb')
include h

theorem block_eq : eb'.block = eb.block := by
  cases h <;> rfl

theorem isValid (hv : eb.status.isValid) : eb'.status.isValid := by
  cases h with
  | link children => exact hv
  | invalid hpending => rw [hpending] at hv; cases hv
  | update hpending happly => exact hv
  | valid hpending happly => rfl
  | commit hvalid => rfl
  | finalize st hvalid hst => exact isValid_of_isFinalized hst

theorem isFinalized (hf : eb.status.isFinalized) :
    eb'.status.isFinalized := by
  cases h with
  | link children => exact hf
  | invalid hpending => rw [hpending] at hf; cases hf
  | update hpending happly => exact hf
  | valid hpending happly => rw [hpending] at hf; cases hf
  | commit hvalid => rw [hvalid] at hf; cases hf
  | finalize st hvalid hst => exact hst

theorem stays_invalid (hi : eb.status = .invalid) :
    eb'.status = .invalid := by
  cases h with
  | link children => exact hi
  | invalid hpending => rfl
  | update hpending happly => exact hi
  | valid hpending happly => rw [hpending] at hi; cases hi
  | commit hvalid => rw [hvalid] at hi; cases hi
  | finalize st hvalid hst => rw [hi] at hvalid; cases hvalid

end BlockChange

def StoreStep (a : Answers) (d d' : Store) : Prop :=
  ∀ h, d'.block h = d.block h ∨
    (d.block h = none ∧ ∃ b children, d'.block h = some ⟨b, children, .pending, false⟩) ∨
    ∃ eb eb', d.block h = some eb ∧ d'.block h = some eb' ∧ BlockChange a eb eb'

variable {d d' : Store}

theorem StoreStep.of_eq (h : d'.block = d.block) : StoreStep a d d' :=
  fun x => .inl (congrFun h x)

variable {h : Hash}

theorem storeStep_withBlock {eb eb' : ExtendedBlock} (hb : s.disk.block h = some eb)
    (hchange : BlockChange a eb eb') : StoreStep a s.disk (s.withBlock h eb').disk := by
  intro x
  by_cases hx : x = h
  · rw [hx]
    exact .inr (.inr ⟨eb, eb', hb, by rw [withBlock_block, if_pos rfl], hchange⟩)
  · left
    rw [withBlock_block, if_neg hx]

theorem storeStep_newBlock {b : Block} {children : List Hash} (hnew : s.disk.block h = none) :
    StoreStep a s.disk (s.withBlock h ⟨b, children, .pending, false⟩).disk := by
  intro x
  by_cases hx : x = h
  · rw [hx]
    exact .inr (.inl ⟨hnew, b, children, by rw [withBlock_block, if_pos rfl]⟩)
  · left
    rw [withBlock_block, if_neg hx]

theorem Effect.storeStep (he : Effect nd a inp J s s') : StoreStep a s.disk s'.disk := by
  cases he with
  | linkChild b pb hJ hb hnew hp => exact storeStep_withBlock hp (.link _)
  | newBlock b children hJ hb hnew hchildren => exact storeStep_newBlock hnew
  | markInvalid h eb hJ hb hpending => exact storeStep_withBlock hb (.invalid hpending)
  | markUpdate h eb hJ hb hpending happly => exact storeStep_withBlock hb (.update hpending happly)
  | markValid h eb pb hJ hb hpending hp hvalid hrecent hheight hcov happly =>
    exact storeStep_withBlock hb (.valid hpending happly)
  | commit eb hJ hb hvalid => exact storeStep_withBlock hb (.commit hvalid)
  | _ => exact StoreStep.of_eq rfl

theorem MidEffect.storeStep (he : MidEffect nd a J s s') : StoreStep a s.disk s'.disk := by
  cases he with
  | markFinalized c h eb lb st hc hl hpath hb hvalid hrecent hle hst =>
    refine storeStep_withBlock hb (.finalize st hvalid ?_)
    rcases hst with rfl | rfl <;> rfl
  | _ => exact StoreStep.of_eq rfl

theorem StoreStep.forward (hs : StoreStep a d d') {eb : ExtendedBlock} (hb : d.block h = some eb) :
    ∃ eb', d'.block h = some eb' ∧ (eb' = eb ∨ BlockChange a eb eb') := by
  rcases hs h with heq | ⟨hnone, -⟩ | ⟨x, x', hx, hx', hchange⟩
  · exact ⟨eb, heq.trans hb, .inl rfl⟩
  · rw [hnone] at hb
    cases hb
  · rw [hb, Option.some.injEq] at hx
    exact ⟨x', hx', .inr (hx ▸ hchange)⟩

theorem StoreStep.grows (hs : StoreStep a d d') : d.Grows d' := by
  intro h eb hb
  obtain ⟨eb', hb', rfl | hchange⟩ := hs.forward hb
  · exact ⟨eb', hb', rfl, id, id⟩
  · exact ⟨eb', hb', hchange.block_eq, hchange.isValid, hchange.isFinalized⟩

end ThetaSubchain
