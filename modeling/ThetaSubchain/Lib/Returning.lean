/-
Processes that do not die.
-/
import ThetaSubchain.Lib.Process

namespace Durable

variable {μ δ ο α β : Type}

namespace Proc

def Returns (m : Proc μ δ ο α) (s : Conf μ δ ο) : Prop := (m.run s).1.isSome

def Always (m : Proc μ δ ο α) : Prop := ∀ s, m.Returns s

variable {f : α → Proc μ δ ο β} {s : Conf μ δ ο} {m : Proc μ δ ο α}

theorem returns_bind : (m >>= f).Returns s ↔ ∃ a t, m.run s = (some a, t) ∧ (f a).Returns t := by
  unfold Returns
  rw [run_bind]
  cases hrun : m.run s with
  | mk result t =>
    cases result with
    | none => simp
    | some a =>
      constructor
      · exact fun h => ⟨a, t, rfl, h⟩
      · rintro ⟨a', t', heq, h⟩
        cases heq
        exact h

theorem returns_orDie {o : Option α} :
    ((orDie o : Proc μ δ ο α) >>= f).Returns s ↔ ∃ a, o = some a ∧ (f a).Returns s := by
  cases o with
  | none => exact ⟨nofun, fun ⟨_, h, _⟩ => nomatch h⟩
  | some a =>
    constructor
    · exact fun h => ⟨a, rfl, h⟩
    · rintro ⟨a', heq, h⟩
      cases heq
      exact h

theorem returns_disk {f : δ → Proc μ δ ο β} :
    ((disk : Proc μ δ ο δ) >>= f).Returns s ↔ (f s.disk).Returns s := Iff.rfl

theorem always_pure (a : α) : (Pure.pure a : Proc μ δ ο α).Always := fun _ => rfl

theorem always_output (o : ο) : (output o : Proc μ δ ο Unit).Always := fun _ => rfl

theorem always_modifyMem (f : μ → μ) : (modifyMem f : Proc μ δ ο Unit).Always := fun _ => rfl

theorem always_modifyDisk (f : δ → δ) : (modifyDisk f : Proc μ δ ο Unit).Always := fun _ => rfl

theorem always_disk : (disk : Proc μ δ ο δ).Always := fun _ => rfl

theorem always_mem : (mem : Proc μ δ ο μ).Always := fun _ => rfl

theorem Always.bind (hm : m.Always) (hf : ∀ a, (f a).Always) : (m >>= f).Always := by
  intro s
  obtain ⟨a, ha⟩ := Option.isSome_iff_exists.mp (hm s)
  exact returns_bind.mpr ⟨a, (m.run s).2, Prod.ext ha rfl, hf a _⟩

theorem always_forEach {xs : List α} {f : α → Proc μ δ ο Unit} (h : ∀ x, (f x).Always) :
    (forEach xs f).Always := by
  induction xs with
  | nil => exact always_pure ()
  | cons x xs ih => exact (h x).bind fun _ => ih

theorem returns_forEach_iff {xs : List α} {f : α → Proc μ δ ο Unit} (P : α → δ → Prop)
    (hdisk : ∀ x s, ((f x).run s).2.disk = s.disk) (hf : ∀ x s, (f x).Returns s ↔ P x s.disk)
    (s : Conf μ δ ο) : (forEach xs f).Returns s ↔ ∀ x ∈ xs, P x s.disk := by
  induction xs generalizing s with
  | nil => exact iff_of_true rfl nofun
  | cons x xs ih =>
    rw [List.forall_mem_cons, ← hf]
    show (f x >>= fun _ => forEach xs f).Returns s ↔ _
    rw [returns_bind]
    constructor
    · rintro ⟨u, t, hrun, ht⟩
      have hd : t.disk = s.disk := by rw [← hdisk x s, hrun]
      rw [ih t, hd] at ht
      exact ⟨by simp [Returns, hrun], ht⟩
    · rintro ⟨hx, hxs⟩
      obtain ⟨u, hu⟩ := Option.isSome_iff_exists.mp hx
      refine ⟨u, _, Prod.ext hu rfl, (ih _).mpr ?_⟩
      rwa [hdisk]

end Proc

end Durable
