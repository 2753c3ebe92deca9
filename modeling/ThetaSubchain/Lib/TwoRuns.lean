/-
Two runs of a process, side by side.

A process respects a relation between configurations if it returns the same result from related
ones, or dies from both, and leaves related ones behind.
-/
import ThetaSubchain.Lib.Process

namespace Durable

namespace Proc

variable {μ δ ο α β : Type} {R : Conf μ δ ο → Conf μ δ ο → Prop} {s t : Conf μ δ ο}

def Together (R : Conf μ δ ο → Conf μ δ ο → Prop) (m m' : Proc μ δ ο α) (s t : Conf μ δ ο) : Prop :=
  (m.run s).1 = (m'.run t).1 ∧ R (m.run s).2 (m'.run t).2

def Respects (R : Conf μ δ ο → Conf μ δ ο → Prop) (m : Proc μ δ ο α) : Prop :=
  ∀ s t, R s t → Together R m m s t

theorem Together.bind {m m' : Proc μ δ ο α} {f f' : α → Proc μ δ ο β} (h : Together R m m' s t)
    (hf : ∀ a s' t', R s' t' → Together R (f a) (f' a) s' t') :
    Together R (m >>= f) (m' >>= f') s t := by
  obtain ⟨hresult, hrel⟩ := h
  unfold Together
  rw [run_bind, run_bind]
  cases hm : m.run s with
  | mk r s' =>
    cases hm' : m'.run t with
    | mk r' t' =>
      rw [hm, hm'] at hresult hrel
      obtain rfl : r = r' := hresult
      cases r with
      | none => exact ⟨rfl, hrel⟩
      | some a => exact hf a s' t' hrel

theorem Together.die (h : R s t) : Together R (Proc.die : Proc μ δ ο α) Proc.die s t := ⟨rfl, h⟩

theorem Together.orDie (h : R s t) {o o' : Option α} (ho : o = o') :
    Together R (Proc.orDie o) (Proc.orDie o') s t := by
  subst ho
  cases o with
  | none => exact ⟨rfl, h⟩
  | some a => exact ⟨rfl, h⟩

theorem Together.orDie_bind (h : R s t) {o : Option α} {f f' : α → Proc μ δ ο β}
    (hf : ∀ a, o = some a → Together R (f a) (f' a) s t) :
    Together R (Proc.orDie o >>= f) (Proc.orDie o >>= f') s t := by
  cases o with
  | none => exact ⟨rfl, h⟩
  | some a => exact hf a rfl

theorem Respects.pure (a : α) : Respects R (Pure.pure a) := fun _ _ h => ⟨rfl, h⟩

theorem Respects.bind {m : Proc μ δ ο α} {f : α → Proc μ δ ο β} (hm : Respects R m)
    (hf : ∀ a, Respects R (f a)) : Respects R (m >>= f) :=
  fun s t h => (hm s t h).bind fun a s' t' h' => hf a s' t' h'

theorem Respects.die : Respects R (Proc.die : Proc μ δ ο α) := fun _ _ h => .die h

theorem Respects.orDie (o : Option α) : Respects R (Proc.orDie o) := fun _ _ h => .orDie h rfl

theorem Respects.ite {c : Prop} [Decidable c] {m m' : Proc μ δ ο α} (hm : Respects R m)
    (hm' : Respects R m') : Respects R (if c then m else m') := by
  by_cases hc : c
  · rw [if_pos hc]
    exact hm
  · rw [if_neg hc]
    exact hm'

theorem Respects.mem {f : μ → Proc μ δ ο β} (hmem : ∀ s t, R s t → s.mem = t.mem)
    (hf : ∀ e, Respects R (f e)) : Respects R (Proc.mem >>= f) := by
  intro s t h
  show Together R (f s.mem) (f t.mem) s t
  rw [hmem s t h]
  exact hf _ s t h

theorem Together.disk {f f' : δ → Proc μ δ ο β} (h : Together R (f s.disk) (f' t.disk) s t) :
    Together R (Proc.disk >>= f) (Proc.disk >>= f') s t := h

theorem Respects.disk {f : δ → Proc μ δ ο β} (hdisk : ∀ s t, R s t → f s.disk = f t.disk)
    (hf : ∀ d, Respects R (f d)) : Respects R (Proc.disk >>= f) := by
  intro s t h
  apply Together.disk
  rw [hdisk s t h]
  exact hf _ s t h

theorem Respects.modifyMem {f : μ → μ}
    (h : ∀ s t, R s t → R { s with mem := f s.mem } { t with mem := f t.mem }) :
    Respects R (Proc.modifyMem f) := fun s t hst => ⟨rfl, h s t hst⟩

theorem Respects.modifyDisk {f : δ → δ}
    (h : ∀ s t, R s t → R { s with disk := f s.disk } { t with disk := f t.disk }) :
    Respects R (Proc.modifyDisk f) := fun s t hst => ⟨rfl, h s t hst⟩

theorem Respects.output {o : ο}
    (h : ∀ s t, R s t → R { s with outs := s.outs ++ [o] } { t with outs := t.outs ++ [o] }) :
    Respects R (Proc.output o) := fun s t hst => ⟨rfl, h s t hst⟩

theorem Respects.forEach {xs : List α} {f : α → Proc μ δ ο Unit} (h : ∀ x ∈ xs, Respects R (f x)) :
    Respects R (Proc.forEach xs f) := by
  induction xs with
  | nil => exact .pure ()
  | cons x xs ih =>
    exact (h x List.mem_cons_self).bind fun _ => ih fun y hy => h y (.tail _ hy)

theorem Together.forEach_output {xs ys : List α} {f : α → ο}
    (hleft : ∀ s t x, R s t → R { s with outs := s.outs ++ [f x] } t)
    (hright : ∀ s t x, R s t → R s { t with outs := t.outs ++ [f x] }) (h : R s t) :
    Together R (Proc.forEach xs fun x => Proc.output (f x))
      (Proc.forEach ys fun x => Proc.output (f x)) s t := by
  induction xs generalizing s with
  | cons x xs ih => exact ih (hleft s t x h)
  | nil =>
    induction ys generalizing t with
    | nil => exact ⟨rfl, h⟩
    | cons y ys ih => exact ih (hright s t y h)

end Proc

end Durable
