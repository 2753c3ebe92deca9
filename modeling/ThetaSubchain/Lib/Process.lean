/-
Processes with a volatile memory, a durable store and outputs.

A process replaces its store by one atomic write at a time.  A crash may happen after any write and
after any output: the memory is lost, and the store and the outputs remain.  The crash condition `P`
of `Proc.wp P m Q s` must hold after every single write and output.
-/
import Mathlib.Logic.Relation

namespace Durable

/-- What a process acts on: its memory, its durable store and the outputs so far,
oldest first. -/
structure Conf (μ δ ο : Type) where
  mem : μ
  disk : δ
  outs : List ο

/-- Processes over a memory `μ`, a durable store `δ` and outputs `ο`. -/
inductive Proc (μ δ ο α : Type) where
  | pure (a : α)
  | get (k : μ → δ → Proc μ δ ο α)
  | setMem (m : μ) (k : Proc μ δ ο α)
  | write (d : δ) (k : Proc μ δ ο α)
  | emit (o : ο) (k : Proc μ δ ο α)
  | abort

variable {μ δ ο α β : Type}

namespace Proc

def bind : Proc μ δ ο α → (α → Proc μ δ ο β) → Proc μ δ ο β
  | .pure a, f => f a
  | .get k, f => .get fun m d => (k m d).bind f
  | .setMem m k, f => .setMem m (k.bind f)
  | .write d k, f => .write d (k.bind f)
  | .emit o k, f => .emit o (k.bind f)
  | .abort, _ => .abort

instance : Monad (Proc μ δ ο) where
  pure := Proc.pure
  bind := Proc.bind

def mem : Proc μ δ ο μ := .get fun m _ => .pure m

def disk : Proc μ δ ο δ := .get fun _ d => .pure d

def modifyMem (f : μ → μ) : Proc μ δ ο Unit := .get fun m _ => .setMem (f m) (.pure ())

def modifyDisk (f : δ → δ) : Proc μ δ ο Unit := .get fun _ d => .write (f d) (.pure ())

def output (o : ο) : Proc μ δ ο Unit := .emit o (.pure ())

def die : Proc μ δ ο α := .abort

def orDie : Option α → Proc μ δ ο α
  | some a => .pure a
  | none => .abort

def forEach : List α → (α → Proc μ δ ο Unit) → Proc μ δ ο Unit
  | [], _ => .pure ()
  | x :: xs, f => (f x).bind fun _ => forEach xs f

/-- The result of a process, `none` if it died, and what it leaves behind. -/
def run : Proc μ δ ο α → Conf μ δ ο → Option α × Conf μ δ ο
  | .pure a, s => (some a, s)
  | .get k, s => (k s.mem s.disk).run s
  | .setMem m k, s => k.run { s with mem := m }
  | .write d k, s => k.run { s with disk := d }
  | .emit o k, s => k.run { s with outs := s.outs ++ [o] }
  | .abort, s => (none, s)

def points : Proc μ δ ο α → Conf μ δ ο → List (Conf μ δ ο)
  | .pure _, _ => []
  | .get k, s => (k s.mem s.disk).points s
  | .setMem m k, s => k.points { s with mem := m }
  | .write d k, s => { s with disk := d } :: k.points { s with disk := d }
  | .emit o k, s =>
    { s with outs := s.outs ++ [o] } :: k.points { s with outs := s.outs ++ [o] }
  | .abort, _ => []

theorem run_bind' (m : Proc μ δ ο α) (f : α → Proc μ δ ο β) (s : Conf μ δ ο) :
    (m.bind f).run s = match m.run s with
      | (some a, s') => (f a).run s'
      | (none, s') => (none, s') := by
  induction m generalizing s with
  | pure a => rfl
  | get k ih => exact ih _ _ s
  | setMem m k ih => exact ih _
  | write d k ih => exact ih _
  | emit o k ih => exact ih _
  | abort => rfl

@[simp] theorem run_bind (m : Proc μ δ ο α) (f : α → Proc μ δ ο β) (s : Conf μ δ ο) :
    run (m >>= f) s = match m.run s with
      | (some a, s') => (f a).run s'
      | (none, s') => (none, s') :=
  run_bind' m f s

variable {m : Proc μ δ ο α}

theorem run_bind_eq_some {f : α → Proc μ δ ο β} {s t : Conf μ δ ο} {b : β} :
    (m >>= f).run s = (some b, t) ↔
      ∃ a u, m.run s = (some a, u) ∧ (f a).run u = (some b, t) := by
  rw [run_bind]
  cases hm : m.run s with
  | mk result u =>
    cases result with
    | none => simp
    | some a =>
      constructor
      · exact fun h => ⟨a, u, rfl, h⟩
      · rintro ⟨a', u', heq, h⟩
        cases heq
        exact h

@[simp] theorem run_pure (a : α) (s : Conf μ δ ο) :
    run (Pure.pure a : Proc μ δ ο α) s = (some a, s) := rfl

@[simp] theorem run_disk (s : Conf μ δ ο) : run (disk : Proc μ δ ο δ) s = (some s.disk, s) := rfl

@[simp] theorem run_modifyDisk (f : δ → δ) (s : Conf μ δ ο) :
    run (modifyDisk f : Proc μ δ ο Unit) s = (some (), { s with disk := f s.disk }) := rfl

/-- `P` holds after every write and output of the process, and `Q` holds of its
result if it returns. -/
def wp (P : δ → List ο → Prop) :
    Proc μ δ ο α → (α → Conf μ δ ο → Prop) → Conf μ δ ο → Prop
  | .pure a, Q, s => Q a s
  | .get k, Q, s => (k s.mem s.disk).wp P Q s
  | .setMem m k, Q, s => k.wp P Q { s with mem := m }
  | .write d k, Q, s => P d s.outs ∧ k.wp P Q { s with disk := d }
  | .emit o k, Q, s =>
    P s.disk (s.outs ++ [o]) ∧ k.wp P Q { s with outs := s.outs ++ [o] }
  | .abort, _, _ => True

variable {P : δ → List ο → Prop} {Q R : α → Conf μ δ ο → Prop} {s : Conf μ δ ο}

theorem wp_bind' {T : β → Conf μ δ ο → Prop} (m : Proc μ δ ο α) (f : α → Proc μ δ ο β) :
    (m.bind f).wp P T s ↔ m.wp P (fun a => (f a).wp P T) s := by
  induction m generalizing s with
  | pure a => rfl
  | get k ih => exact ih _ _
  | setMem m k ih => exact ih
  | write d k ih => exact and_congr_right fun _ => ih
  | emit o k ih => exact and_congr_right fun _ => ih
  | abort => rfl

@[simp] theorem wp_bind {T : β → Conf μ δ ο → Prop} (m : Proc μ δ ο α) (f : α → Proc μ δ ο β) :
    wp P (m >>= f) T s ↔ m.wp P (fun a => (f a).wp P T) s :=
  wp_bind' m f

@[simp] theorem wp_pure (a : α) : wp P (Pure.pure a : Proc μ δ ο α) Q s ↔ Q a s := Iff.rfl

@[simp] theorem wp_mem {Q : μ → Conf μ δ ο → Prop} :
    wp P (mem : Proc μ δ ο μ) Q s ↔ Q s.mem s := Iff.rfl

@[simp] theorem wp_disk {Q : δ → Conf μ δ ο → Prop} :
    wp P (disk : Proc μ δ ο δ) Q s ↔ Q s.disk s := Iff.rfl

@[simp] theorem wp_modifyMem {Q : Unit → Conf μ δ ο → Prop} (f : μ → μ) :
    wp P (modifyMem f : Proc μ δ ο Unit) Q s ↔ Q () { s with mem := f s.mem } := Iff.rfl

@[simp] theorem wp_modifyDisk {Q : Unit → Conf μ δ ο → Prop} (f : δ → δ) :
    wp P (modifyDisk f : Proc μ δ ο Unit) Q s ↔
      P (f s.disk) s.outs ∧ Q () { s with disk := f s.disk } := Iff.rfl

@[simp] theorem wp_output {Q : Unit → Conf μ δ ο → Prop} (o : ο) :
    wp P (output o : Proc μ δ ο Unit) Q s ↔
      P s.disk (s.outs ++ [o]) ∧ Q () { s with outs := s.outs ++ [o] } := Iff.rfl

@[simp] theorem wp_die : wp P (die : Proc μ δ ο α) Q s ↔ True := Iff.rfl

@[simp] theorem wp_orDie (o : Option α) :
    wp P (orDie o : Proc μ δ ο α) Q s ↔ ∀ a, o = some a → Q a s := by
  cases o with
  | none => simp [orDie, wp]
  | some a => simp [orDie, wp]

theorem wp_mono (h : ∀ a s', Q a s' → R a s') (hm : m.wp P Q s) : m.wp P R s := by
  induction m generalizing s with
  | pure a => exact h a s hm
  | get k ih => exact ih _ _ hm
  | setMem m k ih => exact ih hm
  | write d k ih => exact ⟨hm.1, ih hm.2⟩
  | emit o k ih => exact ⟨hm.1, ih hm.2⟩
  | abort => trivial

theorem wp_and_run (h : m.wp P Q s) : m.wp P (fun a s' => Q a s' ∧ m.run s = (some a, s')) s := by
  induction m generalizing s with
  | pure a => exact ⟨h, rfl⟩
  | get k ih => exact ih _ _ h
  | setMem m k ih => exact ih h
  | write d k ih => exact ⟨h.1, ih h.2⟩
  | emit o k ih => exact ⟨h.1, ih h.2⟩
  | abort => trivial

/-- The loop rule.  The invariant is indexed by the elements already handled. -/
theorem wp_forEach (I : List α → Conf μ δ ο → Prop) (f : α → Proc μ δ ο Unit) (xs : List α)
    (step : ∀ pre x s, x ∈ xs → I pre s → (f x).wp P (fun _ => I (pre ++ [x])) s)
    {s : Conf μ δ ο} (h : I [] s) : (forEach xs f).wp P (fun _ => I xs) s := by
  suffices ∀ (ys pre : List α) (s : Conf μ δ ο), (∀ y ∈ ys, y ∈ xs) → I pre s →
      (forEach ys f).wp P (fun _ => I (pre ++ ys)) s by
    simpa using this xs [] s (fun _ hy => hy) h
  intro ys
  induction ys with
  | nil =>
    intro pre s _ hI
    simpa [forEach, wp] using hI
  | cons y ys ih =>
    intro pre s hmem hI
    rw [forEach, wp_bind']
    refine wp_mono (fun _ s' hs' => ?_) (step pre y s (hmem y (by simp)) hI)
    have := ih (pre ++ [y]) s' (fun z hz => hmem z (by simp [hz])) hs'
    simpa using this

theorem wp_forEach_const (I : Conf μ δ ο → Prop) (f : α → Proc μ δ ο Unit) (xs : List α)
    (step : ∀ x s, x ∈ xs → I s → (f x).wp P (fun _ => I) s) {s : Conf μ δ ο} (h : I s) :
    (forEach xs f).wp P (fun _ => I) s :=
  wp_forEach (fun _ => I) f xs (fun _ x s hx => step x s hx) h

theorem wp_points (h : m.wp P Q s) : ∀ c ∈ m.points s, P c.disk c.outs := by
  induction m generalizing s with
  | pure a => intro c hc; simp [points] at hc
  | get k ih => exact ih _ _ h
  | setMem m k ih => exact ih h
  | write d k ih =>
    intro c hc
    rcases List.mem_cons.1 hc with rfl | hc
    · exact h.1
    · exact ih h.2 c hc
  | emit o k ih =>
    intro c hc
    rcases List.mem_cons.1 hc with rfl | hc
    · exact h.1
    · exact ih h.2 c hc
  | abort => intro c hc; simp [points] at hc

theorem wp_run (h : m.wp P Q s) {a : α} {s' : Conf μ δ ο} (hr : m.run s = (some a, s')) :
    Q a s' := by
  induction m generalizing s with
  | pure b => cases hr; exact h
  | get k ih => exact ih _ _ h hr
  | setMem m k ih => exact ih h hr
  | write d k ih => exact ih h.2 hr
  | emit o k ih => exact ih h.2 hr
  | abort => cases hr

theorem wp_of_run (h : ∀ a s', m.run s = (some a, s') → Q a s') : m.wp (fun _ _ => True) Q s := by
  induction m generalizing s with
  | pure a => exact h a s rfl
  | get k ih => exact ih _ _ h
  | setMem m k ih => exact ih h
  | write d k ih => exact ⟨trivial, ih h⟩
  | emit o k ih => exact ⟨trivial, ih h⟩
  | abort => trivial

theorem wp_run_disk (h0 : P s.disk s.outs) (h : m.wp P Q s) :
    P (m.run s).2.disk (m.run s).2.outs := by
  induction m generalizing s with
  | pure b => exact h0
  | get k ih => exact ih _ _ h0 h
  | setMem m k ih => exact ih (s := { s with mem := m }) h0 h
  | write d k ih => exact ih (s := { s with disk := d }) h.1 h.2
  | emit o k ih => exact ih (s := { s with outs := s.outs ++ [o] }) h.1 h.2
  | abort => exact h0

theorem exists_point_run (m : Proc μ δ ο α) (s : Conf μ δ ο) :
    ∃ c ∈ s :: m.points s, c.disk = (m.run s).2.disk ∧ c.outs = (m.run s).2.outs := by
  induction m generalizing s with
  | pure a => exact ⟨s, by simp, rfl, rfl⟩
  | get k ih => exact ih _ _ s
  | setMem x k ih =>
    obtain ⟨c, hc, hd, ho⟩ := ih { s with mem := x }
    rcases List.mem_cons.1 hc with rfl | hc
    · exact ⟨s, by simp, hd, ho⟩
    · exact ⟨c, .tail _ hc, hd, ho⟩
  | write d k ih =>
    obtain ⟨c, hc, hd, ho⟩ := ih { s with disk := d }
    exact ⟨c, .tail _ hc, hd, ho⟩
  | emit o k ih =>
    obtain ⟨c, hc, hd, ho⟩ := ih { s with outs := s.outs ++ [o] }
    exact ⟨c, .tail _ hc, hd, ho⟩
  | abort => exact ⟨s, by simp, rfl, rfl⟩

end Proc

structure Machine (μ δ ο : Type) where
  mem : Option μ
  disk : δ
  outs : List ο

theorem Machine.conf_inj {μ δ ο : Type} {s t : Conf μ δ ο}
    (h : (⟨some s.mem, s.disk, s.outs⟩ : Machine μ δ ο) = ⟨some t.mem, t.disk, t.outs⟩) :
    s = t := by
  cases s
  cases t
  cases h
  rfl

/-- One step of a machine that runs the processes `ops`, may crash at any point at
which `crashOk` holds, and starts with the memory `boot` reads from the store. -/
inductive Step (boot : δ → μ) (ops : Conf μ δ ο → Proc μ δ ο Unit → Prop)
    (crashOk : δ → List ο → Prop) : Machine μ δ ο → Machine μ δ ο → Prop where
  | run {s s' : Conf μ δ ο} {m : Proc μ δ ο Unit} (hm : ops s m)
      (hr : m.run s = (some (), s')) :
      Step boot ops crashOk ⟨some s.mem, s.disk, s.outs⟩ ⟨some s'.mem, s'.disk, s'.outs⟩
  | crash {s c : Conf μ δ ο} {m : Proc μ δ ο Unit} (hm : ops s m)
      (hc : c ∈ s :: m.points s) (hok : crashOk c.disk c.outs) :
      Step boot ops crashOk ⟨some s.mem, s.disk, s.outs⟩ ⟨none, c.disk, c.outs⟩
  | restart {d : δ} {o : List ο} :
      Step boot ops crashOk ⟨none, d, o⟩ ⟨some (boot d), d, o⟩

def Reachable (boot : δ → μ) (ops : Conf μ δ ο → Proc μ δ ο Unit → Prop)
    (crashOk : δ → List ο → Prop) (init m : Machine μ δ ο) : Prop :=
  Relation.ReflTransGen (Step boot ops crashOk) init m

/-- The crash rule.  `I` is the invariant of a machine that is up, and `P` is what
remains true of the store and the outputs when the memory is lost. -/
theorem reachable_invariant {boot : δ → μ} {ops : Conf μ δ ο → Proc μ δ ο Unit → Prop}
    {crashOk : δ → List ο → Prop} {init m : Machine μ δ ο}
    (I : Conf μ δ ο → Prop) (P : δ → List ο → Prop)
    (hinit : init.mem = none ∧ P init.disk init.outs ∧ crashOk init.disk init.outs)
    (hop : ∀ s p, ops s p → I s → p.wp P (fun _ => I) s) (hkeep : ∀ s, I s → P s.disk s.outs)
    (hboot : ∀ d o, P d o → crashOk d o → I ⟨boot d, d, o⟩)
    (h : Reachable boot ops crashOk init m) :
    (∀ x, m.mem = some x → I ⟨x, m.disk, m.outs⟩) ∧ P m.disk m.outs ∧
      (m.mem = none → crashOk m.disk m.outs) := by
  induction h with
  | refl =>
    obtain ⟨h0, hP, hok⟩ := hinit
    exact ⟨fun x hx => (by simp [h0] at hx), hP, fun _ => hok⟩
  | tail _ hstep ih =>
    cases hstep with
    | run hm hr =>
      have hI := Proc.wp_run (hop _ _ hm (ih.1 _ rfl)) hr
      exact ⟨fun x hx => by cases hx; exact hI, hkeep _ hI, fun hx => by cases hx⟩
    | crash hm hc hok =>
      refine ⟨fun x hx => (by cases hx), ?_, fun _ => hok⟩
      rcases List.mem_cons.1 hc with rfl | hc
      · exact hkeep _ (ih.1 _ rfl)
      · exact Proc.wp_points (hop _ _ hm (ih.1 _ rfl)) _ hc
    | restart =>
      refine ⟨fun x hx => ?_, ih.2.1, fun hx => by cases hx⟩
      cases hx
      exact hboot _ _ ih.2.1 (ih.2.2 rfl)

end Durable
