/-
What holds of the final state of a program with a state and exceptions, whether it returns or
throws.
-/
import Mathlib.Data.List.Forall2
import Mathlib.Logic.Relation

namespace Ending

variable {ε σ α β : Type}

def Ends (P : σ → Prop) (x : EStateM ε σ α) (s : σ) : Prop :=
  match x s with
  | .ok _ t => P t
  | .error _ t => P t

variable {s : σ} {P : σ → Prop} {a : α}

theorem ends_pure (h : P s) :
    Ends P (pure a : EStateM ε σ α) s := h

theorem ends_throw {e : ε} (h : P s) :
    Ends P (throw e : EStateM ε σ α) s := h

theorem ends_get {f : σ → EStateM ε σ β} (h : Ends P (f s) s) :
    Ends P (get >>= f) s := h

variable {g : σ → σ}

theorem ends_modify (h : P (g s)) :
    Ends P (modify g : EStateM ε σ PUnit) s := h

theorem ends_modify_bind {f : PUnit → EStateM ε σ β} (h : Ends P (f ⟨⟩) (g s)) :
    Ends P (modify g >>= f) s := h

variable {x : EStateM ε σ α}

theorem Ends.mono {P Q : σ → Prop} (h : Ends P x s) (hPQ : ∀ t, P t → Q t) : Ends Q x s := by
  unfold Ends at h ⊢
  split <;> next hx => rw [hx] at h; exact hPQ _ h

variable {f : α → EStateM ε σ β}

theorem ends_bind_of_ok {P Q : σ → Prop} (hx : Ends P x s) (hPQ : ∀ t, P t → Q t)
    (hf : ∀ a t, x s = .ok a t → P t → Ends Q (f a) t) : Ends Q (x >>= f) s := by
  have hbind : (x >>= f) s = match x s with
      | .ok a t => f a t
      | .error e t => .error e t := rfl
  unfold Ends at hx ⊢
  rw [hbind]
  cases hxs : x s with
  | ok a t =>
    rw [hxs] at hx
    exact hf a t hxs hx
  | error e t =>
    rw [hxs] at hx
    exact hPQ t hx

theorem ends_bind {P Q : σ → Prop} (hx : Ends P x s) (hPQ : ∀ t, P t → Q t)
    (hf : ∀ a t, P t → Ends Q (f a) t) : Ends Q (x >>= f) s :=
  ends_bind_of_ok hx hPQ fun a t _ => hf a t

theorem ends_bind_pure {g : α → β} (h : Ends P x s) : Ends P (x >>= fun a => pure (g a)) s :=
  ends_bind h (fun _ h => h) fun _ _ => ends_pure

variable {b : β}

theorem run_bind_eq_ok {s u : σ} :
    (x >>= f) s = .ok b u ↔ ∃ a t, x s = .ok a t ∧ f a t = .ok b u := by
  have hbind : (x >>= f) s = match x s with
      | .ok a t => f a t
      | .error e t => .error e t := rfl
  rw [hbind]
  cases x s with
  | ok a t =>
    constructor
    · exact fun h => ⟨a, t, rfl, h⟩
    · rintro ⟨a', t', heq, h⟩
      cases heq
      exact h
  | error e t => exact ⟨nofun, fun ⟨_, _, h, _⟩ => nomatch h⟩

theorem Ends.of_ok {s t : σ} (h : Ends P x s) (hx : x s = .ok a t) : P t := by
  unfold Ends at h
  rw [hx] at h
  exact h

section Relation

variable {R : σ → σ → Prop} [IsTrans σ R]

theorem ends_seq {x : EStateM ε σ α} {f : α → EStateM ε σ β} {s : σ} (hx : Ends (R s) x s)
    (hf : ∀ a t, Ends (R t) (f a) t) : Ends (R s) (x >>= f) s :=
  ends_bind hx (fun _ h => h) fun a t h => (hf a t).mono fun _ => Trans.trans h

theorem ends_modify_seq {g : σ → σ} {f : PUnit → EStateM ε σ β} {s : σ} (hg : R s (g s))
    (hf : Ends (R (g s)) (f ⟨⟩) (g s)) : Ends (R s) (modify g >>= f) s :=
  Ends.mono (ends_modify_bind hf) fun _ => Trans.trans hg

end Relation

/-! ## Programs that return

`Returns Q x s` says that `x` started in `s` returns, with a value and a state that `Q`
relates. -/

def Returns (Q : α → σ → Prop) (x : EStateM ε σ α) (s : σ) : Prop :=
  ∃ a t, x s = .ok a t ∧ Q a t

theorem returns_pure {Q : α → σ → Prop} (h : Q a s) :
    Returns Q (pure a : EStateM ε σ α) s := ⟨a, s, rfl, h⟩

variable {Q : β → σ → Prop}

theorem returns_get {f : σ → EStateM ε σ β} (h : Returns Q (f s) s) :
    Returns Q (get >>= f) s := h

theorem returns_modify_bind {f : PUnit → EStateM ε σ β} (h : Returns Q (f ⟨⟩) (g s)) :
    Returns Q (modify g >>= f) s := h

theorem Returns.mono {P Q : α → σ → Prop} (h : Returns P x s) (hPQ : ∀ a t, P a t → Q a t) :
    Returns Q x s := by
  obtain ⟨a, t, hx, hP⟩ := h
  exact ⟨a, t, hx, hPQ a t hP⟩

theorem returns_bind {P : α → σ → Prop} (hx : Returns P x s)
    (hf : ∀ a t, P a t → Returns Q (f a) t) :
    Returns Q (x >>= f) s := by
  obtain ⟨a, t, hxs, hP⟩ := hx
  obtain ⟨b, u, hfa, hQ⟩ := hf a t hP
  refine ⟨b, u, ?_, hQ⟩
  show (match x s with
    | .ok a t => f a t
    | .error e t => .error e t) = _
  rw [hxs]
  exact hfa

theorem Returns.and_ends {Q : α → σ → Prop} (h : Returns Q x s) (hends : Ends P x s) :
    Returns (fun a t => Q a t ∧ P t) x s := by
  obtain ⟨a, t, hx, hQ⟩ := h
  exact ⟨a, t, hx, hQ, hends.of_ok hx⟩

theorem Returns.ends_bind {P : α → σ → Prop} {Q : σ → Prop} (hx : Returns P x s)
    (hf : ∀ a t, P a t → Ends Q (f a) t) : Ends Q (x >>= f) s := by
  obtain ⟨a, t, hxs, hP⟩ := hx
  have hbind : (x >>= f) s = f a t := by
    show (match x s with
      | .ok a t => f a t
      | .error e t => .error e t) = _
    rw [hxs]
  have hrest := hf a t hP
  unfold Ends at hrest ⊢
  rw [hbind]
  exact hrest

theorem bind_eq_ok {x : Except ε α} {f : α → Except ε β} :
    (x >>= f) = .ok b ↔ ∃ a, x = .ok a ∧ f a = .ok b := by
  cases x with
  | error e => simp [bind, Except.bind]
  | ok a => simp [bind, Except.bind]

/-- What a program throws that follows a nil pointer. -/
class NilPointer (ε : Type) where
  nilPointer : ε

def deref [NilPointer ε] : Option α → Except ε α
  | some a => .ok a
  | none => .error NilPointer.nilPointer

@[simp] theorem deref_eq_ok [NilPointer ε] {o : Option α} {a : α} :
    (deref o : Except ε α) = .ok a ↔ o = some a := by
  cases o <;> simp [deref]

theorem map_eq_ok {x : Except ε α} {f : α → β} : (f <$> x) = .ok b ↔ ∃ a, x = .ok a ∧ f a = b := by
  cases x with
  | error e => simp [Functor.map, Except.map]
  | ok a => simp [Functor.map, Except.map]

theorem mapError_eq_ok {ε' : Type} {x : Except ε α} {f : ε → ε'} :
    x.mapError f = .ok a ↔ x = .ok a := by
  cases x <;> simp [Except.mapError]

variable {l : List α}

theorem forM_eq_ok {f : α → Except ε Unit} : l.forM f = .ok () ↔ ∀ a ∈ l, f a = .ok () := by
  induction l with
  | nil => simp [pure, Except.pure]
  | cons a l ih =>
    rw [List.forall_mem_cons]
    refine bind_eq_ok.trans ?_
    constructor
    · rintro ⟨_, ha, hl⟩
      exact ⟨ha, ih.1 hl⟩
    · rintro ⟨ha, hl⟩
      exact ⟨(), ha, ih.2 hl⟩

variable {l' : List β}

theorem mapM_eq_ok {f : α → Except ε β} :
    l.mapM f = .ok l' ↔ List.Forall₂ (fun a b => f a = .ok b) l l' := by
  induction l generalizing l' with
  | nil => cases l' <;> simp [pure, Except.pure]
  | cons a l ih =>
    rw [List.mapM_cons, bind_eq_ok, List.forall₂_cons_left_iff]
    constructor
    · rintro ⟨b, hb, hrest⟩
      obtain ⟨bs, hbs, hl⟩ := bind_eq_ok.1 hrest
      cases hl
      exact ⟨b, bs, hb, ih.1 hbs, rfl⟩
    · rintro ⟨b, bs, hb, hbs, rfl⟩
      exact ⟨b, hb, bind_eq_ok.2 ⟨bs, ih.2 hbs, rfl⟩⟩

theorem mapM_eq_some {f : α → Option β} :
    l.mapM f = some l' ↔ List.Forall₂ (fun a b => f a = some b) l l' := by
  induction l generalizing l' with
  | nil => cases l' <;> simp
  | cons a l ih =>
    rw [List.mapM_cons, List.forall₂_cons_left_iff, Option.bind_eq_bind, Option.bind_eq_some_iff]
    constructor
    · rintro ⟨b, hb, hrest⟩
      obtain ⟨bs, hbs, hl⟩ := Option.bind_eq_some_iff.1 hrest
      cases hl
      exact ⟨b, bs, hb, ih.1 hbs, rfl⟩
    · rintro ⟨b, bs, hb, hbs, rfl⟩
      exact ⟨b, hb, Option.bind_eq_some_iff.2 ⟨bs, ih.2 hbs, rfl⟩⟩

theorem exists_left_of_mem {R : α → β → Prop} (h : List.Forall₂ R l l') (hb : b ∈ l') :
    ∃ a ∈ l, R a b := by
  induction h with
  | nil => cases hb
  | cons hab _ ih =>
    rcases List.mem_cons.1 hb with rfl | hmem
    · exact ⟨_, .head _, hab⟩
    · obtain ⟨a, ha, hR⟩ := ih hmem
      exact ⟨a, .tail _ ha, hR⟩

theorem exists_of_mem_mapM {f : α → Except ε β} (h : l.mapM f = .ok l') (hb : b ∈ l') :
    ∃ a ∈ l, f a = .ok b :=
  exists_left_of_mem (R := fun a b => f a = .ok b) (mapM_eq_ok.1 h) hb

theorem exists_mem_mapM {f : α → Except ε β} (h : l.mapM f = .ok l') (ha : a ∈ l) :
    ∃ b ∈ l', f a = .ok b :=
  exists_left_of_mem (R := fun b a => f a = .ok b) (.flip (mapM_eq_ok.1 h)) ha

theorem foldlM_ok {P : β → Prop} {f : β → α → Except ε β} {b b' : β} (h : l.foldlM f b = .ok b')
    (hb : P b) (hstep : ∀ a ∈ l, ∀ b b', P b → f b a = .ok b' → P b') : P b' := by
  induction l generalizing b with
  | nil =>
    cases h
    exact hb
  | cons a l ih =>
    obtain ⟨c, hc, hrest⟩ := bind_eq_ok.1 h
    exact ih hrest (hstep a (by simp) b c hb hc) fun x hx => hstep x (by simp [hx])

end Ending
