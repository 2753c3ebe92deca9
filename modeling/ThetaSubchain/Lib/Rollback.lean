/-
Journals with rollbacks.

A journal is a list of entries, the newest first.  Some entries are marks: a mark with
the number `n` says that the `n` entries before it were undone.
-/
import Mathlib.Data.List.Basic

namespace Rollback

variable {α β : Type} {mark : α → Option Nat}

def collect (g : α → List β) (es : List α) : List β := es.reverse.flatMap g

@[simp] theorem collect_nil (g : α → List β) : collect g [] = [] := rfl

@[simp] theorem collect_cons (g : α → List β) (e : α) (es : List α) :
    collect g (e :: es) = collect g es ++ g e := by
  simp [collect]

@[simp] theorem collect_append (g : α → List β) (es fs : List α) :
    collect g (es ++ fs) = collect g fs ++ collect g es := by
  simp [collect]

variable {es : List α}

variable {g : α → List β} {P Q D : List α → α → Prop}

theorem collect_eq_nil : collect g es = [] ↔ ∀ e ∈ es, g e = [] := by
  simp [collect]

def survivors (mark : α → Option Nat) : Nat → List α → List α
  | _, [] => []
  | skip + 1, _ :: es => survivors mark skip es
  | 0, e :: es =>
    match mark e with
    | some n => survivors mark n es
    | none => e :: survivors mark 0 es

theorem survivors_eq_drop (mark : α → Option Nat) (skip : Nat) (es : List α) :
    survivors mark skip es = survivors mark 0 (es.drop skip) := by
  induction es generalizing skip with
  | nil => simp [survivors]
  | cons e es ih =>
    cases skip with
    | zero => rfl
    | succ skip => exact ih skip

def OnMarks (mark : α → Option Nat) (P : List α → α → Prop) : List α → Prop
  | [] => True
  | e :: es => (∀ n, mark e = some n → P (es.take n) e) ∧ OnMarks mark P es

theorem OnMarks.congr (hD : OnMarks mark D es)
    (h : ∀ inner e n, mark e = some n → D inner e → (P inner e ↔ Q inner e)) :
    OnMarks mark P es ↔ OnMarks mark Q es := by
  induction es with
  | nil => rfl
  | cons e es ih =>
    obtain ⟨he, hes⟩ := hD
    have hhead : (∀ n, mark e = some n → P (es.take n) e) ↔
        ∀ n, mark e = some n → Q (es.take n) e :=
      forall_congr' fun n => forall_congr' fun hn => h _ e n hn (he n hn)
    exact and_congr hhead (ih hes)

theorem OnMarks.drop (h : OnMarks mark P es) (n : Nat) : OnMarks mark P (es.drop n) := by
  induction es generalizing n with
  | nil => simpa using h
  | cons e es ih =>
    cases n with
    | zero => exact h
    | succ n => exact ih h.2 n

theorem OnMarks.cons_of_none {e : α} (he : mark e = none)
    (h : OnMarks mark P es) : OnMarks mark P (e :: es) :=
  ⟨fun n hn => absurd (he.symm.trans hn) (by simp), h⟩

theorem collect_survivors (hmark : ∀ e n, mark e = some n → g e = []) :
    ∀ {es : List α}, OnMarks mark (fun inner _ => ∀ e ∈ inner, g e = []) es →
      collect g (survivors mark 0 es) = collect g es := by
  intro es
  induction hlen : es.length using Nat.strongRecOn generalizing es with
  | _ len ih =>
    intro h
    cases es with
    | nil => rfl
    | cons e es =>
      rw [survivors]
      cases he : mark e with
      | none =>
        have hes := ih es.length (by simp at hlen; omega) rfl h.2
        simp only [collect_cons, hes]
      | some n =>
        have hinner : collect g (es.take n) = [] := collect_eq_nil.mpr (h.1 n he)
        have hdrop := ih (es.drop n).length (by simp at hlen ⊢; omega) rfl (h.2.drop n)
        show collect g (survivors mark n es) = _
        calc collect g (survivors mark n es)
            = collect g (es.drop n) := by rw [survivors_eq_drop, hdrop]
          _ = collect g (es.take n ++ es.drop n) := by rw [collect_append, hinner, List.append_nil]
          _ = collect g (e :: es) := by
              rw [List.take_append_drop, collect_cons, hmark e n he, List.append_nil]

end Rollback
