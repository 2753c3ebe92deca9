/-
A cursor that moves over items with heights.

What has been seen is kept, and the cursor may jump.  As long as each range it passes is seen
as a whole, everything from the start to the cursor is seen.
-/
import Mathlib.Data.Set.Basic

namespace Cursor

variable {α : Type} {items seen seen' : Set α} {height : α → Int} {s a c c' : Int}

def Covered (items : Set α) (height : α → Int) (seen : Set α) (s c : Int) : Prop :=
  ∀ x ∈ items, s ≤ height x → height x ≤ c → x ∈ seen

theorem Covered.mono (h : Covered items height seen s c) (hseen : seen ⊆ seen') (hc : c' ≤ c) :
    Covered items height seen' s c' :=
  fun x hx hs hle => hseen (h x hx hs (hle.trans hc))

theorem Covered.extend (h : Covered items height seen s c) (hseen : seen ⊆ seen')
    (hnew : Covered items height seen' a c') (ha : a ≤ c ∨ a ≤ s) :
    Covered items height seen' s c' := by
  intro x hx hs hle
  by_cases hlow : a ≤ height x
  · exact hnew x hx hlow hle
  · refine hseen (h x hx hs ?_)
    omega

end Cursor
