import Mathlib

/-!
# Updating a function at the points of a list

A loop that visits points one after the other and changes a function there changes each of these
points by itself.
-/

namespace WebKit.Core

variable {α β γ : Type*} [DecidableEq α]

/-- A loop over `l` that updates the point of each element. -/
def updateAt (point : γ → α) (g : γ → β → β) (l : List γ) (f : α → β) : α → β :=
  l.foldl (fun f c => Function.update f (point c) (g c (f (point c)))) f

lemma updateAt_cons (point : γ → α) (g : γ → β → β) (c : γ) (l : List γ) (f : α → β) :
    updateAt point g (c :: l) f =
      updateAt point g l (Function.update f (point c) (g c (f (point c)))) := rfl

variable {g : γ → β → β} {point : γ → α} {f : α → β}

lemma updateAt_of_not_mem {l : List γ} {a : α}
    (h : a ∉ l.map point) : updateAt point g l f a = f a := by
  induction l generalizing f with
  | nil => rfl
  | cons c l ih =>
    simp only [List.map_cons, List.mem_cons, not_or] at h
    rw [updateAt_cons, ih h.2, Function.update_of_ne h.1]

lemma updateAt_of_mem {l : List γ} (hl : (l.map point).Nodup)
    {c : γ} (h : c ∈ l) : updateAt point g l f (point c) = g c (f (point c)) := by
  induction l generalizing f with
  | nil => cases h
  | cons d l ih =>
    obtain ⟨hd, hl⟩ := List.nodup_cons.1 hl
    rw [updateAt_cons]
    rcases List.mem_cons.1 h with rfl | h
    · simp [updateAt_of_not_mem hd]
    · have hne : point c ≠ point d := fun heq => hd (heq ▸ List.mem_map_of_mem h)
      rw [ih hl h, Function.update_of_ne hne]

end WebKit.Core
