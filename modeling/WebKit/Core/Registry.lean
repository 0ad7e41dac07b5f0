import Mathlib

/-!
# Registries

A registry finds objects by a key. It is described by the objects that are registered, the live
ones, and the key of each of them.
-/

namespace WebKit.Core

variable {κ ρ : Type*} {get get' : κ → Option ρ} {key key' : ρ → κ} {live live' : ρ → Prop} {o : ρ}

/-- The registry finds the live objects by their keys. -/
def Finds (get : κ → Option ρ) (key : ρ → κ) (live : ρ → Prop) : Prop :=
  ∀ k o, get k = some o ↔ live o ∧ key o = k

namespace Finds

section

variable (h : Finds get key live)

include h

/-- No two live objects have one key. -/
lemma eq_of_key {o' : ρ} (ho : live o) (ho' : live o') (hkey : key o = key o') : o = o' :=
  Option.some.inj (((h _ o).2 ⟨ho, hkey⟩).symm.trans ((h _ o').2 ⟨ho', rfl⟩))

lemma remove [DecidableEq κ] (ho : live o) :
    Finds (fun k => if k = key o then none else get k) key fun o' => live o' ∧ o' ≠ o := by
  intro k o'
  rw [Option.ite_none_left_eq_some, h]
  constructor
  · rintro ⟨hne, ho', rfl⟩
    refine ⟨⟨ho', ?_⟩, rfl⟩
    rintro rfl
    exact hne rfl
  · rintro ⟨⟨ho', hne⟩, rfl⟩
    exact ⟨fun heq => hne (h.eq_of_key ho' ho heq), ho', rfl⟩

/-- An object is added whose key no other live object has. -/
lemma add [DecidableEq κ] (ho : ∀ o', live o' → key o' = key o → o' = o) :
    Finds (fun k => if k = key o then some o else get k) key fun o' => live o' ∨ o' = o := by
  intro k o'
  dsimp only
  split_ifs with heq
  · rw [Option.some.injEq]
    constructor
    · rintro rfl
      exact ⟨Or.inr rfl, heq.symm⟩
    · rintro ⟨ho' | rfl, hkey⟩
      · exact (ho o' ho' (hkey.trans heq)).symm
      · rfl
  · rw [h]
    refine and_congr_left fun hkey => (or_iff_left ?_).symm
    rintro rfl
    exact heq hkey.symm

lemma congr (hget : ∀ k, get' k = get k) (hlive : ∀ o, live' o ↔ live o)
    (hkey : ∀ o, live o → key' o = key o) : Finds get' key' live' := by
  intro k o
  rw [hget, h, hlive]
  exact and_congr_right fun ho => by rw [hkey o ho]

end

end Finds

end WebKit.Core
