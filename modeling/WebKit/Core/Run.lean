import Mathlib

/-!
# Runs of a system whose operations can fail

An operation takes a state to the next one, or fails. A run is a list of operations that succeed.
-/

namespace WebKit.Core

variable {σ ω : Type*} (step : σ → ω → Option σ)

/-- The state after a list of operations, if all of them succeed. -/
def run : σ → List ω → Option σ
  | s, [] => some s
  | s, o :: os => (step s o).bind (run · os)

/-- All states of a run have the property `P`. -/
def Throughout (P : σ → Prop) : σ → List ω → Prop
  | s, [] => P s
  | s, o :: os => P s ∧ ∀ s', step s o = some s' → Throughout P s' os

/-- All steps of a run are taken under the condition `C`. -/
def EachStep (C : σ → ω → Prop) : σ → List ω → Prop
  | _, [] => True
  | s, o :: os => C s o ∧ ∀ s', step s o = some s' → EachStep C s' os

variable {step}

variable {P : σ → Prop} {os : List ω} {s : σ}

lemma Throughout.head (h : Throughout step P s os) : P s := by
  cases os with
  | nil => exact h
  | cons o os => exact h.1

lemma eachStep_true (s : σ) (os : List ω) : EachStep step (fun _ _ => True) s os := by
  induction os generalizing s with
  | nil => exact trivial
  | cons o os ih => exact ⟨trivial, fun s' _ => ih s'⟩

lemma EachStep.mono {C D : σ → ω → Prop} (h : EachStep step C s os)
    (hCD : ∀ s o, C s o → D s o) : EachStep step D s os := by
  induction os generalizing s with
  | nil => exact trivial
  | cons o os ih => exact ⟨hCD s o h.1, fun s' hs' => ih (h.2 s' hs')⟩

lemma EachStep.and {C D : σ → ω → Prop} (hC : EachStep step C s os)
    (hD : EachStep step D s os) : EachStep step (fun s o => C s o ∧ D s o) s os := by
  induction os generalizing s with
  | nil => exact trivial
  | cons o os ih => exact ⟨⟨hC.1, hD.1⟩, fun s' hs' => ih (hC.2 s' hs') (hD.2 s' hs')⟩

variable {C : σ → ω → Prop} {s' : σ}

/-- What each step that is taken under the condition `C` preserves holds in the last state. -/
lemma run_induction (hstep : ∀ s o s', step s o = some s' → C s o → P s → P s') {os : List ω}
    (hrun : run step s os = some s') (hC : EachStep step C s os) (h : P s) : P s' := by
  induction os generalizing s with
  | nil => exact Option.some.inj hrun ▸ h
  | cons o os ih =>
    obtain ⟨s₁, hs₁, hrun⟩ := Option.bind_eq_some_iff.1 hrun
    exact ih hrun (hC.2 s₁ hs₁) (hstep s o s₁ hs₁ hC.1 h)

/-- A run does not fail if no step that is taken under the condition `C` does. -/
lemma run_total (hstep : ∀ s o, C s o → P s → ∃ s', step s o = some s' ∧ P s') {os : List ω}
    (hC : EachStep step C s os) (h : P s) : ∃ s', run step s os = some s' ∧ P s' := by
  induction os generalizing s with
  | nil => exact ⟨s, rfl, h⟩
  | cons o os ih =>
    obtain ⟨s₁, hs₁, h₁⟩ := hstep s o hC.1 h
    obtain ⟨s', hs', h'⟩ := ih (hC.2 s₁ hs₁) h₁
    exact ⟨s', (congrArg (Option.bind · (run step · os)) hs₁).trans hs', h'⟩

/-- If a step adds to a defect unless it is taken under the condition `C`, then a run does unless
all steps are taken under `C`. -/
lemma run_defect {δ : Type*} [PartialOrder δ] {I : σ → δ → Prop} {A C : σ → ω → Prop}
    (hstep : ∀ s o s' d, step s o = some s' → A s o → I s d →
      ∃ d', d ≤ d' ∧ I s' d' ∧ (d' = d ↔ C s o))
    (hrun : run step s os = some s') (hA : EachStep step A s os) {d : δ}
    (hI : I s d) : ∃ d', d ≤ d' ∧ I s' d' ∧ (d' = d ↔ EachStep step C s os) := by
  induction os generalizing s d with
  | nil => exact ⟨d, le_rfl, Option.some.inj hrun ▸ hI, iff_of_true rfl trivial⟩
  | cons o os ih =>
    obtain ⟨s₁, hs₁, hrun⟩ := Option.bind_eq_some_iff.1 hrun
    obtain ⟨d₁, hle, hI₁, hC⟩ := hstep s o s₁ d hs₁ hA.1 hI
    obtain ⟨d', hle', hI', hrest⟩ := ih hrun (hA.2 s₁ hs₁) hI₁
    refine ⟨d', hle.trans hle', hI', ?_⟩
    have hnext : (∀ s', step s o = some s' → EachStep step C s' os) ↔ EachStep step C s₁ os := by
      simp [hs₁]
    rw [EachStep, hnext, ← hC, ← hrest]
    constructor
    · rintro rfl
      exact ⟨le_antisymm hle' hle, le_antisymm hle hle'⟩
    · rintro ⟨rfl, rfl⟩
      rfl

/-- If a step from a state with `P` keeps the invariant `I`, and `P` exactly under the condition
`C`, then `P` holds throughout a run exactly if all steps are taken under `C`. -/
lemma throughout_iff_eachStep {I P : σ → Prop}
    (hstep : ∀ s o s', step s o = some s' → I s → P s → I s' ∧ (P s' ↔ C s o))
    (hrun : run step s os = some s') (hI : I s) (hP : P s) :
    Throughout step P s os ↔ EachStep step C s os := by
  induction os generalizing s with
  | nil => exact iff_of_true hP trivial
  | cons o os ih =>
    obtain ⟨s₁, hs₁, hrun⟩ := Option.bind_eq_some_iff.1 hrun
    have hnext : ∀ {Q : σ → Prop}, (∀ s', step s o = some s' → Q s') ↔ Q s₁ := by
      simp [hs₁]
    obtain ⟨hI₁, hex⟩ := hstep s o s₁ hs₁ hI hP
    rw [Throughout, EachStep, hnext, hnext, and_iff_right hP, ← hex]
    exact ⟨fun h => ⟨h.head, (ih hrun hI₁ h.head).1 h⟩, fun h => (ih hrun hI₁ h.1).2 h.2⟩

end WebKit.Core
