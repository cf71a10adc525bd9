/-!
# Runs of a step function

`Run step ok s t`: the partial step function `step` leads from `s` to `t` through
events that `ok` admits in the state they are taken in. `none` is a step the
system cannot make.

Results:
1. `Run.invariant`: what every admitted step preserves holds after a run.
2. `Run.of_exec`: an evaluated event list is a run.
3. `Run.Traced.run`: what is observed step by step is observed of a run.
4. `Along.iff`: two properties of steps that agree as long as one of them holds agree along
   a run.
-/

namespace SoKernel

universe u v w

/-- The states reached from `s` by events that `ok` admits. -/
inductive Run {σ : Type u} {ε : Type v} (step : σ → ε → Option σ) (ok : σ → ε → Prop) (s : σ) :
    σ → Prop
  | refl : Run step ok s s
  | snoc {t t' : σ} (e : ε) : Run step ok s t → ok t e → step t e = some t' → Run step ok s t'

namespace Run

variable {σ : Type u} {ε : Type v} {step : σ → ε → Option σ} {ok ok' : σ → ε → Prop} {s t r : σ}

/-- Events no condition restricts. -/
abbrev anyEvent : σ → ε → Prop := fun _ _ => True

theorem invariant {P : σ → Prop} (h : Run step ok s t) (h0 : P s)
    (hstep : ∀ {t t' : σ} {e : ε}, P t → ok t e → step t e = some t' → P t') : P t := by
  induction h with
  | refl => exact h0
  | snoc e _ hok hs ih => exact hstep ih hok hs

theorem mono (h : Run step ok s t) (hok : ∀ t e, ok t e → ok' t e) : Run step ok' s t := by
  induction h with
  | refl => exact .refl
  | snoc e _ he hs ih => exact .snoc e ih (hok _ _ he) hs

/-- The states a run passes through are reached. -/
theorem reached (h : Run step ok s t) :
    Run step (fun t e => ok t e ∧ Run step ok s t) s t := by
  induction h with
  | refl => exact .refl
  | snoc e h he hs ih => exact .snoc e ih ⟨he, h⟩ hs

theorem trans (h : Run step ok s t) (h' : Run step ok t r) : Run step ok s r := by
  induction h' with
  | refl => exact h
  | snoc e _ he hs ih => exact .snoc e ih he hs

theorem single (e : ε) (he : ok s e) (hs : step s e = some t) : Run step ok s t :=
  .snoc e .refl he hs

/-- The state after a list of events, when `ok` admits each of them. -/
def exec (step : σ → ε → Option σ) (ok : σ → ε → Prop) [∀ s e, Decidable (ok s e)] :
    σ → List ε → Option σ
  | s, [] => some s
  | s, e :: es => if ok s e then (step s e).bind fun t => exec step ok t es else none

theorem of_exec [∀ s e, Decidable (ok s e)] {es : List ε} (h : exec step ok s es = some t) :
    Run step ok s t := by
  induction es generalizing s with
  | nil => simp only [exec, Option.some.injEq] at h; exact h ▸ .refl
  | cons e es ih =>
    simp only [exec] at h
    split at h
    · next he =>
      obtain ⟨r, hr, hrest⟩ := Option.bind_eq_some_iff.mp h
      exact (single e he hr).trans (ih hrest)
    · cases h

instance : ∀ (s : σ) (e : ε), Decidable (anyEvent s e) := fun _ _ => .isTrue trivial

/-- A run found by evaluation, and a property of where it ends. -/
theorem exists_exec [∀ s e, Decidable (ok s e)] {P : σ → Prop} [DecidablePred P] {es : List ε}
    (h : (exec step ok s es).any (fun t => decide (P t)) = true) :
    ∃ t, exec step ok s es = some t ∧ Run step ok s t ∧ P t := by
  cases ht : exec step ok s es with
  | none =>
    rw [ht] at h
    cases h
  | some t =>
    rw [ht] at h
    exact ⟨t, rfl, of_exec ht, of_decide_eq_true h⟩

/-- A run, and what `out` shows of its steps. -/
inductive Traced {ω : Type w} (step : σ → ε → Option σ) (ok : σ → ε → Prop) (out : σ → σ → List ω)
    (s : σ) : σ → List ω → Prop
  | refl : Traced step ok out s s []
  | snoc {t t' : σ} {os : List ω} (e : ε) : Traced step ok out s t os → ok t e →
      step t e = some t' → Traced step ok out s t' (os ++ out t t')

theorem Traced.run {ω : Type w} {out : σ → σ → List ω} {os : List ω}
    (h : Traced step ok out s t os) : Run step ok s t := by
  induction h with
  | refl => exact .refl
  | snoc e _ he hs ih => exact .snoc e ih he hs

end Run

/-! ## Runs of a total step function -/

section

variable {σ : Type u} {ε : Type v} {next : σ → ε → σ} {P Q : σ → ε → Prop}
  {s : σ} {es : List ε}

/-- `P` holds of each event, in the state in which it is taken. -/
def Along (next : σ → ε → σ) (P : σ → ε → Prop) : σ → List ε → Prop
  | _, [] => True
  | s, e :: es => P s e ∧ Along next P (next s e) es

instance instDecidableAlong [∀ s e, Decidable (P s e)] : (s : σ) → (es : List ε) → Decidable (Along next P s es)
  | _, [] => .isTrue trivial
  | s, e :: es =>
    have : Decidable (Along next P (next s e) es) := instDecidableAlong (next s e) es
    inferInstanceAs (Decidable (_ ∧ _))

theorem Along.all (h : ∀ s e, P s e) : Along next P s es := by
  induction es generalizing s with
  | nil => trivial
  | cons e es ih => exact ⟨h s e, ih⟩

theorem Along.iff (inv : σ → Prop) (hyp : σ → ε → Prop) (hs : inv s) (hhyp : Along next hyp s es)
    (hstep : ∀ s e, inv s → hyp s e → (P s e ↔ Q s e))
    (hinv : ∀ s e, inv s → hyp s e → P s e → inv (next s e)) :
    Along next P s es ↔ Along next Q s es := by
  induction es generalizing s with
  | nil => exact .rfl
  | cons e es ih =>
    obtain ⟨he, hrest⟩ := hhyp
    have hpq := hstep s e hs he
    constructor
    · rintro ⟨hp, hes⟩
      exact ⟨hpq.mp hp, (ih (hinv s e hs he hp) hrest).mp hes⟩
    · rintro ⟨hq, hes⟩
      have hp := hpq.mpr hq
      exact ⟨hp, (ih (hinv s e hs he hp) hrest).mpr hes⟩

end

end SoKernel
