import Mathlib.Order.Defs.Unbundled

/-!
# What a partial function keeps

`KeptBy R f s o`: if the partial function that was called in the state `s` gives `o`, then `R`
leads from `s` to the state `f` finds in its result. The rules follow the ways such functions
are put together: a result, a call and what comes after it, a look at something that is no state.

Results:
1. `KeptBy.bind`, `KeptBy.look`: the two kinds of sequence.
2. `KeptBy.after`: a call in a later state, for a relation that is transitive.
-/

namespace SoKernel

universe u v w

def KeptBy {σ : Type u} {α : Type v} (R : σ → σ → Prop) (f : α → σ) (s : σ) (o : Option α) : Prop :=
  ∀ r, o = some r → R s (f r)

namespace KeptBy

variable {σ : Type u} {α β : Type v} {γ : Type w} {R : σ → σ → Prop} {f : α → σ} {f' : β → σ}
  {s t : σ} {o : Option α}

theorem some {a : α} (h : R s (f a)) : KeptBy R f s (some a) := by
  intro r hr
  cases hr
  exact h

theorem none : KeptBy R f s none := by
  intro r hr
  cases hr

theorem bind {g : α → Option β} (h : KeptBy R f s o) (hg : ∀ r, R s (f r) → KeptBy R f' s (g r)) :
    KeptBy R f' s (o.bind g) := by
  intro r hr
  obtain ⟨a, ha, hr⟩ := Option.bind_eq_some_iff.mp hr
  exact hg a (h a ha) r hr

theorem look {o : Option γ} {g : γ → Option β} (hg : ∀ c, KeptBy R f' s (g c)) :
    KeptBy R f' s (o.bind g) := by
  intro r hr
  obtain ⟨c, _, hr⟩ := Option.bind_eq_some_iff.mp hr
  exact hg c r hr

/-- The same, with what was seen. -/
theorem seen {o : Option γ} {g : γ → Option β} (hg : ∀ c, o = Option.some c → KeptBy R f' s (g c)) :
    KeptBy R f' s (o.bind g) := by
  intro r hr
  obtain ⟨c, hc, hr⟩ := Option.bind_eq_some_iff.mp hr
  exact hg c hc r hr

theorem after [IsTrans σ R] (ho : KeptBy R f t o) (h : R s t) : KeptBy R f s o :=
  fun r hr => IsTrans.trans s t (f r) h (ho r hr)

theorem map {g : α → β} (h : KeptBy R f s o) (hg : ∀ r, R s (f r) → R s (f' (g r))) :
    KeptBy R f' s (o.map g) := by
  intro r hr
  obtain ⟨a, ha, rfl⟩ := Option.map_eq_some_iff.mp hr
  exact hg a (h a ha)

end KeptBy

end SoKernel
