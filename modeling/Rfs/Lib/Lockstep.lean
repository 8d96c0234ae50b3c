import Rfs.Lib.Wp

/-!
# One program from two states

Two states that a relation takes for the same cannot be told apart by a program if each of its calls returns the same
value from both, or fails from both. `Lockstep` is this property of a program; it is closed under binds and loops, so
that it is proved call by call.
-/

namespace EStateM

universe u

variable {ε σ α β γ : Type u} {R : σ → σ → Prop} {p : EStateM ε σ α} {f : α → EStateM ε σ β} {s t : σ} {a : α}
  {P Q : α → Prop} {Q' : β → Prop}

/-- The program returns the same value from both states, with `Q`, and leaves related states, or it fails from both. -/
def Lockstep (R : σ → σ → Prop) (p : EStateM ε σ α) (s t : σ) (Q : α → Prop) : Prop :=
  (∃ a s' t', p s = .ok a s' ∧ p t = .ok a t' ∧ R s' t' ∧ Q a) ∨
    ∃ e s' e' t', p s = .error e s' ∧ p t = .error e' t'

namespace Lockstep

theorem pure (h : R s t) (hQ : Q a) : Lockstep R (Pure.pure a : EStateM ε σ α) s t Q :=
  .inl ⟨a, s, t, rfl, rfl, h, hQ⟩

theorem throw (e : ε) : Lockstep R (MonadExcept.throw e : EStateM ε σ α) s t Q := .inr ⟨e, s, e, t, rfl, rfl⟩

theorem mono (h : Lockstep R p s t P) (hQ : ∀ a, P a → Q a) : Lockstep R p s t Q := by
  rcases h with ⟨a, s', t', hs, ht, hR, hP⟩ | hfail
  · exact .inl ⟨a, s', t', hs, ht, hR, hQ a hP⟩
  · exact .inr hfail

theorem bind (h : Lockstep R p s t P) (hf : ∀ a s' t', R s' t' → P a → Lockstep R (f a) s' t' Q') :
    Lockstep R (p >>= f) s t Q' := by
  rcases h with ⟨a, s', t', hs, ht, hR, hP⟩ | ⟨e, s', e', t', hs, ht⟩
  · have hrest := hf a s' t' hR hP
    unfold Lockstep at hrest ⊢
    rwa [bind_of_ok hs, bind_of_ok ht]
  · exact .inr ⟨e, s', e', t', bind_of_error hs, bind_of_error ht⟩

theorem foldlM {g : β → γ → EStateM ε σ β} (l : List γ) (b : β) (h : R s t)
    (step : ∀ c ∈ l, ∀ b s' t', R s' t' → Lockstep R (g b c) s' t' fun _ => True) :
    Lockstep R (l.foldlM g b) s t fun _ => True := by
  induction l generalizing b s t with
  | nil => exact pure h trivial
  | cons c l ih =>
    rw [List.foldlM_cons]
    refine (step c (List.mem_cons_self ..) b s t h).bind fun b' s' t' hR _ => ?_
    exact ih b' hR fun c' hc' => step c' (List.mem_cons_of_mem _ hc')

/-- A guard that throws. -/
theorem guard {c : Prop} [Decidable c] {e : ε} {g : PUnit → EStateM ε σ β} (h : ¬ c → Lockstep R (g ⟨⟩) s t Q') :
    Lockstep R (if c then (MonadExcept.throw e : EStateM ε σ PUnit) >>= g else g ⟨⟩) s t Q' := by
  split_ifs with hc
  · exact (throw e : Lockstep R (MonadExcept.throw e : EStateM ε σ PUnit) s t fun _ => False).bind
      fun _ _ _ _ hf => hf.elim
  · exact h hc

end Lockstep

end EStateM
