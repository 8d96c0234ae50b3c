import Mathlib.Tactic

/-!
# Pre- and postconditions of `EStateM` programs

`Wp m s Q E` says what a run of `m` from state `s` ends in: `Q` if it returns, `E` if it fails. The
two forms used most are `Ret`, where failing is excluded, and `Wp` with an `E` that describes the
state an error leaves behind. The rules below take a program apart at its binds and loops; a proof
about a program names one specification per call.
-/

namespace EStateM

universe u

variable {ε σ α β : Type u}

/-- A run of `m` from `s` returns with `Q` or fails with `E`. -/
def Wp (m : EStateM ε σ α) (s : σ) (Q : α → σ → Prop) (E : ε → σ → Prop) : Prop :=
  match m s with
  | .ok a s' => Q a s'
  | .error e s' => E e s'

/-- A run of `m` from `s` returns, with `Q`. -/
def Ret (m : EStateM ε σ α) (s : σ) (Q : α → σ → Prop) : Prop := Wp m s Q fun _ _ => False

/-- The state that a run of `m` from `s` ends in, whether it returns or fails. -/
def after (m : EStateM ε σ α) (s : σ) : σ :=
  match m s with
  | .ok _ s' => s'
  | .error _ s' => s'

variable {m : EStateM ε σ α} {f : α → EStateM ε σ β} {s s' : σ} {a : α} {e : ε}
  {Q Q' : α → σ → Prop} {R : β → σ → Prop} {E E' : ε → σ → Prop}

theorem Wp.mono (h : Wp m s Q E) (hQ : ∀ a s', Q a s' → Q' a s') (hE : ∀ e s', E e s' → E' e s') :
    Wp m s Q' E' := by
  unfold Wp at *
  cases hm : m s with
  | ok a s' => rw [hm] at h; exact hQ a s' h
  | error e s' => rw [hm] at h; exact hE e s' h

theorem Ret.mono (h : Ret m s Q) (hQ : ∀ a s', Q a s' → Q' a s') : Ret m s Q' :=
  Wp.mono h hQ fun _ _ => id

theorem Ret.wp (h : Ret m s Q) : Wp m s Q E := Wp.mono h (fun _ _ => id) fun _ _ => False.elim

theorem Wp.of_ok (h : m s = .ok a s') (hQ : Q a s') : Wp m s Q E := by
  unfold Wp; rw [h]; exact hQ

theorem Wp.of_error (h : m s = .error e s') (hE : E e s') : Wp m s Q E := by
  unfold Wp; rw [h]; exact hE

theorem Ret.of_ok (h : m s = .ok a s') (hQ : Q a s') : Ret m s Q := Wp.of_ok h hQ

theorem wp_after {I : σ → Prop} : Wp m s (fun _ => I) (fun _ => I) ↔ I (after m s) := by
  unfold Wp after
  cases m s <;> rfl

/-- What a program that returns has computed. -/
theorem Wp.ok (h : Wp m s Q E) (hm : m s = .ok a s') : Q a s' := by
  unfold Wp at h; rw [hm] at h; exact h

theorem Wp.error (h : Wp m s Q E) (hm : m s = .error e s') : E e s' := by
  unfold Wp at h; rw [hm] at h; exact h

theorem Ret.eq_ok (h : Ret m s Q) : ∃ a s', m s = .ok a s' ∧ Q a s' := by
  unfold Ret Wp at h
  cases hm : m s with
  | ok a s' => rw [hm] at h; exact ⟨a, s', rfl, h⟩
  | error e s' => rw [hm] at h; exact h.elim

@[simp] theorem wp_pure : Wp (pure a : EStateM ε σ α) s Q E ↔ Q a s := Iff.rfl

@[simp] theorem ret_pure : Ret (pure a : EStateM ε σ α) s Q ↔ Q a s := Iff.rfl

@[simp] theorem wp_throw : Wp (throw e : EStateM ε σ α) s Q E ↔ E e s := Iff.rfl

/-- Running a bind whose first program returns. -/
theorem bind_of_ok (h : m s = .ok a s') : (m >>= f) s = f a s' := by
  show EStateM.bind m f s = _
  unfold EStateM.bind
  rw [h]

/-- Running a bind whose first program fails. -/
theorem bind_of_error (h : m s = .error e s') : (m >>= f) s = .error e s' := by
  show EStateM.bind m f s = _
  unfold EStateM.bind
  rw [h]

theorem wp_bind : Wp (m >>= f) s R E ↔ Wp m s (fun a s' => Wp (f a) s' R E) E := by
  unfold Wp
  cases hm : m s with
  | ok a s' => rw [bind_of_ok hm]
  | error e s' => rw [bind_of_error hm]

theorem get_bind_apply {f : σ → EStateM ε σ β} : (get >>= f) s = f s s := rfl

/-- The rule for a bind: a specification of the first program, then the rest under its postcondition. -/
theorem Wp.bind (h : Wp m s Q E) (hf : ∀ a s', Q a s' → Wp (f a) s' R E) : Wp (m >>= f) s R E :=
  wp_bind.mpr (Wp.mono h hf fun _ _ => id)

/-- The rule for a bind whose first program was run. -/
theorem Wp.bind_ok (h : m s = .ok a s') (hf : Wp (f a) s' R E) : Wp (m >>= f) s R E := by
  unfold Wp at hf ⊢
  rwa [bind_of_ok h]

theorem Ret.bind (h : Ret m s Q) (hf : ∀ a s', Q a s' → Ret (f a) s' R) : Ret (m >>= f) s R :=
  Wp.bind h hf

@[simp] theorem wp_get_bind {f : σ → EStateM ε σ β} :
    Wp (get >>= f) s R E ↔ Wp (f s) s R E := wp_bind.trans Iff.rfl

@[simp] theorem ret_get_bind {f : σ → EStateM ε σ β} :
    Ret (get >>= f) s R ↔ Ret (f s) s R := wp_get_bind

@[simp] theorem wp_modify {g : σ → σ} {Q : PUnit → σ → Prop} :
    Wp (modify g : EStateM ε σ PUnit) s Q E ↔ Q ⟨⟩ (g s) := Iff.rfl

@[simp] theorem ret_modify {g : σ → σ} {Q : PUnit → σ → Prop} :
    Ret (modify g : EStateM ε σ PUnit) s Q ↔ Q ⟨⟩ (g s) := Iff.rfl

@[simp] theorem wp_modify_bind {g : σ → σ} {f : PUnit → EStateM ε σ β} :
    Wp (modify g >>= f) s R E ↔ Wp (f ⟨⟩) (g s) R E := wp_bind.trans Iff.rfl

@[simp] theorem ret_modify_bind {g : σ → σ} {f : PUnit → EStateM ε σ β} :
    Ret (modify g >>= f) s R ↔ Ret (f ⟨⟩) (g s) R := wp_modify_bind

@[simp] theorem wp_pure_bind {f : α → EStateM ε σ β} :
    Wp (pure a >>= f) s R E ↔ Wp (f a) s R E := wp_bind.trans Iff.rfl

@[simp] theorem ret_pure_bind {f : α → EStateM ε σ β} :
    Ret (pure a >>= f) s R ↔ Ret (f a) s R := wp_pure_bind

/-! ## Loops -/

/-- The invariant rule for `foldlM`: `I` speaks of the elements still to come. -/
theorem Wp.foldlM {γ : Type u} {g : β → γ → EStateM ε σ β} (I : List γ → β → σ → Prop)
    (step : ∀ c l b s, I (c :: l) b s → Wp (g b c) s (fun b' s' => I l b' s') E) :
    ∀ (l : List γ) (b : β) (s : σ), I l b s → Wp (l.foldlM g b) s (fun b' s' => I [] b' s') E := by
  intro l
  induction l with
  | nil => intro b s h; exact h
  | cons c l ih =>
    intro b s h
    rw [List.foldlM_cons]
    exact Wp.bind (step c l b s h) fun b' s' h' => ih b' s' h'

theorem Wp.forM {γ : Type u} {g : γ → EStateM ε σ PUnit} (I : List γ → σ → Prop)
    (step : ∀ c l s, I (c :: l) s → Wp (g c) s (fun _ s' => I l s') E) :
    ∀ (l : List γ) (s : σ), I l s → Wp (l.forM g) s (fun _ s' => I [] s') E := by
  intro l
  induction l with
  | nil => intro s h; exact h
  | cons c l ih =>
    intro s h
    exact Wp.bind (step c l s h) fun _ s' h' => ih s' h'

/-! ## Invariants

`Keeps I m` says that `I` outlives `m`, whether `m` returns or fails. -/

/-- `I` holds after `m` if it held before, also if `m` fails. -/
def Keeps (I : σ → Prop) (m : EStateM ε σ α) : Prop := ∀ s, I s → Wp m s (fun _ => I) fun _ => I

namespace Keeps

variable {I : σ → Prop}

theorem after (h : Keeps I m) (hs : I s) : I (after m s) := wp_after.mp (h s hs)

theorem pure (a : α) : Keeps I (pure a : EStateM ε σ α) := fun _ => id

theorem throw (e : ε) : Keeps I (throw e : EStateM ε σ α) := fun _ => id

theorem bind (h : Keeps I m) (hf : ∀ a, Keeps I (f a)) : Keeps I (m >>= f) := fun s hs => (h s hs).bind fun a s' => hf a s'

theorem get_bind {f : σ → EStateM ε σ β} (hf : ∀ s, Keeps I (f s)) : Keeps I (get >>= f) := fun s hs =>
  wp_get_bind.mpr (hf s s hs)

theorem modify {g : σ → σ} (h : ∀ s, I s → I (g s)) : Keeps I (modify g : EStateM ε σ PUnit) := h

theorem foldlM {γ : Type u} {g : β → γ → EStateM ε σ β} (h : ∀ b c, Keeps I (g b c)) (l : List γ) (b : β) :
    Keeps I (l.foldlM g b) := fun s hs => Wp.foldlM (fun _ _ => I) (fun c _ b s => h b c s) l b s hs

theorem forM {γ : Type u} {g : γ → EStateM ε σ PUnit} (h : ∀ c, Keeps I (g c)) (l : List γ) : Keeps I (l.forM g) :=
  fun s hs => Wp.forM (fun _ => I) (fun c _ s => h c s) l s hs

theorem mapM {γ : Type u} {g : γ → EStateM ε σ β} (h : ∀ c, Keeps I (g c)) (l : List γ) : Keeps I (l.mapM g) := by
  induction l with
  | nil => exact .pure []
  | cons c l ih =>
    rw [List.mapM_cons]
    exact (h c).bind fun b => ih.bind fun bs => .pure (b :: bs)

/-- A guard that throws. -/
theorem guard {c : Prop} [Decidable c] {e : ε} {g : PUnit → EStateM ε σ β} (h : Keeps I (g ⟨⟩)) :
    Keeps I (if c then (MonadExcept.throw e : EStateM ε σ PUnit) >>= g else g ⟨⟩) := by
  split_ifs
  · exact fun _ => id
  · exact h

end Keeps

end EStateM
