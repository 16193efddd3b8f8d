/-!
# How a computation ends

Parsing and running are both computations on a state that may stop early and keep the state they
stopped in. `Ends x s Q E` says what is true behind `x`, started in `s`: `Q` of the answer and the
state if it answers, `E` of the failure and the state if it fails. There is one rule for each way
to build a computation, so that a statement about a program follows its text.
-/

namespace Litany

/-! ### Answers -/

section Answers

variable {ε σ α β : Type} {x : EStateM ε σ α} {f : α → EStateM ε σ β} {s s' : σ}

/-- Two computations in a row: the second one starts where the first one answers. -/
theorem bind_apply : (x >>= f) s =
    match x s with
    | .ok a s' => f a s'
    | .error e s' => .error e s' :=
  rfl

/-- Two computations in a row answer if both do. -/
theorem bind_eq_ok {b : β} :
    (x >>= f) s = .ok b s' ↔ ∃ a s₁, x s = .ok a s₁ ∧ f a s₁ = .ok b s' := by
  rw [bind_apply]
  cases x s with
  | error e s₁ => simp
  | ok a s₁ =>
    constructor
    · intro h
      exact ⟨a, s₁, rfl, h⟩
    · rintro ⟨a', s₂, heq, h⟩
      cases heq
      exact h

/-- Behind an answer the second computation is all there is. -/
theorem bind_of_ok {s₁ : σ} {a : α} (h : x s = .ok a s₁) (f : α → EStateM ε σ β) :
    (x >>= f) s = f a s₁ := by
  rw [bind_apply, h]

theorem pure_eq_ok {a b : α} :
    (pure a : EStateM ε σ α) s = .ok b s' ↔ b = a ∧ s = s' := by
  change EStateM.Result.ok a s = _ ↔ _
  simp [eq_comm]

/-- An outcome that gives a value is that value. -/
theorem eq_ok_of_toOption {x : Except ε α} {a : α} (h : x.toOption = some a) : x = .ok a := by
  cases x with
  | error e => cases h
  | ok b =>
    obtain rfl := Option.some.inj h
    rfl

end Answers

/-! ### Answers and failures -/

/-- Started in a state, a computation either answers as `Q` says or fails as `E` says. -/
def Ends {ε σ α : Type} (x : EStateM ε σ α) (s : σ) (Q : α → σ → Prop) (E : ε → σ → Prop) : Prop :=
  match x s with
  | .ok a s' => Q a s'
  | .error e s' => E e s'

namespace Ends

variable {ε σ α β : Type} {x : EStateM ε σ α} {s : σ} {Q : α → σ → Prop} {E : ε → σ → Prop}

/-- An answer ends where it is given. -/
theorem pure {a : α} (h : Q a s) : Ends (pure a : EStateM ε σ α) s Q E :=
  h

/-- A failure ends where it is thrown. -/
theorem throw {e : ε} (h : E e s) : Ends (throw e : EStateM ε σ α) s Q E :=
  h

/-- Two computations in a row end as the second does, wherever the first one may answer. -/
theorem bind {f : α → EStateM ε σ β} {P : β → σ → Prop} (hx : Ends x s Q E)
    (hf : ∀ a s', Q a s' → Ends (f a) s' P E) : Ends (x >>= f) s P E := by
  unfold Ends at hx ⊢
  rw [bind_apply]
  cases hresult : x s with
  | ok a s' =>
    rw [hresult] at hx
    exact hf a s' hx
  | error e s' =>
    rw [hresult] at hx
    exact hx

/-- How a computation ends may be said with less detail. -/
theorem mono {Q' : α → σ → Prop} {E' : ε → σ → Prop} (h : Ends x s Q E)
    (hQ : ∀ a s', Q a s' → Q' a s') (hE : ∀ e s', E e s' → E' e s') : Ends x s Q' E' := by
  unfold Ends at h ⊢
  cases hresult : x s with
  | ok a s' =>
    rw [hresult] at h
    exact hQ a s' h
  | error e s' =>
    rw [hresult] at h
    exact hE e s' h

/-- The answer that is spoken of is the one that is given. -/
theorem answers (h : Ends x s Q E) : Ends x s (fun a s' => x s = .ok a s' ∧ Q a s') E := by
  unfold Ends at h ⊢
  cases hresult : x s with
  | ok a s' =>
    rw [hresult] at h
    exact ⟨rfl, h⟩
  | error e s' =>
    rw [hresult] at h
    exact h

/-- What is true behind a computation that answers. -/
theorem of_ok {a : α} {s' : σ} (h : Ends x s Q E) (hx : x s = .ok a s') : Q a s' := by
  unfold Ends at h
  rw [hx] at h
  exact h

/-- What is true behind a computation that fails. -/
theorem of_error {e : ε} {s' : σ} (h : Ends x s Q E) (hx : x s = .error e s') : E e s' := by
  unfold Ends at h
  rw [hx] at h
  exact h

end Ends

end Litany
