import Mathlib

/-!
# Runs that follow a machine

A machine keeps its state when it fails, and with it what it has gathered on
the way. A run follows the machine if it ends as the machine does, in a related
state or with the same error, provided all that the machine gathers is good.
Two runs that follow one machine end alike.
-/

namespace Lockstep

variable {ε σ κ α β γ δ : Type}

def final : EStateM.Result ε σ α → σ
  | .ok _ t => t
  | .error _ t => t

def Ends (R : α → σ → β → Prop) : EStateM.Result ε σ α → Except ε β → Prop
  | .ok a t, .ok b => R a t b
  | .error e _, .error e' => e = e'
  | _, _ => False

def Grows (q : σ → Set κ) (x : EStateM ε σ α) : Prop := ∀ t, q t ⊆ q (final (x t))

def Follows (q : σ → Set κ) (good : Set κ) (R : α → σ → β → Prop) (r : EStateM.Result ε σ α)
    (c : Except ε β) : Prop :=
  q (final r) ⊆ good → Ends R r c

section
variable {q : σ → Set κ} {good : Set κ} {R : α → σ → β → Prop} {R' : γ → σ → δ → Prop}
    {x : EStateM ε σ α}
  {f : α → EStateM ε σ γ} {c c' : Except ε β} {g : β →
    Except ε δ} {r : EStateM.Result ε σ α} {t : σ}

theorem bind_run : (x >>= f) t = match x t with
    | .ok a t' => f a t'
    | .error e t' => .error e t' := rfl

theorem Grows.pure (a : α) : Grows (ε := ε) q (Pure.pure a) := fun _ => subset_rfl

theorem Grows.throw (e : ε) : Grows (α := α) q (throw e : EStateM ε σ α) := fun _ => subset_rfl

theorem Grows.bind (hx : Grows q x) (hf : ∀ a, Grows q (f a)) : Grows q (x >>= f) := by
  intro t
  have h := hx t
  rw [bind_run]
  cases hxt : x t with
  | ok a t' =>
    rw [hxt] at h
    exact h.trans (hf a t')
  | error e t' =>
    rw [hxt] at h
    exact h

theorem Follows.pure (h : R a t b) : Follows (ε := ε) q good R (.ok a t) (.ok b) := fun _ => h

theorem Follows.throw (e : ε) : Follows q good R (.error e t) (.error e) := fun _ => rfl

theorem Follows.bind (h : Follows q good R (x t) c) (hq : ∀ a, Grows q (f a))
    (hf : ∀ a t' b, R a t' b → Follows q good R' (f a t') (g b)) :
    Follows q good R' ((x >>= f) t) (c >>= g) := by
  intro hgood
  rw [bind_run] at hgood ⊢
  cases hxt : x t with
  | ok a t' =>
    rw [hxt] at h hgood
    have hend := h ((hq a t').trans hgood)
    cases c with
    | ok b => exact hf a t' b hend hgood
    | error e => exact hend.elim
  | error e t' =>
    rw [hxt] at h hgood
    have hend := h hgood
    cases c with
    | ok b => exact hend.elim
    | error e' => exact hend

theorem Ends.agree {S : α → σ → β → Prop} (h : Ends R r c) (h' : Ends S r c') :
    (∃ e, c = .error e ∧ c' = .error e) ∨
    ∃ a t b b', c = .ok b ∧ c' = .ok b' ∧ r = .ok a t ∧ R a t b ∧ S a t b' := by
  cases r with
  | ok a t =>
    cases c with
    | error e => exact h.elim
    | ok b =>
      cases c' with
      | error e => exact h'.elim
      | ok b' => exact .inr ⟨a, t, b, b', rfl, rfl, rfl, h, h'⟩
  | error e t =>
    cases c with
    | ok b => exact h.elim
    | error e' =>
      cases c' with
      | ok b' => exact h'.elim
      | error e'' => exact .inl ⟨e, by rw [show e = e' from h], by rw [show e = e'' from h']⟩

end

end Lockstep
