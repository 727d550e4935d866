import Mathlib

/-!
# Computations that record what they do

A traced computation has the events up to its end beside its result, also if it
fails. `All p` says that every event satisfies `p`.
-/

structure Traced (ω ε α : Type) where
  events : List ω
  result : Except ε α

namespace Traced

variable {ω ε α β : Type} {p : ω → Prop}

instance : Monad (Traced ω ε) where
  pure a := ⟨[], .ok a⟩
  bind x f :=
    match x.result with
    | .ok a => ⟨x.events ++ (f a).events, (f a).result⟩
    | .error e => ⟨x.events, .error e⟩

/-- A computation without events. -/
instance : MonadLift (Except ε) (Traced ω ε) := ⟨fun r => ⟨[], r⟩⟩

def emit (w : ω) : Traced ω ε Unit := ⟨[w], .ok ()⟩

def fail (e : ε) : Traced ω ε α := ⟨[], .error e⟩

def All (p : ω → Prop) (x : Traced ω ε α) : Prop := ∀ w ∈ x.events, p w

-- ---------------------------------------------------------------------------
-- Results
-- ---------------------------------------------------------------------------

@[simp] theorem result_pure (a : α) : (pure a : Traced ω ε α).result = pure a := rfl

@[simp] theorem result_emit (w : ω) : (emit w : Traced ω ε Unit).result = pure () := rfl

@[simp] theorem result_fail (e : ε) : (fail e : Traced ω ε α).result = throw e := rfl

@[simp] theorem result_lift (r : Except ε α) : (liftM r : Traced ω ε α).result = r := rfl

@[simp] theorem result_bind (x : Traced ω ε α) (f : α → Traced ω ε β) :
    (x >>= f).result = x.result >>= fun a => (f a).result := by
  obtain ⟨l, r⟩ := x
  cases r <;> rfl

@[simp] theorem result_ite (c : Prop) [Decidable c] (x y : Traced ω ε α) :
    (if c then x else y).result = if c then x.result else y.result := by
  split <;> rfl

theorem result_check (c : Prop) [Decidable c] (e : ε) {f : Unit → Traced ω ε α}
    {g : Unit → Except ε α}
    (h : (f ()).result = g ()) :
    (if c then fail e >>= f else f ()).result = if c then throw e >>= g else g () := by
  split
  · rfl
  · exact h

-- ---------------------------------------------------------------------------
-- Events
-- ---------------------------------------------------------------------------

@[simp] theorem all_pure (a : α) :
    (pure a : Traced ω ε α).All p := fun _ hw => absurd hw List.not_mem_nil

@[simp] theorem all_fail (e : ε) :
    (fail e : Traced ω ε α).All p := fun _ hw => absurd hw List.not_mem_nil

@[simp] theorem all_lift (r : Except ε α) :
    (liftM r : Traced ω ε α).All p := fun _ hw => absurd hw List.not_mem_nil

@[simp] theorem all_emit {w : ω} : (emit w : Traced ω ε Unit).All p ↔ p w := by simp [All, emit]

/-- The events of what follows count only if there is a result to go on with. -/
theorem all_bind {x : Traced ω ε α} {f : α → Traced ω ε β} :
    (x >>= f).All p ↔ x.All p ∧ ∀ a, x.result = .ok a → (f a).All p := by
  obtain ⟨l, r⟩ := x
  cases r with
  | error e =>
    change (∀ w ∈ l, p w) ↔ _
    simp [All]
  | ok a =>
    change (∀ w ∈ l ++ (f a).events, p w) ↔ _
    simp only [All, List.mem_append, or_imp, forall_and, Except.ok.injEq]
    exact and_congr_right fun _ => ⟨fun h b hb => hb ▸ h, fun h => h a rfl⟩

@[simp] theorem all_ite (c : Prop) [Decidable c] (x y : Traced ω ε α) :
    (if c then x else y).All p ↔ (c → x.All p) ∧ (¬ c → y.All p) := by
  split <;> simp_all

@[simp] theorem all_fail_bind (e : ε) (f : α → Traced ω ε β) :
    ((fail e : Traced ω ε α) >>= f).All p :=
  fun _ hw => absurd hw List.not_mem_nil

theorem all_check (c : Prop) [Decidable c] (e : ε) (f : Unit → Traced ω ε α) :
    (if c then fail e >>= f else f ()).All p ↔ (¬ c → (f ()).All p) := by
  rw [all_ite]
  exact and_iff_right fun _ => all_fail_bind e f

@[simp] theorem all_emit_bind {w : ω} {f : Unit → Traced ω ε β} :
    (emit w >>= f).All p ↔ p w ∧ (f ()).All p := by
  rw [all_bind, all_emit]
  exact and_congr_right fun _ => ⟨fun h => h () rfl, fun h _ _ => h⟩

@[simp] theorem all_lift_bind {r : Except ε α} {f : α → Traced ω ε β} :
    ((liftM r : Traced ω ε α) >>= f).All p ↔ ∀ a, r = .ok a → (f a).All p := by
  rw [all_bind]
  exact and_iff_right (all_lift r)

end Traced
