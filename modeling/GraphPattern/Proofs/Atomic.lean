import GraphPattern.Proofs.Step

/-!
# Steps whose failures leave no trace

A step is atomic if a failure leaves the state as it was. Whatever only looks at the state is, and a
step that looks first, may fail, and then does something that cannot fail any more is atomic as well.
-/

namespace GraphPattern.Step

variable {ε σ α β : Type} {x : EStateM ε σ α} {f : α → EStateM ε σ β} {s t : σ}

/-- The state after a step, whether it answers or fails. -/
def after (x : EStateM ε σ α) (s : σ) : σ :=
  match x s with
  | .ok _ t => t
  | .error _ t => t

theorem after_of_ok {a : α} (h : x s = .ok a t) : after x s = t := by
  rw [after,h]

/-- What holds however the step ends holds of the state after it. -/
theorem after_of_ends {P : σ → Prop} (h : Ends x s (fun _ t => P t) fun _ t => P t) :
    P (after x s) := by
  rw [Ends] at h
  rw [after]
  split
  all_goals
    rename_i hx
    rw [hx] at h
    exact h

/-- If the step fails, the state is as it was. -/
def Atomic (x : EStateM ε σ α) (s : σ) : Prop := ∀ e t, x s = .error e t → t = s

/-- The step never changes the state. -/
def Reads (x : EStateM ε σ α) : Prop := ∀ s, Ends x s (fun _ t => t = s) fun _ t => t = s

/-- The step never fails. -/
def Sure (x : EStateM ε σ α) : Prop := ∀ s e t, x s ≠ .error e t

/-! ## Steps that only look -/

theorem Reads.pure (a : α) : Reads (pure a : EStateM ε σ α) := fun _ => .of_ok rfl rfl

theorem Reads.get : Reads (get : EStateM ε σ σ) := fun _ => .of_ok rfl rfl

theorem Reads.throw (e : ε) : Reads (throw e : EStateM ε σ α) := fun _ => .of_error rfl rfl

theorem Reads.ofExcept (x : Except ε α) : Reads (ofExcept x : EStateM ε σ α) := by
  cases x with
  | ok a => exact .pure a
  | error e => exact .throw e

theorem Reads.bind (hx : Reads x) (hf : ∀ a, Reads (f a)) : Reads (x >>= f) := fun s =>
  (hx s).bind fun a t ht => ht ▸ hf a t

/-! ## Steps that cannot fail -/

theorem Sure.pure (a : α) : Sure (pure a : EStateM ε σ α) := fun _ _ _ h => by cases h

theorem Sure.modify (g : σ → σ) : Sure (modify g : EStateM ε σ PUnit) := fun _ _ _ h => by cases h

theorem Sure.bind (hx : Sure x) (hf : ∀ a, Sure (f a)) : Sure (x >>= f) := fun s e t h => by
  rw [bind_apply] at h
  split at h
  · exact hf _ _ e t h
  · rename_i hs
    exact hx s _ _ hs

/-! ## Atomic steps -/

theorem Atomic.of_reads (h : Reads x) : Atomic x s := fun _ _ hs => (h s).of_eq_error hs

theorem Atomic.of_sure (h : Sure x) : Atomic x s := fun e t hs => absurd hs (h s e t)

theorem Atomic.of_ok {a : α} (h : x s = .ok a t) : Atomic x s := fun _ _ hs => by
  rw [h] at hs
  cases hs

theorem Atomic.of_refuses (h : Refuses x s) : Atomic x s := fun _ _ hs => by
  obtain ⟨_,he⟩ := h
  rw [he] at hs
  cases hs
  rfl

theorem Atomic.after (h : Atomic x s) {e : ε} (hx : x s = .error e t) : after x s = s := by
  rw [Step.after,hx]
  exact h e t hx

/-- What looks first may go on with anything atomic. -/
theorem Reads.atomic (hx : Reads x) (hf : ∀ a, Atomic (f a) s) : Atomic (x >>= f) s :=
  fun e t h => by
  have hs := hx s
  rw [bind_apply] at h
  rw [Ends] at hs
  split at h <;> rename_i hr <;> rw [hr] at hs
  · rw [hs] at h
    exact hf _ e t h
  · cases h
    exact hs

/-- What comes after an atomic step must not fail. -/
theorem Atomic.bind (hx : Atomic x s) (hf : ∀ a, Sure (f a)) : Atomic (x >>= f) s :=
  fun e t h => by
  rw [bind_apply] at h
  split at h
  · exact absurd h (hf _ _ e t)
  · rename_i hr
    cases h
    exact hx _ _ hr

end GraphPattern.Step
