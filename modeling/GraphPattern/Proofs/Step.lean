import GraphPattern.Query.Edit
import Mathlib.Data.List.Forall2
import Mathlib.Tactic.Common

/-!
# Running steps

A step of the library is a state computation that may fail. Running it reduces to a look at what
its parts answer; a step that answers has answered at every part, one after another.
-/

namespace GraphPattern.Step

variable {ε σ α β : Type}

@[simp] theorem pure_apply (a : α) (s : σ) : (pure a : EStateM ε σ α) s = .ok a s := rfl

theorem bind_apply (x : EStateM ε σ α) (f : α → EStateM ε σ β) (s : σ) :
    (x >>= f) s = match x s with
      | .ok a t => f a t
      | .error e t => .error e t := rfl

theorem bind_of_ok {x : EStateM ε σ α} {s t : σ} {a : α} (h : x s = .ok a t)
    (f : α → EStateM ε σ β) : (x >>= f) s = f a t := by
  rw [bind_apply,h]

theorem bind_of_error {x : EStateM ε σ α} {s t : σ} {e : ε} (h : x s = .error e t)
    (f : α → EStateM ε σ β) : (x >>= f) s = .error e t := by
  rw [bind_apply,h]

/-- A sequence answers exactly when both of its parts do. -/
theorem bind_eq_ok {x : EStateM ε σ α} {f : α → EStateM ε σ β} {s u : σ} {b : β} :
    (x >>= f) s = .ok b u ↔ ∃ a t, x s = .ok a t ∧ f a t = .ok b u := by
  rw [bind_apply]
  cases x s with
  | ok a t => exact ⟨fun h => ⟨a,t,rfl,h⟩,fun ⟨_,_,h,hf⟩ => by cases h; exact hf⟩
  | error e t => simp

@[simp] theorem get_apply (s : σ) : (get : EStateM ε σ σ) s = .ok s s := rfl

@[simp] theorem set_apply (t s : σ) : (set t : EStateM ε σ PUnit) s = .ok ⟨⟩ t := rfl

@[simp] theorem modify_apply (f : σ → σ) (s : σ) :
    (modify f : EStateM ε σ PUnit) s = .ok ⟨⟩ (f s) := rfl

@[simp] theorem throw_apply (e : ε) (s : σ) : (throw e : EStateM ε σ α) s = .error e s := rfl

@[simp] theorem lift_ok (a : α) (s : σ) :
    (liftM (Except.ok a : Except ε α) : EStateM ε σ α) s = .ok a s := rfl

@[simp] theorem lift_error (e : ε) (s : σ) :
    (liftM (Except.error e : Except ε α) : EStateM ε σ α) s = .error e s := rfl

/-- A question is answered if it has an answer, and the state is left alone. -/
theorem lift_eq_ok {x : Except ε α} {a : α} {s t : σ} :
    (liftM x : EStateM ε σ α) s = .ok a t ↔ x = .ok a ∧ s = t := by
  cases x with
  | ok b =>
    rw [lift_ok]
    constructor
    · rintro ⟨⟩
      exact ⟨rfl,rfl⟩
    · rintro ⟨⟨⟩,rfl⟩
      rfl
  | error e => simp

@[simp] theorem ofExcept_ok (a : α) (s : σ) :
    (ofExcept (Except.ok a : Except ε α) : EStateM ε σ α) s = .ok a s := rfl

theorem ofExcept_eq_ok {x : Except ε α} {a : α} {s t : σ} :
    (ofExcept x : EStateM ε σ α) s = .ok a t ↔ x = .ok a ∧ s = t := by
  cases x with
  | ok b => exact lift_eq_ok (x:=.ok b)
  | error e => exact ⟨(fun h => by cases h),(fun h => by cases h.1)⟩

@[simp] theorem refuseState_apply (fault : StateFault) (s : σ) :
    (refuseState fault : EStateM Error σ α) s = .error (.state fault) s := rfl

@[simp] theorem refuseArgument_apply (fault : ArgumentFault) (s : σ) :
    (refuseArgument fault : EStateM Error σ α) s = .error (.argument fault) s := rfl

@[simp] theorem except_pure (a : α) : (pure a : Except ε α) = .ok a := rfl

@[simp] theorem ok_bind (a : α) (f : α → Except ε β) : (Except.ok a >>= f) = f a := rfl

@[simp] theorem error_bind (e : ε) (f : α → Except ε β) : (Except.error e >>= f) = .error e := rfl

/-- Questions one after another are answered exactly when each of them is. -/
theorem except_bind_eq_ok {x : Except ε α} {f : α → Except ε β} {b : β} :
    (x >>= f) = .ok b ↔ ∃ a, x = .ok a ∧ f a = .ok b := by
  cases x with
  | ok a => simp
  | error e => simp

@[simp] theorem refuseState_except (fault : StateFault) :
    (refuseState fault : Except Error α) = .error (.state fault) := rfl

@[simp] theorem refuseArgument_except (fault : ArgumentFault) :
    (refuseArgument fault : Except Error α) = .error (.argument fault) := rfl

/-- The step fails and leaves the state as it was. -/
def Refuses (x : EStateM ε σ α) (s : σ) : Prop := ∃ e, x s = .error e s

/-- What holds unless a step is refused holds if the step answers. -/
theorem not_refused {P : Prop} {x : EStateM ε σ α} {s t : σ} {a : α} (h : Refuses x s ∨ P)
    (hx : x s = .ok a t) : P := by
  rcases h with ⟨e,he⟩|hp
  · rw [he] at hx
    cases hx
  · exact hp

/-- A loop whose rounds all succeed ends in the state that the rounds lead to one after another. The
invariant is what a round needs of the state. -/
theorem forM_apply {P : σ → Prop} {x : α → EStateM ε σ PUnit} {g : σ → α → σ} {as : List α}
    (h : ∀ a ∈ as, ∀ s, P s → x a s = .ok ⟨⟩ (g s a) ∧ P (g s a)) {s : σ} (hs : P s) :
    as.forM x s = .ok ⟨⟩ (as.foldl g s) ∧ P (as.foldl g s) := by
  induction as generalizing s with
  | nil => exact ⟨rfl,hs⟩
  | cons a as ih =>
    obtain ⟨hx,hp⟩ := h a List.mem_cons_self s hs
    have hrest := ih (fun b hb => h b (List.mem_cons_of_mem _ hb)) hp
    change (x a >>= fun _ => as.forM x) s = _ ∧ _
    rw [bind_of_ok hx]
    exact hrest

/-- The step keeps a property of the state, and what it answers has another one. -/
def Keeps (P : σ → Prop) (Q : α → Prop) (x : EStateM ε σ α) : Prop :=
  ∀ s a t, P s → x s = .ok a t → P t ∧ Q a

variable {P : σ → Prop} {Q : α → Prop} {R : β → Prop}

theorem Keeps.pure {a : α} (h : Q a) : Keeps P Q (pure a : EStateM ε σ α) := by
  intro s b t hs hx
  cases hx
  exact ⟨hs,h⟩

theorem Keeps.lift {x : Except ε α} (h : ∀ a, x = .ok a → Q a) :
    Keeps P Q (liftM x : EStateM ε σ α) := by
  intro s a t hs hx
  cases x with
  | error e => cases hx
  | ok b =>
    cases hx
    exact ⟨hs,h _ rfl⟩

theorem Keeps.ofExcept {x : Except ε α} (h : ∀ a, x = .ok a → Q a) :
    Keeps P Q (ofExcept x : EStateM ε σ α) := by
  intro s a t hs hx
  obtain ⟨ha,rfl⟩ := ofExcept_eq_ok.mp hx
  exact ⟨hs,h a ha⟩

theorem Keeps.get : Keeps P P (get : EStateM ε σ σ) := by
  intro s a t hs hx
  cases hx
  exact ⟨hs,hs⟩

theorem Keeps.throw (e : ε) : Keeps P Q (throw e : EStateM ε σ α) := nofun

theorem Keeps.modify {g : σ → σ} (h : ∀ s, P s → P (g s)) :
    Keeps P (fun _ => True) (modify g : EStateM ε σ PUnit) := by
  intro s a t hs hx
  cases hx
  exact ⟨h s hs,trivial⟩

theorem Keeps.bind {x : EStateM ε σ α} {f : α → EStateM ε σ β} (hx : Keeps P Q x)
    (hf : ∀ a, Q a → Keeps P R (f a)) : Keeps P R (x >>= f) := by
  intro s b u hs h
  obtain ⟨a,t,ha,hb⟩ := bind_eq_ok.mp h
  obtain ⟨ht,hq⟩ := hx s a t hs ha
  exact hf a hq t b u ht hb

/-- A loop keeps what each of its rounds keeps. -/
theorem Keeps.forM {f : α → EStateM ε σ PUnit} {as : List α}
    (h : ∀ a ∈ as, Keeps P (fun _ => True) (f a)) : Keeps P (fun _ => True) (as.forM f) := by
  induction as with
  | nil => exact .pure trivial
  | cons a as ih =>
    exact (h a List.mem_cons_self).bind fun _ _ =>
      ih fun b hb => h b (List.mem_cons_of_mem _ hb)

/-- The step answers, and the answer and the state have a property, or it fails, and then something
else is known. -/
def Outcome (x : EStateM ε σ α) (s : σ) (P : α → σ → Prop) (F : Prop) : Prop :=
  match x s with
  | .ok a t => P a t
  | .error _ _ => F

section Outcome

variable {x : EStateM ε σ α} {s : σ} {P P' : α → σ → Prop} {F F' : Prop}

theorem Outcome.of_ok {a : α} {t : σ} (h : x s = .ok a t) (hp : P a t) : Outcome x s P F := by
  rw [Outcome,h]
  exact hp

theorem Outcome.of_error {e : ε} {t : σ} (h : x s = .error e t) (hf : F) : Outcome x s P F := by
  rw [Outcome,h]
  exact hf

theorem Outcome.bind {f : α → EStateM ε σ β} {Q : β → σ → Prop} (h : Outcome x s P F)
    (hf : ∀ a t, P a t → Outcome (f a) t Q F) : Outcome (x >>= f) s Q F := by
  rw [Outcome,bind_apply]
  rw [Outcome] at h
  split at h
  · rename_i a t ha
    exact hf a t h
  · exact h

theorem Outcome.after {a : α} {t : σ} {f : α → EStateM ε σ β} {Q : β → σ → Prop}
    (h : x s = .ok a t) (hf : Outcome (f a) t Q F) : Outcome (x >>= f) s Q F := by
  rw [Outcome,bind_of_ok h]
  exact hf

theorem Outcome.imp (h : Outcome x s P F) (hp : ∀ a t, P a t → P' a t) (hf : F → F') :
    Outcome x s P' F' := by
  rw [Outcome] at h ⊢
  split at h
  · exact hp _ _ h
  · exact hf h

/-- What is known of an answer holds of the one that is given. -/
theorem Outcome.of_eq {a : α} {t : σ} (h : Outcome x s P F) (hx : x s = .ok a t) : P a t := by
  rw [Outcome,hx] at h
  exact h

/-- The answer that is given is the one of which something is known. -/
theorem Outcome.given (h : Outcome x s P F) : Outcome x s (fun a t => x s = .ok a t ∧ P a t) F := by
  rw [Outcome] at h ⊢
  split at h
  · rename_i a t ha
    exact ⟨ha,h⟩
  · exact h

/-- A step that cannot fail answers. -/
theorem Outcome.ok (h : Outcome x s P False) : ∃ a t, x s = .ok a t ∧ P a t := by
  rw [Outcome] at h
  split at h
  · rename_i a t ha
    exact ⟨a,t,ha,h⟩
  · exact h.elim

end Outcome

/-- The step answers, and the answer and the state have a property, or it fails, and the error and
the state that it leaves have another one. -/
def Ends (x : EStateM ε σ α) (s : σ) (P : α → σ → Prop) (E : ε → σ → Prop) : Prop :=
  match x s with
  | .ok a t => P a t
  | .error e t => E e t

section Ends

variable {x : EStateM ε σ α} {s : σ} {P P' : α → σ → Prop} {E E' : ε → σ → Prop}

theorem Ends.of_ok {a : α} {t : σ} (h : x s = .ok a t) (hp : P a t) : Ends x s P E := by
  rw [Ends,h]
  exact hp

theorem Ends.of_error {e : ε} {t : σ} (h : x s = .error e t) (he : E e t) : Ends x s P E := by
  rw [Ends,h]
  exact he

theorem Ends.bind {f : α → EStateM ε σ β} {Q : β → σ → Prop} (h : Ends x s P E)
    (hf : ∀ a t, P a t → Ends (f a) t Q E) : Ends (x >>= f) s Q E := by
  rw [Ends,bind_apply]
  rw [Ends] at h
  split at h
  · rename_i a t _
    exact hf a t h
  · exact h

theorem Ends.after {a : α} {t : σ} {f : α → EStateM ε σ β} {Q : β → σ → Prop} (h : x s = .ok a t)
    (hf : Ends (f a) t Q E) : Ends (x >>= f) s Q E := by
  rw [Ends,bind_of_ok h]
  exact hf

theorem Ends.imp (h : Ends x s P E) (hp : ∀ a t, P a t → P' a t)
    (he : ∀ e t, E e t → E' e t) : Ends x s P' E' := by
  rw [Ends] at h ⊢
  split at h
  · exact hp _ _ h
  · exact he _ _ h

/-- A question that leaves the state alone ends in that state. -/
theorem Ends.lift {x : Except ε α} (hp : ∀ a, x = .ok a → P a s) (he : ∀ e, x = .error e → E e s) :
    Ends (liftM x : EStateM ε σ α) s P E := by
  cases x with
  | ok a => exact hp a rfl
  | error e => exact he e rfl

/-- What is known of an answer holds of the one that is given. -/
theorem Ends.of_eq {a : α} {t : σ} (h : Ends x s P E) (hx : x s = .ok a t) : P a t := by
  rw [Ends,hx] at h
  exact h

/-- What is known of a step in two ways is known together. -/
theorem Ends.and (h : Ends x s P E) (h' : Ends x s P' E') :
    Ends x s (fun a t => P a t ∧ P' a t) fun e t => E e t ∧ E' e t := by
  rw [Ends] at h h' ⊢
  cases hx : x s with
  | ok a t =>
    rw [hx] at h h'
    exact ⟨h,h'⟩
  | error e t =>
    rw [hx] at h h'
    exact ⟨h,h'⟩

/-- A step that cannot fail ends in an answer. -/
theorem Outcome.ends (h : Outcome x s P False) : Ends x s P E := by
  obtain ⟨a,t,hx,hp⟩ := h.ok
  exact .of_ok hx hp

/-- If the states after failures do not count, it is enough to know when they occur. -/
theorem Ends.outcome {F : Prop} (h : Ends x s P fun _ _ => F) : Outcome x s P F := h

/-- What is known of a failure holds of the one that occurs. -/
theorem Ends.of_eq_error {e : ε} {t : σ} (h : Ends x s P E) (hx : x s = .error e t) : E e t := by
  rw [Ends,hx] at h
  exact h

end Ends

/-- Whether a step fails from a state, with a fault and a state that pass a test. -/
def failsWith (p : ε → σ → Bool) (x : EStateM ε σ α) (s : σ) : Bool :=
  match x s with
  | .ok _ _ => false
  | .error e t => p e t

theorem exists_of_failsWith {p : ε → σ → Bool} {x : EStateM ε σ α} {s : σ}
    (h : failsWith p x s = true) : ∃ e t, x s = .error e t ∧ p e t = true := by
  rw [failsWith] at h
  cases hx : x s with
  | ok a t =>
    rw [hx] at h
    cases h
  | error e t =>
    rw [hx] at h
    exact ⟨e,t,rfl,h⟩

/-- A list is worked through if every element is, and the answers stand in the order of the
elements. -/
theorem mapM_ok {f : α → Except ε β} {P : α → β → Prop} {l : List α}
    (h : ∀ a ∈ l, ∃ b, f a = .ok b ∧ P a b) :
    ∃ bs, l.mapM f = .ok bs ∧ List.Forall₂ P l bs := by
  induction l with
  | nil => exact ⟨[],rfl,.nil⟩
  | cons a as ih =>
    obtain ⟨b,hb,hp⟩ := h a List.mem_cons_self
    obtain ⟨bs,hbs,hps⟩ := ih fun a ha => h a (List.mem_cons_of_mem _ ha)
    refine ⟨b :: bs,?_,.cons hp hps⟩
    rw [List.mapM_cons,hb,hbs]
    rfl

/-- The answers for the elements of a list stand in the order of the elements. -/
theorem forall₂_of_mapM {f : α → Except ε β} {l : List α} {bs : List β} (h : l.mapM f = .ok bs) :
    List.Forall₂ (fun a b => f a = .ok b) l bs := by
  induction l generalizing bs with
  | nil =>
    cases h
    exact .nil
  | cons a as ih =>
    rw [List.mapM_cons] at h
    obtain ⟨b,hb,h⟩ := except_bind_eq_ok.mp h
    obtain ⟨cs,hcs,h⟩ := except_bind_eq_ok.mp h
    cases h
    exact .cons hb (ih hcs)

/-- Every element of the first list has a partner in the second one. -/
theorem exists_right {P : α → β → Prop} {as : List α} {bs : List β} (h : List.Forall₂ P as bs)
    {a : α} (ha : a ∈ as) : ∃ b ∈ bs, P a b := by
  induction h with
  | nil => cases ha
  | cons hab _ ih =>
    rcases List.mem_cons.mp ha with rfl|ha
    · exact ⟨_,List.mem_cons_self,hab⟩
    · obtain ⟨b,hb,hp⟩ := ih ha
      exact ⟨b,List.mem_cons_of_mem _ hb,hp⟩

/-- Every element of the second list has a partner in the first one. -/
theorem exists_left {P : α → β → Prop} {as : List α} {bs : List β} (h : List.Forall₂ P as bs)
    {b : β} (hb : b ∈ bs) : ∃ a ∈ as, P a b :=
  exists_right (P:=fun b a => P a b) h.flip hb

/-- A filter whose questions are all answered keeps what the answers keep. -/
theorem filterM_ok {p : α → Except ε Bool} {P : α → Bool} {as : List α}
    (h : ∀ a ∈ as, p a = .ok (P a)) : as.filterM p = .ok (as.filter P) := by
  have go : ∀ (as acc : List α), (∀ a ∈ as, p a = .ok (P a)) →
      as.filterAuxM p acc = .ok ((as.filter P).reverse ++ acc) := by
    intro as
    induction as with
    | nil => exact fun acc _ => rfl
    | cons a as ih =>
      intro acc h
      rw [List.filterAuxM,h a List.mem_cons_self,ok_bind,
        ih _ fun b hb => h b (List.mem_cons_of_mem _ hb)]
      cases hP : P a <;> simp [hP]
  rw [List.filterM,go as [] h]
  simp

/-- A filter keeps nothing but elements of the list. -/
theorem mem_of_filterM {p : α → Except ε Bool} {as bs : List α} (h : as.filterM p = .ok bs) {b : α}
    (hb : b ∈ bs) : b ∈ as := by
  have go : ∀ (as acc : List α) {bs : List α}, as.filterAuxM p acc = .ok bs →
      ∀ b ∈ bs, b ∈ as ∨ b ∈ acc := by
    intro as
    induction as with
    | nil =>
      intro acc bs h b hb
      cases h
      exact .inr hb
    | cons a as ih =>
      intro acc bs h b hb
      obtain ⟨keep,-,h⟩ := except_bind_eq_ok.mp h
      rcases ih _ h b hb with hb|hb
      · exact .inl (List.mem_cons_of_mem _ hb)
      · cases keep with
        | true =>
          rcases List.mem_cons.mp hb with rfl|hb
          · exact .inl List.mem_cons_self
          · exact .inr hb
        | false => exact .inr hb
  obtain ⟨cs,hcs,h⟩ := except_bind_eq_ok.mp h
  cases h
  exact (go as [] hcs b (List.mem_reverse.mp hb)).resolve_right List.not_mem_nil

end GraphPattern.Step
