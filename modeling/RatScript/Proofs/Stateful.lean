import Mathlib

/-!
Steps that change a state and may fail: how a step made of others ends, and relations between the
state before and the state after that every step keeps.
-/

namespace RatScript.Stateful

variable {ε σ α β : Type}

theorem bind_eq_ok {x : EStateM ε σ α} {f : α → EStateM ε σ β} {s s' : σ} {b : β} :
    (x >>= f) s = .ok b s' ↔ ∃ a t, x s = .ok a t ∧ f a t = .ok b s' := by
  simp only [bind, EStateM.bind]
  cases x s <;> simp [and_assoc]

theorem bind_eq_error {x : EStateM ε σ α} {f : α → EStateM ε σ β} {s s' : σ} {e : ε} :
    (x >>= f) s = .error e s' ↔
      x s = .error e s' ∨ ∃ a t, x s = .ok a t ∧ f a t = .error e s' := by
  simp only [bind, EStateM.bind]
  cases x s <;> simp [and_assoc]

theorem pure_eq_ok {s s' : σ} {a b : α} :
    (pure a : EStateM ε σ α) s = .ok b s' ↔ a = b ∧ s = s' := by
  simp [pure, EStateM.pure]

theorem get_eq_ok {s s' a : σ} : (get : EStateM ε σ σ) s = .ok a s' ↔ s = a ∧ s = s' := by
  simp [get, getThe, MonadStateOf.get, EStateM.get]

theorem modify_eq_ok {f : σ → σ} {s s' : σ} {a : PUnit} :
    (modify f : EStateM ε σ PUnit) s = .ok a s' ↔ f s = s' := by
  simp [modify, modifyGet, MonadStateOf.modifyGet, EStateM.modifyGet]

theorem set_eq_ok {t s s' : σ} {a : PUnit} :
    (set t : EStateM ε σ PUnit) s = .ok a s' ↔ t = s' := by
  simp [set, MonadStateOf.set, EStateM.set]

theorem throw_ne_ok {e : ε} {s s' : σ} {a : α} :
    (throw e : EStateM ε σ α) s ≠ .ok a s' := by
  simp [throw, throwThe, MonadExceptOf.throw, EStateM.throw]

theorem tryFinally_eq (x : EStateM ε σ α) (y : EStateM ε σ β) (s : σ) :
    (tryFinally x y : EStateM ε σ α) s =
      match x s with
      | .ok a t =>
        match y t with
        | .ok _ u => .ok a u
        | .error e u => .error e u
      | .error e t =>
        match y t with
        | .ok _ u => .error e u
        | .error e' u => .error e' u := by
  change (Prod.fst <$> tryFinally' x (fun _ => y) : EStateM ε σ α) s = _
  simp only [tryFinally', Functor.map, EStateM.map]
  cases x s with
  | ok a t => cases h : y t <;> simp [h]
  | error e t => cases h : y t <;> simp [h]

theorem tryFinally_modify_eq_ok {x : EStateM ε σ α} {f : σ → σ} {s t : σ} {a : α} :
    (tryFinally x (modify f) : EStateM ε σ α) s = .ok a t ↔ ∃ u, x s = .ok a u ∧ f u = t := by
  rw [tryFinally_eq]
  cases x s <;>
    simp [modify, modifyGet, MonadStateOf.modifyGet, EStateM.modifyGet, and_assoc]

/-- The state a step leaves, whether it fails or not. -/
def after (x : EStateM ε σ α) (s : σ) : σ :=
  match x s with
  | .ok _ t => t
  | .error _ t => t

theorem after_of_ok {x : EStateM ε σ α} {s t : σ} {a : α} (h : x s = .ok a t) : after x s = t := by
  rw [after, h]

theorem after_of_error {x : EStateM ε σ α} {s t : σ} {e : ε} (h : x s = .error e t) :
    after x s = t := by
  rw [after, h]

def fails (x : EStateM ε σ α) (s : σ) : Bool :=
  match x s with
  | .ok _ _ => false
  | .error _ _ => true

theorem fails_iff {x : EStateM ε σ α} {s : σ} : fails x s = true ↔ ∃ e t, x s = .error e t := by
  unfold fails
  cases x s <;> simp

theorem succeeds_iff {x : EStateM ε σ α} {s : σ} : fails x s = false ↔ ∃ a t, x s = .ok a t := by
  unfold fails
  cases x s <;> simp

/-- Every run of the step, failed or not, relates the state before to the state after. -/
class Keeps (R : σ → σ → Prop) (x : EStateM ε σ α) : Prop where
  keeps : ∀ s, R s (after x s)

namespace Keeps

variable {R : σ → σ → Prop}

theorem of_ok {x : EStateM ε σ α} (h : Keeps R x) {s t : σ} {a : α} (hx : x s = .ok a t) :
    R s t :=
  after_of_ok hx ▸ h.keeps s

theorem of_error {x : EStateM ε σ α} (h : Keeps R x) {s t : σ} {e : ε}
    (hx : x s = .error e t) : R s t :=
  after_of_error hx ▸ h.keeps s

/-- What is left of a step that starts with reading the state. -/
theorem get_bind {f : σ → EStateM ε σ α} (h : ∀ s, R s (after (f s) s)) : Keeps R (get >>= f) :=
  ⟨h⟩

theorem modify {f : σ → σ} (h : ∀ s, R s (f s)) :
    Keeps R (modify f : EStateM ε σ PUnit) := ⟨h⟩

theorem modifyGet {f : σ → α × σ} (h : ∀ s, R s (f s).2) :
    Keeps R (modifyGet f : EStateM ε σ α) := ⟨h⟩

section
variable [Std.Refl R]

instance (a : α) : Keeps R (pure a : EStateM ε σ α) := ⟨fun s => Std.Refl.refl s⟩

instance : Keeps R (get : EStateM ε σ σ) := ⟨fun s => Std.Refl.refl s⟩

instance (e : ε) : Keeps R (throw e : EStateM ε σ α) := ⟨fun s => Std.Refl.refl s⟩

end

theorem seq [Trans R R R] {x : EStateM ε σ α} {f : α → EStateM ε σ β} (hx : Keeps R x)
    (hf : ∀ a, Keeps R (f a)) : Keeps R (x >>= f) where
  keeps s := by
    have h := hx.keeps s
    unfold after at h ⊢
    simp only [bind, EStateM.bind]
    cases hs : x s with
    | ok a t =>
      rw [hs] at h
      exact Trans.trans h ((hf a).keeps t)
    | error e t =>
      rw [hs] at h
      exact h

instance [Trans R R R] (x : EStateM ε σ α) (f : α → EStateM ε σ β) [Keeps R x]
    [∀ a, Keeps R (f a)] : Keeps R (x >>= f) :=
  seq inferInstance inferInstance

theorem tryCatch [Trans R R R] {x : EStateM ε σ α} {f : ε → EStateM ε σ α} (hx : Keeps R x)
    (hf : ∀ e, Keeps R (f e)) : Keeps R (tryCatch x f) where
  keeps s := by
    have h := hx.keeps s
    unfold after at h ⊢
    simp only [MonadExcept.tryCatch, tryCatchThe, MonadExceptOf.tryCatch, EStateM.tryCatch]
    cases hs : x s with
    | ok a t =>
      rw [hs] at h
      exact h
    | error e t =>
      rw [hs] at h
      exact Trans.trans h ((hf e).keeps t)

theorem tryFinally [Trans R R R] {x : EStateM ε σ α} {y : EStateM ε σ β} (hx : Keeps R x)
    (hy : Keeps R y) : Keeps R (tryFinally x y) where
  keeps s := by
    have h := hx.keeps s
    have k := hy.keeps (after x s)
    unfold after at h k ⊢
    rw [tryFinally_eq]
    cases hs : x s with
    | ok a t =>
      simp only [hs] at h k
      cases ht : y t <;> simp only [ht] at k ⊢ <;> exact Trans.trans h k
    | error e t =>
      simp only [hs] at h k
      cases ht : y t <;> simp only [ht] at k ⊢ <;> exact Trans.trans h k

instance (c : Prop) [Decidable c] (x y : EStateM ε σ α) [Keeps R x] [Keeps R y] :
    Keeps R (if c then x else y) := by
  split <;> assumption

end Keeps

instance refl_eq : Std.Refl (Eq : σ → σ → Prop) := ⟨fun _ => rfl⟩

/-- An invariant, as a relation between states. -/
def Invariant (I : σ → Prop) (s t : σ) : Prop := I s → I t

instance (I : σ → Prop) : Std.Refl (Invariant I) := ⟨fun _ h => h⟩

instance (I : σ → Prop) : Trans (Invariant I) (Invariant I) (Invariant I) :=
  ⟨fun h k hs => k (h hs)⟩

/-- From a state with `P` the step gives a result with `Q` or fails with `E`. -/
def Yields (P : σ → Prop) (x : EStateM ε σ α) (Q : α → σ → Prop) (E : ε → σ → Prop) : Prop :=
  ∀ s, P s →
    match x s with
    | .ok a t => Q a t
    | .error e t => E e t

namespace Yields

variable {P : σ → Prop} {Q : α → σ → Prop} {E : ε → σ → Prop}

theorem pure {a : α} (h : ∀ s, P s → Q a s) : Yields P (pure a : EStateM ε σ α) Q E := h

theorem throw {e : ε} (h : ∀ s, P s → E e s) : Yields P (throw e : EStateM ε σ α) Q E := h

theorem get_bind {f : σ → EStateM ε σ α} (h : ∀ s, P s → Yields (· = s) (f s) Q E) :
    Yields P (get >>= f) Q E :=
  fun s hs => h s hs s rfl

theorem start {x : EStateM ε σ α} {s : σ} (hs : P s) (hx : Yields P x Q E) :
    Yields (· = s) x Q E := by
  rintro _ rfl
  exact hx _ hs

theorem modify {f : σ → σ} {Q : PUnit → σ → Prop} (h : ∀ s, P s → Q ⟨⟩ (f s)) :
    Yields P (modify f : EStateM ε σ PUnit) Q E := h

theorem bind {x : EStateM ε σ α} {f : α → EStateM ε σ β} {R : β → σ → Prop} (hx : Yields P x Q E)
    (hf : ∀ a, Yields (Q a) (f a) R E) : Yields P (x >>= f) R E := by
  intro s hs
  have h := hx s hs
  simp only [Bind.bind, EStateM.bind]
  cases hxs : x s with
  | ok a t =>
    rw [hxs] at h
    exact hf a t h
  | error e t =>
    rw [hxs] at h
    exact h

/-- What follows a part that only reads the state. -/
theorem read {x : EStateM ε σ α} {f : α → EStateM ε σ β} {R : β → σ → Prop} {s : σ} {a : α}
    (hx : x s = .ok a s) (hf : Yields (· = s) (f a) R E) : Yields (· = s) (x >>= f) R E := by
  rintro _ rfl
  simp only [Bind.bind, EStateM.bind, hx]
  exact hf _ rfl

/-- As `read`, for a part that may fail. -/
theorem reads {x : EStateM ε σ α} {f : α → EStateM ε σ β} {R : β → σ → Prop} {s : σ}
    (hx : Keeps Eq x) (hf : ∀ a, x s = .ok a s → Yields (· = s) (f a) R E) (he : ∀ e, E e s) :
    Yields (· = s) (x >>= f) R E := by
  rintro _ rfl
  simp only [Bind.bind, EStateM.bind]
  cases hs : x _ with
  | ok a t =>
    have ht := hx.of_ok hs
    subst t
    exact hf a hs _ rfl
  | error e t =>
    have ht := hx.of_error hs
    subst t
    exact he e

/-- A step that does not fail. -/
theorem succeeds {x : EStateM ε σ α} {s : σ} (hx : Yields P x Q fun _ _ => False) (hs : P s) :
    ∃ a t, x s = .ok a t ∧ Q a t := by
  have h := hx s hs
  cases hxs : x s with
  | ok a t =>
    rw [hxs] at h
    exact ⟨a, t, rfl, h⟩
  | error e t =>
    rw [hxs] at h
    exact h.elim

/-- What every result of the step has. -/
theorem with_fact {x : EStateM ε σ α} {φ : α → Prop} (hx : Yields P x Q E)
    (hφ : ∀ s a t, x s = .ok a t → φ a) : Yields P x (fun a s => Q a s ∧ φ a) E := by
  intro s hs
  have h := hx s hs
  cases hxs : x s with
  | ok a t =>
    rw [hxs] at h
    exact ⟨h, hφ s a t hxs⟩
  | error e t =>
    rw [hxs] at h
    exact h

theorem mono {P' : σ → Prop} {Q' : α → σ → Prop} {E' : ε → σ → Prop} {x : EStateM ε σ α}
    (hx : Yields P x Q E) (hp : ∀ s, P' s → P s) (hq : ∀ a s, Q a s → Q' a s)
    (he : ∀ e s, E e s → E' e s) : Yields P' x Q' E' := by
  intro s hs
  have h := hx s (hp s hs)
  cases hxs : x s with
  | ok a t =>
    rw [hxs] at h
    exact hq a t h
  | error e t =>
    rw [hxs] at h
    exact he e t h

theorem of_keeps {x : EStateM ε σ α} (hx : Keeps (Invariant P) x) :
    Yields P x (fun _ => P) (fun _ => P) := by
  intro s hs
  have h := hx.keeps s hs
  unfold after at h
  cases hxs : x s <;> rw [hxs] at h <;> exact h

theorem after {I : σ → Prop} {x : EStateM ε σ α} {s : σ}
    (hx : Yields P x (fun _ => I) (fun _ => I)) (hs : P s) : I (after x s) := by
  have h := hx s hs
  unfold Stateful.after
  cases hxs : x s <;> rw [hxs] at h <;> exact h

theorem keeps {x : EStateM ε σ α} (hx : Yields P x (fun _ => P) (fun _ => P)) :
    Keeps (Invariant P) x :=
  ⟨fun _ => hx.after⟩

end Yields
end RatScript.Stateful
