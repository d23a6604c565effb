import Mathlib.Data.List.Basic

namespace SpallocServer.Foundation

variable {ε σ τ α β : Type}

theorem bind_eq_ok {x : Except ε α} {f : α → Except ε β} {b : β} :
    x >>= f = .ok b ↔ ∃ a, x = .ok a ∧ f a = .ok b := by
  cases x with
  | error e => exact ⟨nofun, fun ⟨_, h, _⟩ => nomatch h⟩
  | ok a =>
    constructor
    · exact fun h => ⟨a, rfl, h⟩
    · rintro ⟨_, ⟨⟩, h⟩
      exact h

theorem bind_eq_error {x : Except ε α} {f : α → Except ε β} {e : ε} :
    x >>= f = .error e ↔ x = .error e ∨ ∃ a, x = .ok a ∧ f a = .error e := by
  cases x with
  | error e' =>
    constructor
    · intro h
      cases h
      exact .inl rfl
    · rintro (h | ⟨_, h, -⟩)
      · cases h
        rfl
      · cases h
  | ok a =>
    constructor
    · exact fun h => .inr ⟨a, rfl, h⟩
    · rintro (h | ⟨_, ⟨⟩, h⟩)
      · cases h
      · exact h

def Prog (ε σ α : Type) : Type := σ → Except ε α × σ

namespace Prog

def run (m : Prog ε σ α) (s : σ) : Except ε α × σ := m s

protected def pure (a : α) : Prog ε σ α := fun s => (.ok a, s)

protected def bind (m : Prog ε σ α) (f : α → Prog ε σ β) : Prog ε σ β := fun s =>
  match m.run s with
  | (.ok a, s') => (f a).run s'
  | (.error e, s') => (.error e, s')

instance : Monad (Prog ε σ) where
  pure := Prog.pure
  bind := Prog.bind

def raise (e : ε) : Prog ε σ α := fun s => (.error e, s)

def state : Prog ε σ σ := fun s => (.ok s, s)

def update (f : σ → σ) : Prog ε σ Unit := fun s => (.ok (), f s)

def ofExcept (x : Except ε α) : Prog ε σ α := fun s => (x, s)

def zoom (view : σ → τ) (put : τ → σ → σ) (m : Prog ε τ α) : Prog ε σ α := fun s =>
  let (r, t) := m.run (view s)
  (r, put t s)

def forEach : List α → (α → Prog ε σ Unit) → Prog ε σ Unit
  | [], _ => Prog.pure ()
  | a :: l, f => Prog.bind (f a) fun _ => forEach l f

/-- The exit of a `with` block runs in both cases, and what it raises wins. -/
def ensuring (m : Prog ε σ α) (last : Prog ε σ Unit) : Prog ε σ α := fun s =>
  let (r, s') := m.run s
  match last.run s' with
  | (.ok _, s'') => (r, s'')
  | (.error e, s'') => (.error e, s'')

def rescue (m : Prog ε σ α) (handle : ε → Prog ε σ α) : Prog ε σ α := fun s =>
  match m.run s with
  | (.ok a, s') => (.ok a, s')
  | (.error e, s') => (handle e).run s'

/-- What must hold before a call for `Q` to hold when it returns and `E` when it raises. -/
def wp (m : Prog ε σ α) (Q : α → σ → Prop) (E : ε → σ → Prop) (s : σ) : Prop :=
  match m.run s with
  | (.ok a, s') => Q a s'
  | (.error e, s') => E e s'

theorem run_bind (m : Prog ε σ α) (f : α → Prog ε σ β) (s : σ) :
    (m >>= f).run s = match m.run s with
      | (.ok a, s') => (f a).run s'
      | (.error e, s') => (.error e, s') := rfl

section Rules

variable {Q Q' : α → σ → Prop} {E E' : ε → σ → Prop} {s : σ}

@[simp] theorem wp_pure (a : α) : wp (pure a : Prog ε σ α) Q E s ↔ Q a s := Iff.rfl

@[simp] theorem wp_raise (e : ε) : wp (raise e : Prog ε σ α) Q E s ↔ E e s := Iff.rfl

@[simp] theorem wp_state {Q : σ → σ → Prop} :
    wp (state : Prog ε σ σ) Q E s ↔ Q s s := Iff.rfl

@[simp] theorem wp_update {Q : Unit → σ → Prop} (f : σ → σ) :
    wp (update f : Prog ε σ Unit) Q E s ↔ Q () (f s) := Iff.rfl

@[simp] theorem wp_bind {Q : β → σ → Prop} (m : Prog ε σ α) (f : α → Prog ε σ β) :
    wp (m >>= f) Q E s ↔ wp m (fun a => wp (f a) Q E) E s := by
  unfold wp
  rw [run_bind]
  rcases m.run s with ⟨r | r, s'⟩ <;> rfl

@[simp] theorem wp_map (f : α → β) (m : Prog ε σ α) {Q : β → σ → Prop} :
    wp (f <$> m) Q E s ↔ wp m (fun a => Q (f a)) E s := by
  change wp (m >>= fun a => pure (f a)) Q E s ↔ _
  rw [wp_bind]
  rfl

@[simp] theorem wp_ofExcept_ok (a : α) :
    wp (ofExcept (.ok a) : Prog ε σ α) Q E s ↔ Q a s := Iff.rfl

@[simp] theorem wp_ofExcept_error (e : ε) :
    wp (ofExcept (.error e) : Prog ε σ α) Q E s ↔ E e s := Iff.rfl

theorem wp_ofExcept {x : Except ε α} (hok : ∀ a, x = .ok a → Q a s)
    (herror : ∀ e, x = .error e → E e s) : wp (ofExcept x : Prog ε σ α) Q E s := by
  cases x with
  | error e => exact herror e rfl
  | ok a => exact hok a rfl

theorem wp_zoom {Q : α → σ → Prop} (view : σ → τ) (put : τ → σ → σ) (m : Prog ε τ α) :
    wp (zoom view put m) Q E s ↔
      wp m (fun a t => Q a (put t s)) (fun e t => E e (put t s)) (view s) := by
  have h : (zoom view put m).run s = ((m.run (view s)).1, put (m.run (view s)).2 s) := rfl
  unfold wp
  rw [h]
  rcases m.run (view s) with ⟨r | r, t⟩ <;> rfl

theorem wp_ensuring (m : Prog ε σ α) (last : Prog ε σ Unit) :
    wp (ensuring m last) Q E s ↔
      wp m (fun a => wp last (fun _ => Q a) E) (fun e => wp last (fun _ => E e) E) s := by
  have h : (ensuring m last).run s = match last.run (m.run s).2 with
    | (.ok _, s'') => ((m.run s).1, s'')
    | (.error e, s'') => (.error e, s'') := rfl
  unfold wp
  rw [h]
  rcases m.run s with ⟨r | r, s'⟩ <;> dsimp only <;>
    rcases last.run s' with ⟨r' | r', s''⟩ <;> rfl

theorem wp_rescue (m : Prog ε σ α) (handle : ε → Prog ε σ α) :
    wp (rescue m handle) Q E s ↔ wp m Q (fun e => wp (handle e) Q E) s := by
  have h : (rescue m handle).run s = match m.run s with
    | (.ok a, s') => (.ok a, s')
    | (.error e, s') => (handle e).run s' := rfl
  unfold wp
  rw [h]
  rcases m.run s with ⟨r | r, s'⟩ <;> rfl

theorem wp.mono {m : Prog ε σ α} (h : wp m Q E s)
    (hq : ∀ a s', Q a s' → Q' a s') (he : ∀ e s', E e s' → E' e s') : wp m Q' E' s := by
  unfold wp at h ⊢
  rcases hm : m.run s with ⟨r | r, s'⟩ <;> rw [hm] at h
  · exact he _ _ h
  · exact hq _ _ h

theorem wp_trivial (m : Prog ε σ α) : wp m (fun _ _ => True) (fun _ _ => True) s := by
  unfold wp
  rcases m.run s with ⟨r | r, s'⟩ <;> trivial

theorem wp.and {m : Prog ε σ α} (h : wp m Q E s) (h' : wp m Q' E' s) :
    wp m (fun a t => Q a t ∧ Q' a t) (fun e t => E e t ∧ E' e t) s := by
  unfold wp at h h' ⊢
  rcases hm : m.run s with ⟨r | r, s'⟩ <;> rw [hm] at h h' <;> exact ⟨h, h'⟩

theorem wp_forEach {I : List α → σ → Prop} {f : α → Prog ε σ Unit} {l : List α}
    (h : ∀ a rest t, a ∈ l → I (a :: rest) t → wp (f a) (fun _ => I rest) E t) (hs : I l s) :
    wp (forEach l f) (fun _ => I []) E s := by
  induction l generalizing s with
  | nil => exact hs
  | cons a l ih =>
    change wp (f a >>= fun _ => forEach l f) _ _ _
    rw [wp_bind]
    refine (h a l s (by simp) hs).mono (fun _ t ht => ?_) (fun _ _ he => he)
    exact ih (fun b rest t hb => h b rest t (by simp [hb])) ht

end Rules

/-- A call that never raises from `P`, with its result in `Q`. -/
def Returns (P : σ → Prop) (m : Prog ε σ α) (Q : α → σ → Prop) : Prop :=
  ∀ s, P s → wp m Q (fun _ _ => False) s

/-- A call that keeps `I`, whether it returns or raises. -/
def Preserves (I : σ → Prop) (m : Prog ε σ α) : Prop :=
  ∀ s, I s → wp m (fun _ => I) (fun _ => I) s

theorem wp_returns {m : Prog ε σ α} {Q : α → σ → Prop} {s : σ}
    (h : wp m Q (fun _ _ => False) s) : ∃ a s', m.run s = (.ok a, s') ∧ Q a s' := by
  unfold wp at h
  rcases hm : m.run s with ⟨r | r, s'⟩ <;> rw [hm] at h
  · exact h.elim
  · exact ⟨r, s', rfl, h⟩

theorem run_of_isOk {m : Prog ε σ Unit} {s : σ} (h : (m.run s).1.isOk) :
    ∃ s', m.run s = (.ok (), s') := by
  rcases hm : m.run s with ⟨r | r, s'⟩ <;> rw [hm] at h
  · cases h
  · exact ⟨s', rfl⟩

theorem wp_raises {m : Prog ε σ α} {E : ε → σ → Prop} {s : σ}
    (h : wp m (fun _ _ => False) E s) : ∃ e s', m.run s = (.error e, s') ∧ E e s' := by
  unfold wp at h
  rcases hm : m.run s with ⟨r | r, s'⟩ <;> rw [hm] at h
  · exact ⟨r, s', rfl, h⟩
  · exact h.elim

theorem wp_of_eq_ok {m : Prog ε σ α} {Q : α → σ → Prop} {E : ε → σ → Prop} {s s' : σ} {a : α}
    (h : wp m Q E s) (hm : m.run s = (.ok a, s')) : Q a s' := by
  unfold wp at h
  rwa [hm] at h

theorem wp_of_eq_error {m : Prog ε σ α} {Q : α → σ → Prop} {E : ε → σ → Prop} {s s' : σ} {e : ε}
    (h : wp m Q E s) (hm : m.run s = (.error e, s')) : E e s' := by
  unfold wp at h
  rwa [hm] at h

theorem wp_intro_ok {m : Prog ε σ α} {Q : α → σ → Prop} {E : ε → σ → Prop} {s s' : σ} {a : α}
    (hm : m.run s = (.ok a, s')) (h : Q a s') : wp m Q E s := by
  unfold wp
  rwa [hm]

theorem wp_intro_error {m : Prog ε σ α} {Q : α → σ → Prop} {E : ε → σ → Prop} {s s' : σ} {e : ε}
    (hm : m.run s = (.error e, s')) (h : E e s') : wp m Q E s := by
  unfold wp
  rwa [hm]

theorem wp_same {m : Prog ε σ α} {I : σ → Prop} {s : σ}
    (h : wp m (fun _ => I) (fun _ => I) s) : I (m.run s).2 := by
  unfold wp at h
  rcases hm : m.run s with ⟨r | r, s'⟩ <;> rw [hm] at h <;> exact h

end Prog

end SpallocServer.Foundation
