import SpallocServer.Foundation.Program

namespace SpallocServer.Foundation.Prog

variable {ε σ τ α β : Type} {R : σ → τ → Prop} {s : σ} {t : τ} {m : Prog ε σ α} {n : Prog ε τ α}

theorem wp_run (m : Prog ε σ α) (s : σ) :
    wp m (fun a s' => m.run s = (.ok a, s')) (fun e s' => m.run s = (.error e, s')) s := by
  rcases hm : m.run s with ⟨e | a, s'⟩
  · exact wp_intro_error hm rfl
  · exact wp_intro_ok hm rfl

theorem run_eq_of_wp {x : Except ε α × σ}
    (h : wp m (fun a s' => x = (.ok a, s')) (fun e s' => x = (.error e, s')) s) :
    m.run s = x := by
  rcases hm : m.run s with ⟨e | a, s'⟩
  · exact (wp_of_eq_error h hm).symm
  · exact (wp_of_eq_ok h hm).symm

theorem run_ensuring_ok {last : Prog ε σ Unit} {s' : σ}
    (hl : last.run (m.run s).2 = (.ok (), s')) : (ensuring m last).run s = ((m.run s).1, s') := by
  apply run_eq_of_wp
  rw [wp_ensuring]
  rcases hm : m.run s with ⟨e | a, t⟩ <;> rw [hm] at hl
  · exact wp_intro_error hm (wp_intro_ok hl rfl)
  · exact wp_intro_ok hm (wp_intro_ok hl rfl)

theorem run_ensuring_error {last : Prog ε σ Unit} {s' : σ} {e : ε}
    (hl : last.run (m.run s).2 = (.error e, s')) : (ensuring m last).run s = (.error e, s') := by
  apply run_eq_of_wp
  rw [wp_ensuring]
  rcases hm : m.run s with ⟨e' | a, t⟩ <;> rw [hm] at hl
  · exact wp_intro_error hm (wp_intro_error hl rfl)
  · exact wp_intro_ok hm (wp_intro_error hl rfl)

def Mirrors (R : σ → τ → Prop) (m : Prog ε σ α) (n : Prog ε τ α) (s : σ) (t : τ) : Prop :=
  (m.run s).1 = (n.run t).1 ∧ R (m.run s).2 (n.run t).2

theorem mirrors_pure (a : α) (h : R s t) :
    Mirrors R (pure a : Prog ε σ α) (pure a : Prog ε τ α) s t := ⟨rfl, h⟩

theorem mirrors_raise (e : ε) (h : R s t) :
    Mirrors R (raise e : Prog ε σ α) (raise e : Prog ε τ α) s t := ⟨rfl, h⟩

theorem mirrors_update {f : σ → σ} {g : τ → τ} (h : R (f s) (g t)) :
    Mirrors R (update f : Prog ε σ Unit) (update g : Prog ε τ Unit) s t := ⟨rfl, h⟩

namespace Mirrors

theorem bind {f : α → Prog ε σ β} {g : α → Prog ε τ β} (h : Mirrors R m n s t)
    (hf : ∀ a s t, R s t → Mirrors R (f a) (g a) s t) :
    Mirrors R (m >>= f) (n >>= g) s t := by
  obtain ⟨hsame, hr⟩ := h
  unfold Mirrors
  rw [run_bind, run_bind]
  rcases hm : m.run s with ⟨r | a, s'⟩ <;> rcases hn : n.run t with ⟨r' | a', t'⟩ <;>
    rw [hm, hn] at hsame hr <;> cases hsame
  · exact ⟨rfl, hr⟩
  · exact hf a s' t' hr

theorem state {f : σ → Prog ε σ β} {g : τ → Prog ε τ β} (h : Mirrors R (f s) (g t) s t) :
    Mirrors R (Prog.state >>= f) (Prog.state >>= g) s t := h

theorem zoom {σ' τ' : Type} {R' : σ' → τ' → Prop} {view : σ' → σ} {put : σ → σ' → σ'}
    {view' : τ' → τ} {put' : τ → τ' → τ'} {s' : σ'} {t' : τ'}
    (h : Mirrors R m n (view s') (view' t'))
    (hput : ∀ s t, R s t → R' (put s s') (put' t t')) :
    Mirrors R' (Prog.zoom view put m) (Prog.zoom view' put' n) s' t' :=
  ⟨h.1, hput _ _ h.2⟩

theorem ensuring {last : Prog ε σ Unit} {last' : Prog ε τ Unit} (h : Mirrors R m n s t)
    (hlast : ∀ s t, R s t → Mirrors R last last' s t) :
    Mirrors R (Prog.ensuring m last) (Prog.ensuring n last') s t := by
  obtain ⟨hsame, hr⟩ := hlast _ _ h.2
  unfold Mirrors
  rcases hm : last.run (m.run s).2 with ⟨e | a, s'⟩ <;>
    rcases hn : last'.run (n.run t).2 with ⟨e' | a', t'⟩ <;>
    rw [hm, hn] at hsame hr <;> cases hsame
  · rw [run_ensuring_error hm, run_ensuring_error hn]
    exact ⟨rfl, hr⟩
  · rw [run_ensuring_ok hm, run_ensuring_ok hn]
    exact ⟨h.1, hr⟩

end Mirrors

def Brings (R : σ → σ → Prop) (m : Prog ε σ α) : Prop := ∀ s, R s (m.run s).2

section Brings

variable {S : σ → σ → Prop}

theorem Brings.wp (h : Brings S m) (s : σ) : wp m (fun _ => S s) (fun _ => S s) s := by
  have hs := h s
  rcases hm : m.run s with ⟨e | a, t⟩ <;> rw [hm] at hs
  · exact wp_intro_error hm hs
  · exact wp_intro_ok hm hs

theorem brings_same (hrefl : ∀ s, S s s) (h : ∀ s, (m.run s).2 = s) : Brings S m :=
  fun s => (h s).symm ▸ hrefl s

theorem Brings.bind (htrans : ∀ s t u, S s t → S t u → S s u) {f : α → Prog ε σ β}
    (h : Brings S m) (hf : ∀ a, Brings S (f a)) : Brings S (m >>= f) := by
  intro s
  have hs := h s
  rw [run_bind]
  rcases hm : m.run s with ⟨e | a, t⟩ <;> rw [hm] at hs
  · exact hs
  · exact htrans s t _ hs (hf a t)

theorem Brings.ensuring (htrans : ∀ s t u, S s t → S t u → S s u) {last : Prog ε σ Unit}
    (h : Brings S m) (hlast : Brings S last) : Brings S (Prog.ensuring m last) := by
  intro s
  have hend := htrans s _ _ (h s) (hlast (m.run s).2)
  rcases hl : last.run (m.run s).2 with ⟨e | a, t⟩ <;> rw [hl] at hend
  · rw [run_ensuring_error hl]
    exact hend
  · rw [run_ensuring_ok hl]
    exact hend

end Brings

end SpallocServer.Foundation.Prog
