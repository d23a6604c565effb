import SpallocServer.Foundation.Relational
import SpallocServer.Controller.Methods

namespace SpallocServer.Controller

open Foundation Prog JobQueue

variable {α : Type} {p : ℕ → List AtomicRequests} {c c' : Controller} {q : JobQueue}

def carrying (p : ℕ → List AtomicRequests) (c : Controller) : Controller :=
  { c with bmp := fun b => { c.bmp b with requests := p b ++ (c.bmp b).requests } }

theorem carrying_of_bmp (hbmp : c'.bmp = (c.carrying p).bmp)
    (hrest : { c' with bmp := c.bmp } = c) : c' = c.carrying p := by
  have heta : c' = { { c' with bmp := c.bmp } with bmp := c'.bmp } := rfl
  rw [heta, hbmp, hrest]
  rfl

structure Carries (p : ℕ → List AtomicRequests) (c c' : Controller) : Prop where
  eq : c' = c.carrying p
  idle : ∀ b, c.nextBmp ≤ b → p b = []

def Steady (p : ℕ → List AtomicRequests) (α : Type) (m : Prog Error Controller α) : Prop :=
  ∀ c c', Carries p c c' → Mirrors (Carries p) m m c c'

theorem Steady.update {f : Controller → Controller}
    (hf : ∀ c c', Carries p c c' → Carries p (f c) (f c')) : Steady p Unit (Prog.update f) :=
  fun c c' hc => mirrors_update (hf c c' hc)

theorem Carries.wired (hc : Carries p c c') (name : String) (frame : ℤ × ℤ) (hostname : String) :
    Carries p (c.wired name frame hostname) (c'.wired name frame hostname) := by
  obtain ⟨rfl, hidle⟩ := hc
  refine ⟨carrying_of_bmp (funext fun b => ?_) rfl, fun b hb => hidle b (Nat.le_of_succ_le hb)⟩
  by_cases hb : b = c.nextBmp
  · subst hb
    simp [Controller.wired, setBmp, carrying, AsyncBmpController.new, hidle c.nextBmp le_rfl]
  · simp [Controller.wired, setBmp, carrying, hb]

theorem Carries.created (hc : Carries p c c') (machine : Configuration.Machine) :
    Carries p (c.wiredUp machine) (c'.wiredUp machine) := by
  have hwired (l : List ((ℤ × ℤ) × String)) (c c' : Controller) (hc : Carries p c c') :
      Carries p (l.foldl (fun c p => c.wired machine.name p.1 p.2) c)
        (l.foldl (fun c p => c.wired machine.name p.1 p.2) c') := by
    induction l generalizing c c' with
    | nil => exact hc
    | cons frame l ih => exact ih _ _ (hc.wired _ _ _)
  apply hwired
  obtain ⟨rfl, hidle⟩ := hc
  exact ⟨rfl, hidle⟩

theorem steady_handles (p : ℕ → List AtomicRequests) : Handles (Steady p) where
  pure a _ _ hc := mirrors_pure a hc
  raise e _ _ hc := mirrors_raise e hc
  bind h hf c c' hc := (h c c' hc).bind fun a c c' hc => hf a c c' hc
  look {_ f} hf h := by
    intro c c' hc
    have hsame : f (c.carrying p) = f c := hf c _
    obtain rfl := hc.eq
    change Mirrors (Carries p) (f c) (f (c.carrying p)) c (c.carrying p)
    rw [hsame]
    exact h c c _ hc
  change hf hbmp hnext := by
    apply Steady.update
    intro c c' hc
    obtain ⟨rfl, hidle⟩ := hc
    refine ⟨?_, fun b hb => hidle b (hnext c ▸ hb)⟩
    unfold carrying
    rw [hf, hbmp]
  addRequests b r := by
    intro c c' hc
    obtain rfl := hc.eq
    apply Mirrors.state
    change Mirrors _ (if (c.bmp b).stopped then _ else _) (if (c.bmp b).stopped then _ else _) _ _
    split
    · exact mirrors_raise _ hc
    · refine mirrors_update ⟨carrying_of_bmp (funext fun b' => ?_) rfl, hc.idle⟩
      by_cases hb : b' = b
      · subst hb
        simp [setBmp, carrying, AsyncBmpController.accepted]
      · simp [setBmp, carrying, hb]
  stopped bmps := by
    apply Steady.update
    intro c c' hc
    obtain ⟨rfl, hidle⟩ := hc
    refine ⟨carrying_of_bmp (funext fun b => ?_) rfl, hidle⟩
    by_cases hb : b ∈ bmps <;> simp [Controller.stopped, carrying, AsyncBmpController.stop, hb]

theorem steady_create (p : ℕ → List AtomicRequests) : Creates (Steady p) := fun machine =>
  Steady.update fun _ _ hc => hc.created machine

def Beside (p : ℕ → List AtomicRequests) (t t' : JobQueue × Controller) : Prop :=
  t.1 = t'.1 ∧ Carries p t.2 t'.2

def Firm (p : ℕ → List AtomicRequests) (α : Type) (m : Call α) : Prop :=
  ∀ t t', Beside p t t' → Mirrors (Beside p) m m t t'

theorem firm_composes (p : ℕ → List AtomicRequests) : Composes (Firm p) where
  pure a _ _ ht := mirrors_pure a ht
  raise e _ _ ht := mirrors_raise e ht
  bind h hf t t' ht := (h t t' ht).bind fun a t t' ht => hf a t t' ht
  ensuring h hlast t t' ht := (h t t' ht).ensuring fun t t' ht => hlast t t' ht
  queue := by
    intro t t' ht
    obtain ⟨q, c⟩ := t
    obtain ⟨q', c'⟩ := t'
    obtain ⟨rfl, hc⟩ := ht
    exact ⟨rfl, rfl, hc⟩
  change f _ _ ht := ⟨rfl, congrArg f ht.1, ht.2⟩
  onAllocator m call := by
    intro t t' ht
    obtain ⟨q, c⟩ := t
    obtain ⟨q', c'⟩ := t'
    obtain ⟨rfl, hc⟩ := ht
    exact ⟨rfl, rfl, hc⟩

theorem firm_conducts (p : ℕ → List AtomicRequests) : Conducts (Steady p) (Firm p) where
  handles := steady_handles p
  composes := firm_composes p
  own h _ _ ht := (h _ _ ht.2).zoom fun _ _ hc => ⟨ht.1, hc⟩
  look {_ f} hf h := by
    intro t t' ht
    have hsame : f (t.2.carrying p) = f t.2 := hf t.2 _
    change Mirrors (Beside p) (f t.2) (f t'.2) t t'
    rw [ht.2.eq, hsame]
    exact h t.2 t t' ht

end SpallocServer.Controller
