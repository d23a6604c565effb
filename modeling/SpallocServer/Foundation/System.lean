import Mathlib.Logic.Relation
import Mathlib.Order.WellFounded

namespace SpallocServer.Foundation

universe u v

/-- A state machine with labelled steps. -/
structure System (σ : Type u) (ι : Type v) where
  init : σ → Prop
  step : σ → ι → σ → Prop

namespace System

variable {σ τ : Type u} {ι κ : Type v}

inductive Reachable (M : System σ ι) : σ → Prop where
  | start {s} : M.init s → Reachable M s
  | next {s i t} : Reachable M s → M.step s i t → Reachable M t

theorem Reachable.invariant {M : System σ ι} {I : σ → Prop} (h0 : ∀ s, M.init s → I s)
    (h1 : ∀ s i t, M.Reachable s → I s → M.step s i t → I t) {s : σ} (h : M.Reachable s) :
    I s := by
  induction h with
  | start hs => exact h0 _ hs
  | next hr hs ih => exact h1 _ _ _ hr ih hs

/-- The steps of a run, the first step first. -/
inductive Run (M : System σ ι) : σ → List ι → σ → Prop where
  | nil {s} : Run M s [] s
  | cons {s i t run u} : M.step s i t → Run M t run u → Run M s (i :: run) u

theorem Reachable.run {M : System σ ι} {s t : σ} {run : List ι} (h : M.Reachable s)
    (hrun : M.Run s run t) : M.Reachable t := by
  induction hrun with
  | nil => exact h
  | cons hs _ ih => exact ih (.next h hs)

/-- Finitely many steps lead from one state to another. -/
def Path (M : System σ ι) : σ → σ → Prop := Relation.ReflTransGen fun s t => ∃ i, M.step s i t

theorem Path.step {M : System σ ι} {s t u : σ} {i : ι} (h : M.Path s t) (hs : M.step t i u) :
    M.Path s u := h.tail ⟨i, hs⟩

theorem Reachable.path {M : System σ ι} {s t : σ} (h : M.Reachable s) (hp : M.Path s t) :
    M.Reachable t := by
  induction hp with
  | refl => exact h
  | tail _ hs ih =>
    obtain ⟨i, hs⟩ := hs
    exact .next ih hs

theorem Path.relates {M : System σ ι} {R : σ → σ → Prop} (hrefl : ∀ s, R s s)
    (htrans : ∀ s t u, R s t → R t u → R s u) (hstep : ∀ s i t, M.step s i t → R s t) {s t : σ}
    (h : M.Path s t) : R s t := by
  induction h with
  | refl => exact hrefl s
  | tail _ hs ih =>
    obtain ⟨i, hs⟩ := hs
    exact htrans _ _ _ ih (hstep _ i _ hs)

theorem acc_of_rank {β : Type*} [Preorder β] [WellFoundedLT β] {step : σ → σ → Prop} {I : σ → Prop}
    (rank : σ → β) (hstep : ∀ s t, I s → step s t → I t ∧ rank t < rank s) {s : σ} (hs : I s) :
    Acc (fun t s => step s t) s := by
  induction h : rank s using WellFoundedLT.induction generalizing s with
  | ind r ih =>
    constructor
    intro t ht
    obtain ⟨hI, hlt⟩ := hstep s t hs ht
    exact ih (rank t) (h ▸ hlt) hI rfl

/-- Only the steps that meet a condition on the state before them. -/
def restrict (M : System σ ι) (ok : σ → ι → Prop) : System σ ι where
  init := M.init
  step s i t := ok s i ∧ M.step s i t

theorem Reachable.of_restrict {M : System σ ι} {ok : σ → ι → Prop} {s : σ}
    (h : (M.restrict ok).Reachable s) : M.Reachable s := by
  induction h with
  | start hs => exact .start hs
  | next _ hs ih => exact .next ih hs.2

theorem Reachable.mono {M : System σ ι} {ok ok' : σ → ι → Prop} {s : σ}
    (h : (M.restrict ok).Reachable s) (hok : ∀ s i, ok s i → ok' s i) :
    (M.restrict ok').Reachable s := by
  induction h with
  | start hs => exact .start hs
  | next _ hs ih => exact .next ih ⟨hok _ _ hs.1, hs.2⟩

theorem Reachable.simulation {M : System σ ι} {N : System τ κ} {R : σ → τ → Prop}
    (h0 : ∀ s, M.init s → ∃ t, N.init t ∧ R s t)
    (h1 : ∀ s i s' t, M.Reachable s → N.Reachable t → R s t → M.step s i s' →
      ∃ t', Relation.ReflTransGen (fun u v => ∃ k, N.step u k v) t t' ∧ R s' t')
    {s : σ} (h : M.Reachable s) : ∃ t, N.Reachable t ∧ R s t := by
  induction h with
  | start hs =>
    obtain ⟨t, ht, hr⟩ := h0 _ hs
    exact ⟨t, .start ht, hr⟩
  | next hm hs ih =>
    obtain ⟨t, ht, hr⟩ := ih
    obtain ⟨t', hp, hr'⟩ := h1 _ _ _ _ hm ht hr hs
    exact ⟨t', ht.path hp, hr'⟩

/-- Every step of the run of a function meets a condition on the state before it. -/
def Along (next : σ → ι → σ) (ok : σ → ι → Prop) : σ → List ι → Prop
  | _, [] => True
  | s, i :: run => ok s i ∧ Along next ok (next s i) run

theorem Along.mono {next : σ → ι → σ} {ok ok' : σ → ι → Prop} (hok : ∀ s i, ok s i → ok' s i) {s : σ}
    {run : List ι} (h : Along next ok s run) : Along next ok' s run := by
  induction run generalizing s with
  | nil => trivial
  | cons i run ih => exact ⟨hok s i h.1, ih h.2⟩

theorem Reachable.along {M : System σ ι} {next : σ → ι → σ} {ok : σ → ι → Prop}
    (hnext : ∀ s i, M.step s i (next s i)) {s : σ} (h : (M.restrict ok).Reachable s) {run : List ι}
    (hok : Along next ok s run) : (M.restrict ok).Reachable (run.foldl next s) := by
  induction run generalizing s with
  | nil => exact h
  | cons i run ih => exact ih (.next h ⟨hok.1, hnext s i⟩) hok.2

theorem along_congr {next : σ → ι → σ} {ok ok' : σ → ι → Prop} {I : σ → Prop}
    (hstep : ∀ s i, I s → I (next s i)) (h : ∀ s i, I s → (ok s i ↔ ok' s i)) {s : σ} (hs : I s)
    (run : List ι) : Along next ok s run ↔ Along next ok' s run := by
  induction run generalizing s with
  | nil => exact Iff.rfl
  | cons i run ih => exact and_congr (h s i hs) (ih (hstep s i hs))

end System

end SpallocServer.Foundation
