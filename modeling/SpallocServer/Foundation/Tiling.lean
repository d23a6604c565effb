import Mathlib.Data.Set.Basic
import Mathlib.Order.Disjoint
import Mathlib.Data.List.Pairwise

namespace SpallocServer.Foundation

variable {ρ γ : Type} {cells : ρ → Set γ}

def Apart (cells : ρ → Set γ) (p q : ρ) : Prop := ∀ c, c ∈ cells p → c ∉ cells q

/-- The pieces of a list cover a region and do not overlap. -/
structure Tiles (cells : ρ → Set γ) (l : List ρ) (r : ρ) : Prop where
  apart : l.Pairwise (Apart cells)
  cover : ∀ c, c ∈ cells r ↔ ∃ p ∈ l, c ∈ cells p

theorem Apart.symm {p q : ρ} (h : Apart cells p q) : Apart cells q p :=
  fun c hq hp => h c hp hq

instance : Std.Symm (Apart cells) := ⟨fun _ _ h => h.symm⟩

theorem Tiles.single (r : ρ) : Tiles cells [r] r :=
  ⟨List.pairwise_singleton _ _, fun c => by simp⟩

theorem Tiles.append {l l' : List ρ} {p q r : ρ} (h : Tiles cells l p) (h' : Tiles cells l' q)
    (hd : Apart cells p q) (hc : ∀ c, c ∈ cells r ↔ c ∈ cells p ∨ c ∈ cells q) :
    Tiles cells (l ++ l') r := by
  refine ⟨List.pairwise_append.mpr ⟨h.apart, h'.apart, ?_⟩, ?_⟩
  · intro a ha b hb c hca hcb
    exact hd c ((h.cover c).mpr ⟨a, ha, hca⟩) ((h'.cover c).mpr ⟨b, hb, hcb⟩)
  · intro c
    rw [hc, h.cover, h'.cover]
    simp only [List.mem_append, or_and_right, exists_or]

theorem Tiles.subset {l : List ρ} {p r : ρ} (h : Tiles cells l r) (hp : p ∈ l) {c : γ}
    (hc : c ∈ cells p) : c ∈ cells r :=
  (h.cover c).mpr ⟨p, hp, hc⟩

theorem Tiles.unique {l : List ρ} {p q r : ρ} (h : Tiles cells l r) (hp : p ∈ l) (hq : q ∈ l)
    {c : γ} (hcp : c ∈ cells p) (hcq : c ∈ cells q) : p = q := by
  by_contra hne
  exact h.apart.forall hp hq hne c hcp hcq

end SpallocServer.Foundation
