import Mathlib.Data.Finset.Max

namespace SpallocServer.Foundation

variable {α β : Type}

/-- The order in which the elements of a set are visited. -/
structure SetOrder (α : Type) where
  list : Finset α → List α
  nodup : ∀ s, (list s).Nodup
  mem : ∀ s a, a ∈ list s ↔ a ∈ s

namespace SetOrder

variable [LinearOrder β]

/-- The first `n` elements of a set, the least first. -/
def least : ℕ → Finset β → List β
  | 0, _ => []
  | n + 1, s => if h : s.Nonempty then s.min' h :: least n (s.erase (s.min' h)) else []

theorem mem_of_least {n : ℕ} {s : Finset β} {b : β} (h : b ∈ least n s) : b ∈ s := by
  induction n generalizing s with
  | zero => exact absurd h List.not_mem_nil
  | succ n ih =>
    unfold least at h
    split at h
    · next hs =>
      obtain rfl | h := List.mem_cons.mp h
      · exact s.min'_mem hs
      · exact Finset.mem_of_mem_erase (ih h)
    · exact absurd h List.not_mem_nil

theorem mem_least {n : ℕ} {s : Finset β} {b : β} (hn : s.card ≤ n) : b ∈ least n s ↔ b ∈ s := by
  refine ⟨mem_of_least, fun h => ?_⟩
  induction n generalizing s with
  | zero =>
    rw [Finset.card_eq_zero.mp (Nat.le_zero.mp hn)] at h
    exact absurd h (Finset.notMem_empty b)
  | succ n ih =>
    have hs : s.Nonempty := ⟨b, h⟩
    unfold least
    rw [dif_pos hs]
    by_cases hb : b = s.min' hs
    · exact List.mem_cons.mpr (.inl hb)
    · refine List.mem_cons_of_mem _ (ih ?_ (Finset.mem_erase.mpr ⟨hb, h⟩))
      rw [Finset.card_erase_of_mem (s.min'_mem hs)]
      omega

theorem nodup_least (n : ℕ) (s : Finset β) : (least n s).Nodup := by
  induction n generalizing s with
  | zero => exact List.nodup_nil
  | succ n ih =>
    unfold least
    split
    · next hs =>
      refine List.nodup_cons.mpr ⟨fun h => ?_, ih _⟩
      exact Finset.notMem_erase _ _ (mem_of_least h)
    · exact List.nodup_nil

def sorted [DecidableEq α] (f : α ≃ β) : SetOrder α where
  list s := (least s.card (s.image f)).map f.symm
  nodup s := (nodup_least _ _).map f.symm.injective
  mem s a := by
    have hcard : (s.image f).card ≤ s.card := Finset.card_image_le
    rw [List.mem_map]
    constructor
    · rintro ⟨b, hb, rfl⟩
      rw [mem_least hcard, Finset.mem_image] at hb
      obtain ⟨a, ha, rfl⟩ := hb
      rwa [f.symm_apply_apply]
    · intro ha
      refine ⟨f a, (mem_least hcard).mpr (Finset.mem_image_of_mem f ha), f.symm_apply_apply a⟩

end SetOrder

end SpallocServer.Foundation
