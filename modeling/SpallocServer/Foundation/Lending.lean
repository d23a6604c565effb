import Mathlib
import SpallocServer.Foundation.System

namespace SpallocServer.Foundation

universe u v

variable {R : Type u} {J : Type v}

/-- How a client stands with a desk that lends things. -/
inductive Tenure (R : Type u) where
  | absent
  | waiting
  | holding (lot : Set R)
  | returning (lot : Set R)
  | done

namespace Tenure

def lot : Tenure R → Set R
  | holding lot => lot
  | returning lot => lot
  | _ => ∅

def rank : Tenure R → ℕ
  | absent => 0
  | waiting => 1
  | holding _ => 2
  | returning _ => 3
  | done => 4

structure Becomes (c d : Tenure R) : Prop where
  rank : c.rank ≤ d.rank
  lot : 2 ≤ c.rank → d.rank ≤ 3 → d.lot = c.lot

theorem Becomes.refl (c : Tenure R) : c.Becomes c := ⟨le_rfl, fun _ _ => rfl⟩

theorem Becomes.trans {c d e : Tenure R} (h : c.Becomes d) (h' : d.Becomes e) : c.Becomes e := by
  refine ⟨h.rank.trans h'.rank, fun hc he => ?_⟩
  rw [h'.lot (hc.trans h.rank) he, h.lot hc (h'.rank.trans he)]

theorem rank_of_mem_lot {c : Tenure R} {r : R} (h : r ∈ c.lot) : 2 ≤ c.rank := by
  cases c with
  | holding lot => exact le_rfl
  | returning lot => exact Nat.le_succ 2
  | absent => exact h.elim
  | waiting => exact h.elim
  | done => exact h.elim

theorem eq_done {c : Tenure R} (h : 3 < c.rank) : c = done := by
  cases c with
  | done => rfl
  | absent => simp [rank] at h
  | waiting => simp [rank] at h
  | holding lot => simp [rank] at h
  | returning lot => simp [rank] at h

end Tenure

/-- What happens at the desk. A client that does not need its lot any more gives it back later. -/
inductive Act (R : Type u) (J : Type v) where
  | submit (j : J)
  | withdraw (j : J)
  | grant (j : J) (lot : Set R)
  | retire (j : J)
  | release (j : J)

namespace Act

def client : Act R J → J
  | submit j => j
  | withdraw j => j
  | grant j _ => j
  | retire j => j
  | release j => j

def turns : Act R J → Tenure R → Tenure R → Prop
  | submit _, c, d => c = .absent ∧ d = .waiting
  | withdraw _, c, d => c = .waiting ∧ d = .done
  | grant _ lot, c, d => c = .waiting ∧ lot.Nonempty ∧ d = .holding lot
  | retire _, c, d => ∃ lot, c = .holding lot ∧ d = .returning lot
  | release _, c, d => ∃ lot, c = .returning lot ∧ d = .done

theorem turns_becomes {a : Act R J} {c d : Tenure R} (h : a.turns c d) : c.Becomes d := by
  cases a with
  | submit j =>
    obtain ⟨rfl, rfl⟩ := h
    exact ⟨by simp [Tenure.rank], by simp [Tenure.rank]⟩
  | withdraw j =>
    obtain ⟨rfl, rfl⟩ := h
    exact ⟨by simp [Tenure.rank], by simp [Tenure.rank]⟩
  | grant j lot =>
    obtain ⟨rfl, -, rfl⟩ := h
    exact ⟨by simp [Tenure.rank], by simp [Tenure.rank]⟩
  | retire j =>
    obtain ⟨lot, rfl, rfl⟩ := h
    exact ⟨by simp [Tenure.rank], fun _ _ => rfl⟩
  | release j =>
    obtain ⟨lot, rfl, rfl⟩ := h
    exact ⟨by simp [Tenure.rank], by simp [Tenure.rank]⟩

theorem turns_lot {a : Act R J} {c d : Tenure R} (h : a.turns c d) :
    d.lot ⊆ c.lot ∨ ∃ j, a = grant j d.lot := by
  cases a with
  | submit j =>
    obtain ⟨rfl, rfl⟩ := h
    exact .inl subset_rfl
  | withdraw j =>
    obtain ⟨rfl, rfl⟩ := h
    exact .inl subset_rfl
  | grant j lot =>
    obtain ⟨rfl, -, rfl⟩ := h
    exact .inr ⟨j, rfl⟩
  | retire j =>
    obtain ⟨lot, rfl, rfl⟩ := h
    exact .inl subset_rfl
  | release j =>
    obtain ⟨lot, rfl, rfl⟩ := h
    exact .inl (Set.empty_subset _)

end Act

variable [DecidableEq J]

/-- A desk that lends nothing that it has already lent. Clients that were there before have nothing
any more. -/
def desk (R : Type u) (J : Type v) [DecidableEq J] : System (J → Tenure R) (Act R J) where
  init s := ∀ j, s j = .absent ∨ s j = .done
  step s a t := ∃ d, a.turns (s a.client) d ∧ t = Function.update s a.client d ∧
    ∀ j lot, a = .grant j lot → ∀ k, Disjoint (s k).lot lot

namespace desk

variable {s t : J → Tenure R} {a : Act R J} {j k : J} {r : R}

theorem step_becomes (h : (desk R J).step s a t) (j : J) : (s j).Becomes (t j) := by
  obtain ⟨d, hd, rfl, -⟩ := h
  by_cases hj : j = a.client
  · rw [hj, Function.update_self]
    exact Act.turns_becomes hd
  · rw [Function.update_of_ne hj]
    exact .refl _

theorem becomes (h : (desk R J).Path s t) (j : J) : (s j).Becomes (t j) :=
  h.relates (R := fun s t => (s j).Becomes (t j)) (fun _ => .refl _) (fun _ _ _ => .trans)
    fun _ _ _ hs => step_becomes hs j

def Exclusive (s : J → Tenure R) : Prop := ∀ j k, j ≠ k → Disjoint (s j).lot (s k).lot

theorem step_exclusive (h : (desk R J).step s a t) (hs : Exclusive s) : Exclusive t := by
  obtain ⟨d, hd, rfl, hfree⟩ := h
  have hnew (k : J) (hk : k ≠ a.client) : Disjoint d.lot (s k).lot := by
    obtain hsub | ⟨i, ha⟩ := Act.turns_lot hd
    · exact (hs _ _ hk.symm).mono_left hsub
    · exact (hfree i _ ha k).symm
  intro i k hik
  by_cases hi : i = a.client
  · have hk : k ≠ a.client := fun hk => hik (hi.trans hk.symm)
    rw [hi, Function.update_self, Function.update_of_ne hk]
    exact hnew k hk
  · rw [Function.update_of_ne hi]
    by_cases hk : k = a.client
    · rw [hk, Function.update_self]
      exact (hnew i hi).symm
    · rw [Function.update_of_ne hk]
      exact hs i k hik

theorem exclusive (h : (desk R J).Reachable s) : Exclusive s := by
  apply h.invariant
  · intro s hs j k _
    obtain hj | hj := hs j
    · rw [hj]
      exact Set.empty_disjoint _
    · rw [hj]
      exact Set.empty_disjoint _
  · exact fun _ _ _ _ hs hstep => step_exclusive hstep hs

theorem handed_over (h : (desk R J).Reachable s) (hp : (desk R J).Path s t) (hj : r ∈ (s j).lot)
    (hk : r ∈ (t k).lot) (hjk : j ≠ k) : t j = .done := by
  apply Tenure.eq_done
  by_contra hrank
  have hb := becomes hp j
  have hsame := hb.lot (Tenure.rank_of_mem_lot hj) (Nat.not_lt.mp hrank)
  have hd := exclusive (h.path hp) j k hjk
  exact Set.disjoint_left.mp hd (hsame ▸ hj) hk

theorem retained (hp : (desk R J).Path s t) (hj : r ∈ (s j).lot) (hdone : t j ≠ .done) :
    (t j).lot = (s j).lot := by
  refine (becomes hp j).lot (Tenure.rank_of_mem_lot hj) ?_
  by_contra hrank
  exact hdone (Tenure.eq_done (Nat.not_le.mp hrank))

end desk

end SpallocServer.Foundation
