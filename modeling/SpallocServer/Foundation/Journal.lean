import Mathlib.Data.List.DropRight

namespace SpallocServer.Foundation

universe u

variable {α : Type u}

theorem length_rtake (l : List α) (n : ℕ) : (l.rtake n).length = min n l.length := by
  rw [List.rtake, List.length_drop]
  omega

theorem rtake_suffix_self (l : List α) (n : ℕ) : l.rtake n <:+ l := List.drop_suffix _ _

theorem rtake_of_length_le {l : List α} {n : ℕ} (h : l.length ≤ n) : l.rtake n = l := by
  rw [List.rtake, Nat.sub_eq_zero_of_le h, List.drop_zero]

theorem rtake_append (l m : List α) (n : ℕ) : (l.rtake n ++ m).rtake n = (l ++ m).rtake n := by
  have hlen := length_rtake l n
  unfold List.rtake at hlen ⊢
  rw [List.length_append, List.length_append, hlen]
  by_cases h : l.length ≤ n
  · rw [Nat.sub_eq_zero_of_le h, List.drop_zero, min_eq_right h]
  · have hle : l.length - n ≤ l.length := Nat.sub_le _ _
    rw [← List.drop_append_of_le_length hle, List.drop_drop]
    congr 1
    omega

/-- A journal that keeps its last entries, as many as are allowed. -/
structure Journal (α : Type u) where
  limit : ℕ
  entries : List α
  bounded : entries.length ≤ limit

namespace Journal

inductive Event (α : Type u) where
  | record (a : α)
  | resize (limit : ℕ)

def next (l : Journal α) : Event α → Journal α
  | .record a => ⟨l.limit, (l.entries ++ [a]).rtake l.limit, by
      rw [length_rtake]
      exact min_le_left _ _⟩
  | .resize limit => ⟨limit, l.entries.rtake limit, by
      rw [length_rtake]
      exact min_le_left _ _⟩

def after (l : Journal α) (events : List (Event α)) : Journal α := events.foldl next l

def recorded (events : List (Event α)) : List α :=
  events.filterMap fun
    | .record a => some a
    | .resize _ => none

def limits (events : List (Event α)) : List ℕ :=
  events.filterMap fun
    | .record _ => none
    | .resize limit => some limit

theorem after_append (l : Journal α) (events events' : List (Event α)) :
    l.after (events ++ events') = (l.after events).after events' := List.foldl_append ..

theorem after_suffix (l : Journal α) (events : List (Event α)) :
    (l.after events).entries <:+ l.entries ++ recorded events := by
  induction events generalizing l with
  | nil =>
    rw [recorded, List.filterMap_nil, List.append_nil]
    exact List.suffix_refl _
  | cons event events ih =>
    refine (ih (l.next event)).trans ?_
    cases event with
    | record a =>
      have hsuffix : (l.entries ++ [a]).rtake l.limit ++ recorded events <:+
          l.entries ++ [a] ++ recorded events := by
        rw [List.suffix_append_inj_of_length_eq rfl]
        exact ⟨rtake_suffix_self _ _, rfl⟩
      rwa [List.append_assoc, List.singleton_append] at hsuffix
    | resize limit =>
      change l.entries.rtake limit ++ recorded events <:+ l.entries ++ recorded events
      rw [List.suffix_append_inj_of_length_eq rfl]
      exact ⟨rtake_suffix_self _ _, rfl⟩

theorem after_entries (l : Journal α) {events : List (Event α)} (h : limits events = []) :
    (l.after events).limit = l.limit ∧
      (l.after events).entries = (l.entries ++ recorded events).rtake l.limit := by
  induction events generalizing l with
  | nil =>
    rw [recorded, List.filterMap_nil, List.append_nil, rtake_of_length_le l.bounded]
    exact ⟨rfl, rfl⟩
  | cons event events ih =>
    cases event with
    | record a =>
      obtain ⟨hlimit, hentries⟩ := ih (l.next (.record a)) h
      refine ⟨hlimit, hentries.trans ?_⟩
      change ((l.entries ++ [a]).rtake l.limit ++ recorded events).rtake l.limit = _
      rw [rtake_append, List.append_assoc]
      rfl
    | resize limit => cases h

end Journal

end SpallocServer.Foundation
