import Mathlib.Data.List.Basic

namespace SpallocServer.Foundation

universe u v

variable {α : Type u} {β : Type v} {about : α → Prop} [DecidablePred about] {l l' : List α} {a : α}

/-- The last entry that is about something. -/
def latest (about : α → Prop) [DecidablePred about] (l : List α) : Option α :=
  l.reverse.find? fun a => about a

@[simp] theorem latest_nil : latest about [] = none := rfl

theorem latest_append : latest about (l ++ l') = (latest about l').or (latest about l) := by
  rw [latest, List.reverse_append, List.find?_append]
  rfl

theorem latest_eq_none : latest about l = none ↔ ∀ a ∈ l, ¬about a := by
  simp [latest]

theorem latest_mem (h : latest about l = some a) : a ∈ l ∧ about a := by
  have hmem := List.mem_of_find?_eq_some h
  have habout := List.find?_some h
  exact ⟨List.mem_reverse.mp hmem, of_decide_eq_true habout⟩

theorem latest_append_of_none (h : ∀ a ∈ l', ¬about a) : latest about (l ++ l') = latest about l := by
  rw [latest_append, latest_eq_none.mpr h, Option.none_or]

theorem exists_latest (ha : a ∈ l) (habout : about a) : ∃ b, latest about l = some b :=
  Option.ne_none_iff_exists'.mp fun hnone => latest_eq_none.mp hnone a ha habout

theorem latest_append_of_mem (ha : a ∈ l') (habout : about a) :
    latest about (l ++ l') = latest about l' := by
  obtain ⟨b, hb⟩ := exists_latest ha habout
  rw [latest_append, hb, Option.some_or]

theorem latest_map (f : β → α) (l : List β) :
    latest about (l.map f) = (latest (fun b => about (f b)) l).map f := by
  rw [latest, ← List.map_reverse, List.find?_map]
  rfl

end SpallocServer.Foundation
