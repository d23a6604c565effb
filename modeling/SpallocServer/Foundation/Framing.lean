import Mathlib.Data.List.Basic

namespace SpallocServer.Foundation.Framing

variable {α : Type} [DecidableEq α] (sep : α)

def partition : List α → Option (List α × List α)
  | [] => none
  | a :: s => if a = sep then some ([], s) else (partition s).map fun p => (a :: p.1, p.2)

def split : List α → List (List α) × List α
  | [] => ([], [])
  | a :: s =>
    if a = sep then ([] :: (split s).1, (split s).2)
    else
      match (split s).1 with
      | [] => ([], a :: (split s).2)
      | line :: lines => ((a :: line) :: lines, (split s).2)

def lines (s : List α) : List (List α) := (split sep s).1

def rest (s : List α) : List α := (split sep s).2

variable {sep} {s t : List α}

theorem split_of_partition_none (h : partition sep s = none) : split sep s = ([], s) := by
  induction s with
  | nil => rfl
  | cons a s ih =>
    unfold partition at h
    split at h
    · cases h
    · next ha => rw [split, if_neg ha, ih (Option.map_eq_none_iff.mp h)]

theorem split_of_partition {line : List α} (h : partition sep s = some (line, t)) :
    split sep s = (line :: lines sep t, rest sep t) ∧ t.length < s.length := by
  induction s generalizing line with
  | nil => cases h
  | cons a s ih =>
    unfold partition at h
    split at h
    · next ha =>
      cases h
      rw [split, if_pos ha]
      exact ⟨rfl, Nat.lt_succ_self _⟩
    · next ha =>
      obtain ⟨⟨line', t'⟩, hs, heq⟩ := Option.map_eq_some_iff.mp h
      cases heq
      obtain ⟨hsplit, hlen⟩ := ih hs
      rw [split, if_neg ha, hsplit]
      exact ⟨rfl, Nat.lt_succ_of_lt hlen⟩

theorem split_append (s t : List α) : split sep (s ++ t) =
    (lines sep s ++ lines sep (rest sep s ++ t), rest sep (rest sep s ++ t)) := by
  induction s with
  | nil => rfl
  | cons a s ih =>
    rw [List.cons_append]
    by_cases ha : a = sep
    · have hlines : lines sep (a :: s) = [] :: lines sep s := by simp only [lines, split, if_pos ha]
      have hrest : rest sep (a :: s) = rest sep s := by simp only [rest, split, if_pos ha]
      rw [split, if_pos ha, ih, hlines, hrest]
      rfl
    · cases hs : lines sep s with
      | nil =>
        have hlines : lines sep (a :: s) = [] := by
          unfold lines at hs
          simp only [lines, split, if_neg ha, hs]
        have hrest : rest sep (a :: s) = a :: rest sep s := by
          unfold lines at hs
          simp only [rest, split, if_neg ha, hs]
        rw [hlines, hrest, List.cons_append]
        rw [hs, List.nil_append] at ih
        simp only [split, if_neg ha, ih, lines, rest, List.nil_append]
      | cons line ls =>
        have hlines : lines sep (a :: s) = (a :: line) :: ls := by
          unfold lines at hs
          simp only [lines, split, if_neg ha, hs]
        have hrest : rest sep (a :: s) = rest sep s := by
          unfold lines at hs
          simp only [rest, split, if_neg ha, hs]
        rw [hs] at ih
        rw [hlines, hrest]
        simp only [split, if_neg ha, ih, List.cons_append]

theorem lines_append (s t : List α) :
    lines sep (s ++ t) = lines sep s ++ lines sep (rest sep s ++ t) :=
  congrArg Prod.fst (split_append s t)

theorem rest_append (s t : List α) : rest sep (s ++ t) = rest sep (rest sep s ++ t) := by
  rw [rest, split_append]

/-- What becomes of an item. -/
inductive Fate where
  | served
  /-- It is not even accepted. -/
  | refused
  /-- It is accepted, but the answer is lost. -/
  | unanswered
  deriving DecidableEq

variable {β : Type} (fate : ℕ → β → Fate)

def through : ℕ → List β → List β
  | _, [] => []
  | n, b :: l => if fate n b = .served then b :: through (n + 1) l else [b]

def outcome : ℕ → List β → Fate
  | _, [] => .served
  | n, b :: l => if fate n b = .served then outcome (n + 1) l else fate n b

variable {fate} {n : ℕ} {l l' : List β}

theorem through_of_served (h : outcome fate n l = .served) : through fate n l = l := by
  induction l generalizing n with
  | nil => rfl
  | cons b l ih =>
    unfold outcome at h
    split at h
    · next hb => rw [through, if_pos hb, ih h]
    · next hb => exact absurd h hb

theorem outcome_append : outcome fate n (l ++ l') =
    if outcome fate n l = .served then outcome fate (n + l.length) l' else outcome fate n l := by
  induction l generalizing n with
  | nil => rfl
  | cons b l ih =>
    by_cases hb : fate n b = .served
    · rw [List.cons_append, outcome, if_pos hb, ih, outcome, if_pos hb, List.length_cons,
        Nat.add_right_comm, Nat.add_assoc]
    · rw [List.cons_append, outcome, if_neg hb, outcome, if_neg hb, if_neg hb]

theorem through_append : through fate n (l ++ l') =
    if outcome fate n l = .served then l ++ through fate (n + l.length) l'
    else through fate n l := by
  induction l generalizing n with
  | nil => rfl
  | cons b l ih =>
    by_cases hb : fate n b = .served
    · rw [List.cons_append, through, if_pos hb, ih, outcome, if_pos hb, through, if_pos hb,
        List.length_cons, Nat.add_right_comm, Nat.add_assoc]
      split <;> rfl
    · rw [List.cons_append, through, if_neg hb, outcome, if_neg hb, through, if_neg hb, if_neg hb]

theorem through_prefix : through fate n l <+: through fate n (l ++ l') := by
  rw [through_append]
  split
  · next h =>
    rw [through_of_served h]
    exact List.prefix_append _ _
  · exact List.prefix_rfl

end SpallocServer.Foundation.Framing
