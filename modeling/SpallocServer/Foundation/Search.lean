import Mathlib.Data.Finset.Card
import Mathlib.Logic.Relation

namespace SpallocServer.Foundation

variable {α : Type} [DecidableEq α]

def explore (alive : α → Bool) (next : α → List α) : ℕ → List α → Finset α → Finset α
  | 0, _, seen => seen
  | _ + 1, [], seen => seen
  | n + 1, a :: queue, seen =>
    if ¬ alive a ∨ a ∈ seen then explore alive next n queue seen
    else explore alive next n (queue ++ next a) (insert a seen)

section

variable {alive : α → Bool} {next : α → List α}

theorem explore_sound {P : α → Prop} (hnext : ∀ a, P a → alive a → ∀ b ∈ next a, P b) {n : ℕ}
    {queue : List α} {seen : Finset α} (hq : ∀ a ∈ queue, P a)
    (hs : ∀ a ∈ seen, P a ∧ alive a) {a : α} (ha : a ∈ explore alive next n queue seen) :
    P a ∧ alive a := by
  induction n generalizing queue seen with
  | zero => exact hs a ha
  | succ n ih =>
    cases queue with
    | nil => exact hs a ha
    | cons c queue =>
      have hc : P c := hq c (by simp)
      have hq' : ∀ a ∈ queue, P a := fun a ha => hq a (by simp [ha])
      unfold explore at ha
      split at ha
      · exact ih hq' hs ha
      · next hn =>
        obtain ⟨hal, -⟩ : alive c = true ∧ c ∉ seen := by simpa using hn
        refine ih (fun b hb => ?_) (fun b hb => ?_) ha
        · exact (List.mem_append.mp hb).elim (hq' b) (hnext c hc hal b)
        · obtain rfl | hb := Finset.mem_insert.mp hb
          · exact ⟨hc, hal⟩
          · exact hs b hb

theorem explore_seen {n : ℕ} {queue : List α} {seen : Finset α} :
    seen ⊆ explore alive next n queue seen := by
  induction n generalizing queue seen with
  | zero => exact Finset.Subset.rfl
  | succ n ih =>
    cases queue with
    | nil => exact Finset.Subset.rfl
    | cons c queue =>
      unfold explore
      split
      · exact ih
      · exact (Finset.subset_insert c seen).trans ih

theorem first_mem_explore {n : ℕ} {a : α} (h : (explore alive next (n + 2) [a] ∅).Nonempty) :
    a ∈ explore alive next (n + 2) [a] ∅ := by
  unfold explore at h ⊢
  split
  · next hdead =>
    rw [if_pos hdead] at h
    exact absurd h Finset.not_nonempty_empty
  · exact explore_seen (Finset.mem_insert_self a ∅)

/-- The search from a queue comes to its end, with what has been collected. -/
inductive Explores (alive : α → Bool) (next : α → List α) : List α → Finset α → Finset α → Prop where
  | done {seen : Finset α} : Explores alive next [] seen seen
  | skip {a : α} {queue : List α} {seen result : Finset α} (h : ¬alive a ∨ a ∈ seen)
      (rest : Explores alive next queue seen result) : Explores alive next (a :: queue) seen result
  | visit {a : α} {queue : List α} {seen result : Finset α} (h : alive a) (hnew : a ∉ seen)
      (rest : Explores alive next (queue ++ next a) (insert a seen) result) :
      Explores alive next (a :: queue) seen result

variable {queue : List α} {seen result result' : Finset α} {a s : α}

theorem Explores.unique (h : Explores alive next queue seen result)
    (h' : Explores alive next queue seen result') : result = result' := by
  induction h with
  | done =>
    cases h' with
    | done => rfl
  | skip hskip _ ih =>
    cases h' with
    | skip _ rest => exact ih rest
    | visit hal hnew _ => exact absurd hskip (not_or.mpr ⟨not_not.mpr hal, hnew⟩)
  | visit hal hnew _ ih =>
    cases h' with
    | skip hskip _ => exact absurd hskip (not_or.mpr ⟨not_not.mpr hal, hnew⟩)
    | visit _ _ rest => exact ih rest

theorem Explores.complete (h : Explores alive next queue seen result)
    (hs : ∀ a ∈ seen, ∀ b ∈ next a, alive b → b ∈ seen ∨ b ∈ queue) :
    seen ⊆ result ∧ (∀ a ∈ queue, alive a → a ∈ result) ∧
      ∀ a ∈ result, ∀ b ∈ next a, alive b → b ∈ result := by
  induction h with
  | done =>
    refine ⟨fun a ha => ha, nofun, fun a ha b hb hl => ?_⟩
    exact (hs a ha b hb hl).resolve_right (by simp)
  | @skip c queue seen _ hc _ ih =>
    have hc' : alive c → c ∈ seen := fun hl => hc.resolve_left (not_not.mpr hl)
    have hs' : ∀ a ∈ seen, ∀ b ∈ next a, alive b → b ∈ seen ∨ b ∈ queue := by
      intro a ha b hb hl
      obtain hm | hm := hs a ha b hb hl
      · exact .inl hm
      · obtain rfl | hm := List.mem_cons.mp hm
        · exact .inl (hc' hl)
        · exact .inr hm
    obtain ⟨h1, h2, h3⟩ := ih hs'
    refine ⟨h1, fun a ha hl => ?_, h3⟩
    obtain rfl | ha := List.mem_cons.mp ha
    · exact h1 (hc' hl)
    · exact h2 a ha hl
  | @visit c queue seen _ hal hnew _ ih =>
    obtain ⟨h1, h2, h3⟩ := ih fun a ha b hb hl => by
      obtain rfl | ha := Finset.mem_insert.mp ha
      · exact .inr (List.mem_append_right _ hb)
      · obtain hb' | hb' := hs a ha b hb hl
        · exact .inl (Finset.mem_insert_of_mem hb')
        · obtain rfl | hb' := List.mem_cons.mp hb'
          · exact .inl (Finset.mem_insert_self _ _)
          · exact .inr (List.mem_append_left _ hb')
    refine ⟨fun a ha => h1 (Finset.mem_insert_of_mem ha), fun a ha hl => ?_, h3⟩
    obtain rfl | ha := List.mem_cons.mp ha
    · exact h1 (Finset.mem_insert_self _ _)
    · exact h2 a (List.mem_append_left _ ha) hl

/-- With fuel for every edge, the search comes to its end: `nodes` bounds the nodes and `degree`
the edges that leave each of them. -/
theorem explores_explore (alive : α → Bool) (next : α → List α) {nodes : Finset α} {degree : ℕ}
    (hdeg : ∀ a, (next a).length ≤ degree) (hnext : ∀ a ∈ nodes, ∀ b ∈ next a, b ∈ nodes)
    {n : ℕ} {queue : List α} {seen : Finset α} (hq : ∀ a ∈ queue, a ∈ nodes)
    (hn : queue.length + degree * (nodes \ seen).card < n) :
    Explores alive next queue seen (explore alive next n queue seen) := by
  induction n generalizing queue seen with
  | zero => omega
  | succ n ih =>
    cases queue with
    | nil => exact .done
    | cons c queue =>
      have hq' : ∀ a ∈ queue, a ∈ nodes := fun a ha => hq a (by simp [ha])
      rw [List.length_cons] at hn
      unfold explore
      split
      · next hc => exact .skip hc (ih hq' (by omega))
      · next hc =>
        obtain ⟨hal, hnew⟩ : alive c = true ∧ c ∉ seen := by simpa using hc
        have hcu : c ∈ nodes := hq c (by simp)
        have hcard : (nodes \ insert c seen).card + 1 = (nodes \ seen).card := by
          rw [Finset.sdiff_insert, Finset.card_erase_add_one (by simp [hcu, hnew])]
        have hd := hdeg c
        have hfuel : (queue ++ next c).length + degree * (nodes \ insert c seen).card < n := by
          rw [List.length_append]
          rw [← hcard, Nat.mul_add, Nat.mul_one] at hn
          omega
        have hqu : ∀ a ∈ queue ++ next c, a ∈ nodes := fun a ha =>
          (List.mem_append.mp ha).elim (hq' a) (hnext c hcu a)
        exact .visit hal hnew (ih hqu hfuel)

theorem Explores.sound {P : α → Prop} (h : Explores alive next queue seen result)
    (hnext : ∀ a, P a → alive a → ∀ b ∈ next a, P b) (hq : ∀ a ∈ queue, P a)
    (hs : ∀ a ∈ seen, P a ∧ alive a) : ∀ a ∈ result, P a ∧ alive a := by
  induction h with
  | done => exact hs
  | skip _ _ ih => exact ih (fun a ha => hq a (List.mem_cons_of_mem _ ha)) hs
  | @visit c _ _ _ hal _ _ ih =>
    have hc : P c := hq c List.mem_cons_self
    apply ih
    · intro b hb
      obtain hb | hb := List.mem_append.mp hb
      · exact hq b (List.mem_cons_of_mem _ hb)
      · exact hnext c hc hal b hb
    · intro b hb
      obtain rfl | hb := Finset.mem_insert.mp hb
      · exact ⟨hc, hal⟩
      · exact hs b hb

theorem Explores.mem_iff (h : Explores alive next [s] ∅ result) : a ∈ result ↔
    alive s ∧ Relation.ReflTransGen (fun a b => b ∈ next a ∧ alive b) s a := by
  constructor
  · intro ha
    have hsound := h.sound (P := fun a => alive a →
      alive s ∧ Relation.ReflTransGen (fun a b => b ∈ next a ∧ alive b) s a)
      (fun a ha hal b hb hbl => ⟨(ha hal).1, (ha hal).2.tail ⟨hb, hbl⟩⟩)
      (fun b hb hbl => by
        obtain rfl := List.mem_singleton.mp hb
        exact ⟨hbl, .refl⟩)
      fun b hb => absurd hb (Finset.notMem_empty b)
    obtain ⟨hreach, hal⟩ := hsound a ha
    exact hreach hal
  · intro hreach
    obtain ⟨hs, hpath⟩ := hreach
    obtain ⟨-, hfirst, hclosed⟩ := h.complete fun b hb => absurd hb (Finset.notMem_empty b)
    induction hpath with
    | refl => exact hfirst s (List.mem_singleton_self s) hs
    | tail _ hb ih => exact hclosed _ ih _ hb.1 hb.2

end

end SpallocServer.Foundation
