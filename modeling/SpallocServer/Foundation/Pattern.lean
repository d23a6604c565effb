import Mathlib.Data.List.Lex
import Mathlib.Data.Nat.Basic

namespace SpallocServer.Foundation

variable {α β : Type}

/-- A part of a pattern: a group of elements of a kind, as long as possible, or a single one. -/
inductive Piece (α : Type) where
  | group (p : α → Bool)
  | one (p : α → Bool)

/-- The first success from `n` down to one. -/
def countDown (f : ℕ → Option β) : ℕ → Option β
  | 0 => none
  | n + 1 => (f (n + 1)).or (countDown f n)

variable (final : List α → Bool)

def scan : List (Piece α) → List α → Option (List (List α))
  | [], s => if final s then some [] else none
  | .one _ :: _, [] => none
  | .one p :: parts, a :: s => if p a then scan parts s else none
  | .group p :: parts, s =>
    countDown (fun n => (scan parts (s.drop n)).map (s.take n :: ·)) (s.takeWhile p).length

/-- The ways a pattern can be read, with the groups of each. -/
inductive Reads : List (Piece α) → List α → List (List α) → Prop where
  | done {s} (h : final s) : Reads [] s []
  | one {p parts a s gs} (ha : p a) (h : Reads parts s gs) : Reads (.one p :: parts) (a :: s) gs
  | group {p parts g s gs} (hne : g ≠ []) (hg : ∀ a ∈ g, p a) (h : Reads parts s gs) :
    Reads (.group p :: parts) (g ++ s) (g :: gs)

def Longest (parts : List (Piece α)) (s : List α) (gs : List (List α)) : Prop :=
  Reads final parts s gs ∧
    ∀ hs, Reads final parts s hs → hs.map List.length ≤ gs.map List.length

variable {final} {f : ℕ → Option β} {parts : List (Piece α)} {s : List α} {gs hs : List (List α)}

theorem reads_nil_iff : Reads final [] s gs ↔ final s ∧ gs = [] := by
  constructor
  · intro h
    cases h with
    | done h => exact ⟨h, rfl⟩
  · intro ⟨h, hgs⟩
    exact hgs ▸ .done h

theorem reads_one_iff {p : α → Bool} : Reads final (.one p :: parts) s gs ↔
    ∃ a t, s = a :: t ∧ p a ∧ Reads final parts t gs := by
  constructor
  · intro h
    cases h with
    | one ha h => exact ⟨_, _, rfl, ha, h⟩
  · intro ⟨a, t, hs, ha, h⟩
    exact hs ▸ .one ha h

theorem reads_group_iff {p : α → Bool} : Reads final (.group p :: parts) s gs ↔
    ∃ g t hs, s = g ++ t ∧ gs = g :: hs ∧ (g ≠ [] ∧ ∀ a ∈ g, p a) ∧ Reads final parts t hs := by
  constructor
  · intro h
    cases h with
    | group hne hg h => exact ⟨_, _, _, rfl, rfl, ⟨hne, hg⟩, h⟩
  · intro ⟨g, t, hs, hst, hgs, ⟨hne, hg⟩, h⟩
    exact hst ▸ hgs ▸ .group hne hg h

theorem countDown_some {n : ℕ} {b : β} (h : countDown f n = some b) :
    ∃ k, (0 < k ∧ k ≤ n) ∧ f k = some b := by
  induction n with
  | zero => cases h
  | succ n ih =>
    rw [countDown, Option.or_eq_some_iff] at h
    obtain h | ⟨-, h⟩ := h
    · exact ⟨n + 1, ⟨n.succ_pos, le_rfl⟩, h⟩
    · obtain ⟨k, hk, hf⟩ := ih h
      exact ⟨k, ⟨hk.1, hk.2.trans n.le_succ⟩, hf⟩

theorem countDown_of_some {n k : ℕ} {b : β} (hk : 0 < k ∧ k ≤ n) (hf : f k = some b) :
    ∃ m c, (k ≤ m ∧ m ≤ n) ∧ f m = some c ∧ countDown f n = some c := by
  induction n with
  | zero => omega
  | succ n ih =>
    cases hn : f (n + 1) with
    | some c => exact ⟨n + 1, c, ⟨hk.2, le_rfl⟩, hn, by rw [countDown, hn, Option.some_or]⟩
    | none =>
      have hle : k ≤ n := by
        obtain rfl | h := hk.2.eq_or_lt
        · rw [hn] at hf
          cases hf
        · exact Nat.le_of_lt_succ h
      obtain ⟨m, c, hm, hfm, hc⟩ := ih ⟨hk.1, hle⟩
      exact ⟨m, c, ⟨hm.1, hm.2.trans n.le_succ⟩, hfm, by rw [countDown, hn, Option.none_or, hc]⟩

theorem length_takeWhile_le (p : α → Bool) (s : List α) : (s.takeWhile p).length ≤ s.length :=
  (List.takeWhile_prefix p).length_le

theorem length_takeWhile_append {p : α → Bool} {g : List α} (hg : ∀ a ∈ g, p a) (s : List α) :
    g.length ≤ ((g ++ s).takeWhile p).length := by
  rw [List.takeWhile_append_of_pos hg, List.length_append]
  exact Nat.le_add_right _ _

theorem scan_reads (h : scan final parts s = some gs) : Reads final parts s gs := by
  induction parts generalizing s gs with
  | nil =>
    unfold scan at h
    split at h
    · next hs =>
      cases h
      exact .done hs
    · cases h
  | cons part parts ih =>
    cases part with
    | one p =>
      cases s with
      | nil => cases h
      | cons a s =>
        unfold scan at h
        split at h
        · next ha => exact .one ha (ih h)
        · cases h
    | group p =>
      obtain ⟨k, ⟨hpos, hk⟩, hsome⟩ := countDown_some h
      obtain ⟨gs', hgs, rfl⟩ := Option.map_eq_some_iff.mp hsome
      have hp : ∀ a ∈ s.take k, p a := by
        intro a ha
        have hsub : s.take k = (s.takeWhile p).take k := by
          rw [List.takeWhile_eq_take_findIdx_not] at hk ⊢
          rw [List.take_take]
          congr 1
          rw [List.length_take] at hk
          omega
        rw [hsub] at ha
        exact List.all_eq_true.mp (List.all_takeWhile) a (List.mem_of_mem_take ha)
      have hlen : k ≤ s.length := hk.trans (length_takeWhile_le p s)
      have hne : s.take k ≠ [] := by
        rw [← List.length_pos_iff, List.length_take]
        omega
      have hreads := Reads.group hne hp (ih hgs)
      rwa [List.take_append_drop] at hreads

theorem Reads.scan (h : Reads final parts s hs) : ∃ gs, scan final parts s = some gs ∧
    hs.map List.length ≤ gs.map List.length := by
  induction h with
  | done h => exact ⟨[], if_pos h, le_rfl⟩
  | one ha _ ih =>
    obtain ⟨gs, hgs, hle⟩ := ih
    exact ⟨gs, by rw [Foundation.scan, if_pos ha, hgs], hle⟩
  | @group p parts g s hs hne hg _ ih =>
    obtain ⟨gs, hgs, hle⟩ := ih
    have hk : 0 < g.length ∧ g.length ≤ ((g ++ s).takeWhile p).length :=
      ⟨List.length_pos_of_ne_nil hne, length_takeWhile_append hg s⟩
    have hf : (Foundation.scan final parts ((g ++ s).drop g.length)).map
        ((g ++ s).take g.length :: ·) = some (g :: gs) := by
      rw [List.drop_left, List.take_left, hgs, Option.map_some]
    obtain ⟨m, c, ⟨hm, hmle⟩, hfm, hc⟩ := countDown_of_some
      (f := fun n => (Foundation.scan final parts ((g ++ s).drop n)).map ((g ++ s).take n :: ·))
      hk hf
    obtain ⟨gs', hgs', rfl⟩ := Option.map_eq_some_iff.mp hfm
    refine ⟨_, hc, ?_⟩
    have hlen : ((g ++ s).take m).length = m :=
      List.length_take_of_le (hmle.trans (length_takeWhile_le _ _))
    rw [List.map_cons, List.map_cons, hlen]
    obtain rfl | hlt := hm.eq_or_lt
    · rw [List.drop_left, hgs] at hgs'
      cases hgs'
      exact List.cons_le_cons _ hle
    · exact le_of_lt (List.Lex.rel hlt)

theorem Reads.eq_of_length (h : Reads final parts s gs) (h' : Reads final parts s hs)
    (hlen : gs.map List.length = hs.map List.length) : gs = hs := by
  induction h generalizing hs with
  | done _ =>
    cases h'
    rfl
  | one _ _ ih =>
    cases h' with
    | one _ h' => exact ih h' hlen
  | @group p parts g s gs hne hg _ ih =>
    generalize hs' : g ++ s = s' at h'
    cases h' with
    | group _ _ h' =>
      obtain ⟨hg, hgs⟩ := List.cons.inj hlen
      obtain ⟨rfl, rfl⟩ := List.append_inj hs' hg
      rw [ih h' hgs]

theorem scan_eq_some_iff : scan final parts s = some gs ↔ Longest final parts s gs := by
  constructor
  · intro h
    refine ⟨scan_reads h, fun hs hreads => ?_⟩
    obtain ⟨gs', hgs', hle⟩ := hreads.scan
    rw [h] at hgs'
    cases hgs'
    exact hle
  · intro ⟨hreads, hmax⟩
    obtain ⟨gs', hgs', hle⟩ := hreads.scan
    have hreads' := scan_reads hgs'
    rw [hgs', hreads'.eq_of_length hreads (le_antisymm (hmax gs' hreads') hle)]

end SpallocServer.Foundation
