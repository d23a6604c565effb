import Mathlib.Data.Finset.Basic
import SpallocServer.PackTree.Spec
import SpallocServer.Allocator

namespace SpallocServer

open Foundation

abbrev Claim := AllocationType × Board

/-- What is given out, whatever the tables that record it: rectangles of triads, some of
them single triads opened for single boards, and the claims of the allocations. -/
structure Ledger where
  leaves : Set Region
  opened : Set (ℤ × ℤ)
  free : ℤ × ℤ → Finset ℤ
  claims : Set Claim

namespace Ledger

def cell (p : ℤ × ℤ) : Region := ⟨p.1, p.2, 1, 1⟩

def block (r : Region) : Claim := (.triads, (r.x, r.y, 0))

def single (p : ℤ × ℤ) (z : ℤ) : Claim := (.board, (p.1, p.2, z))

@[ext] theorem ext {L M : Ledger} (hl : L.leaves = M.leaves) (ho : L.opened = M.opened)
    (hf : L.free = M.free) (hc : L.claims = M.claims) : L = M := by
  cases L
  cases M
  simp_all

def grantBlock (L : Ledger) (r : Region) : Ledger :=
  { L with leaves := insert r L.leaves, claims := insert (block r) L.claims }

def openCell (L : Ledger) (p : ℤ × ℤ) (w : Finset ℤ) : Ledger :=
  { L with
    leaves := insert (cell p) L.leaves
    opened := insert p L.opened
    free := Function.update L.free p w }

def takeBoard (L : Ledger) (p : ℤ × ℤ) (z : ℤ) : Ledger :=
  { L with
    free := Function.update L.free p ((L.free p).erase z)
    claims := insert (single p z) L.claims }

def dropBlock (L : Ledger) (r : Region) : Ledger :=
  { L with leaves := L.leaves \ {r}, claims := L.claims \ {block r} }

def returnBoard (L : Ledger) (p : ℤ × ℤ) (z : ℤ) : Ledger :=
  { L with
    free := Function.update L.free p (insert z (L.free p))
    claims := L.claims \ {single p z} }

def closeCell (L : Ledger) (p : ℤ × ℤ) : Ledger :=
  { L with
    leaves := L.leaves \ {cell p}
    opened := L.opened \ {p}
    free := Function.update L.free p ∅ }

structure Sound (L : Ledger) : Prop where
  positive : ∀ r ∈ L.leaves, r.Positive
  apart : ∀ r ∈ L.leaves, ∀ q ∈ L.leaves, ∀ c, c ∈ r.cells → c ∈ q.cells → r = q
  cell : ∀ p ∈ L.opened, cell p ∈ L.leaves
  block : ∀ b, (.triads, b) ∈ L.claims →
    (b.1, b.2.1) ∉ L.opened ∧ ∃ r ∈ L.leaves, b = (r.x, r.y, 0)
  board : ∀ p z, single p z ∈ L.claims → p ∈ L.opened ∧ (0 ≤ z ∧ z < 3) ∧ z ∉ L.free p
  kinds : ∀ b, (.boards, b) ∉ L.claims
  leaf : ∀ r ∈ L.leaves, (r.x, r.y) ∈ L.opened ∨ Ledger.block r ∈ L.claims
  spare : ∀ p ∈ L.opened, ∀ z ∈ L.free p, 0 ≤ z ∧ z < 3
  shut : ∀ p, p ∉ L.opened → L.free p = ∅

variable {L : Ledger} {r : Region} {p : ℤ × ℤ} {z : ℤ}

theorem cell_positive (p : ℤ × ℤ) : (cell p).Positive := ⟨Int.one_pos, Int.one_pos⟩

theorem cell_mem (p : ℤ × ℤ) : p ∈ (cell p).cells := Region.corner_mem (cell_positive p)

theorem cell_injective {p q : ℤ × ℤ} (h : cell p = cell q) : p = q :=
  Prod.ext (congrArg Region.x h) (congrArg Region.y h)

theorem single_injective {p q : ℤ × ℤ} {z z' : ℤ} (h : single p z = single q z') :
    p = q ∧ z = z' := by
  simp only [single, Prod.mk.injEq, true_and] at h
  exact ⟨Prod.ext h.1 h.2.1, h.2.2⟩

theorem Sound.corner (h : L.Sound) {r q : Region} (hr : r ∈ L.leaves) (hq : q ∈ L.leaves)
    (hx : r.x = q.x) (hy : r.y = q.y) : r = q := by
  refine h.apart r hr q hq (r.x, r.y) (Region.corner_mem (h.positive r hr)) ?_
  rw [hx, hy]
  exact Region.corner_mem (h.positive q hq)

theorem Sound.eq_cell (h : L.Sound) (hr : r ∈ L.leaves) (ho : (r.x, r.y) ∈ L.opened) :
    r = Ledger.cell (r.x, r.y) :=
  h.corner hr (h.cell _ ho) rfl rfl

theorem Sound.block_leaf (h : L.Sound) (hc : Ledger.block r ∈ L.claims) :
    (r.x, r.y) ∉ L.opened ∧ ∃ q ∈ L.leaves, q.x = r.x ∧ q.y = r.y := by
  obtain ⟨ho, q, hq, he⟩ := h.block _ hc
  simp only [Prod.mk.injEq] at he
  exact ⟨ho, q, hq, he.1.symm, he.2.1.symm⟩

theorem Sound.fresh (h : L.Sound) (hr : r.Positive)
    (hf : ∀ q ∈ L.leaves, Apart Region.cells r q) :
    r ∉ L.leaves ∧ (r.x, r.y) ∉ L.opened ∧ Ledger.block r ∉ L.claims := by
  have hm := Region.corner_mem hr
  refine ⟨fun hl => hf r hl _ hm hm, fun ho => ?_, fun hc => ?_⟩
  · exact hf _ (h.cell _ ho) _ hm (cell_mem _)
  · obtain ⟨-, q, hq, hx, hy⟩ := h.block_leaf hc
    refine hf q hq _ hm ?_
    rw [← hx, ← hy]
    exact Region.corner_mem (h.positive q hq)

theorem Sound.fresh_single (h : L.Sound) (hz : z ∈ L.free p) : single p z ∉ L.claims :=
  fun hc => (h.board p z hc).2.2 hz

theorem Sound.opened_of_free (h : L.Sound) (hz : z ∈ L.free p) : p ∈ L.opened := by
  by_contra ho
  simp [h.shut p ho] at hz

theorem Sound.insert_leaf (h : L.Sound) (hr : r.Positive)
    (hf : ∀ q ∈ L.leaves, Apart Region.cells r q) :
    (∀ q ∈ insert r L.leaves, q.Positive) ∧
      ∀ q ∈ insert r L.leaves, ∀ q' ∈ insert r L.leaves, ∀ c, c ∈ q.cells → c ∈ q'.cells →
        q = q' := by
  refine ⟨fun q hq => ?_, fun q hq q' hq' c hc hc' => ?_⟩
  · obtain rfl | hq := hq
    · exact hr
    · exact h.positive q hq
  · obtain rfl | hq := hq <;> obtain rfl | hq' := hq'
    · rfl
    · exact absurd hc' (hf q' hq' c hc)
    · exact absurd hc (hf q hq c hc')
    · exact h.apart q hq q' hq' c hc hc'

theorem Sound.grantBlock (h : L.Sound) (hr : r.Positive)
    (hf : ∀ q ∈ L.leaves, Apart Region.cells r q) : (L.grantBlock r).Sound := by
  obtain ⟨hp, ha⟩ := h.insert_leaf hr hf
  obtain ⟨-, ho, -⟩ := h.fresh hr hf
  refine ⟨hp, ha, fun p hp => .inr (h.cell p hp), fun b hb => ?_, fun p z hz => ?_,
    fun b hb => ?_, fun q hq => ?_, h.spare, h.shut⟩
  · obtain hb | hb := hb
    · obtain rfl := (Prod.mk.inj hb).2
      exact ⟨ho, r, .inl rfl, rfl⟩
    · obtain ⟨hno, q, hq, he⟩ := h.block b hb
      exact ⟨hno, q, .inr hq, he⟩
  · obtain hz | hz := hz
    · cases (Prod.mk.inj hz).1
    · exact h.board p z hz
  · obtain hb | hb := hb
    · cases (Prod.mk.inj hb).1
    · exact h.kinds b hb
  · obtain rfl | hq := hq
    · exact .inr (.inl rfl)
    · exact (h.leaf q hq).imp_right .inr

theorem Sound.openCell (h : L.Sound) {w : Finset ℤ} (hw : ∀ z ∈ w, 0 ≤ z ∧ z < 3)
    (hf : ∀ q ∈ L.leaves, Apart Region.cells (Ledger.cell p) q) : (L.openCell p w).Sound := by
  obtain ⟨hp, ha⟩ := h.insert_leaf (cell_positive p) hf
  obtain ⟨-, ho, hb⟩ := h.fresh (cell_positive p) hf
  refine ⟨hp, ha, fun q hq => ?_, fun b hb' => ?_, fun q z hz => ?_, h.kinds, fun q hq => ?_,
    fun q hq z hz => ?_, fun q hq => ?_⟩
  · obtain rfl | hq := hq
    · exact .inl rfl
    · exact .inr (h.cell q hq)
  · obtain ⟨hno, q, hq, he⟩ := h.block b hb'
    refine ⟨?_, q, .inr hq, he⟩
    rintro (hbp | hbp)
    · subst he
      rw [← hbp] at hb
      exact hb hb'
    · exact hno hbp
  · obtain ⟨hq, hz3, hn⟩ := h.board q z hz
    refine ⟨.inr hq, hz3, ?_⟩
    have hne : q ≠ p := by
      rintro rfl
      exact ho hq
    simpa [Ledger.openCell, Function.update_of_ne hne] using hn
  · obtain rfl | hq := hq
    · exact .inl (.inl rfl)
    · exact (h.leaf q hq).imp_left .inr
  · simp only [Ledger.openCell] at hz
    by_cases hqp : q = p
    · subst hqp
      rw [Function.update_self] at hz
      exact hw z hz
    · rw [Function.update_of_ne hqp] at hz
      exact h.spare q (hq.resolve_left hqp) z hz
  · simp only [Ledger.openCell, Set.mem_insert_iff, not_or] at hq ⊢
    rw [Function.update_of_ne hq.1]
    exact h.shut q hq.2

theorem Sound.takeBoard (h : L.Sound) (hz : z ∈ L.free p) : (L.takeBoard p z).Sound := by
  have ho := h.opened_of_free hz
  have hsub (q : ℤ × ℤ) : Function.update L.free p ((L.free p).erase z) q ⊆ L.free q := by
    by_cases hqp : q = p
    · subst hqp
      rw [Function.update_self]
      exact Finset.erase_subset _ _
    · rw [Function.update_of_ne hqp]
  refine ⟨h.positive, h.apart, h.cell, fun b hb => ?_, fun q z' hz' => ?_, fun b hb => ?_,
    fun q hq => (h.leaf q hq).imp_right .inr, fun q hq z' hz' => h.spare q hq z' (hsub q hz'),
    fun q hq => ?_⟩
  · obtain hb | hb := hb
    · cases (Prod.mk.inj hb).1
    · exact h.block b hb
  · obtain hz' | hz' := hz'
    · obtain ⟨rfl, rfl⟩ := single_injective hz'
      refine ⟨ho, h.spare q ho z' hz, ?_⟩
      simp [Ledger.takeBoard]
    · obtain ⟨hq, h3, hn⟩ := h.board q z' hz'
      exact ⟨hq, h3, fun hm => hn (hsub q hm)⟩
  · obtain hb | hb := hb
    · cases (Prod.mk.inj hb).1
    · exact h.kinds b hb
  · exact Finset.subset_empty.mp ((hsub q).trans (h.shut q hq).subset)

theorem Sound.dropBlock (h : L.Sound) (hr : r ∈ L.leaves) (hc : Ledger.block r ∈ L.claims) :
    (L.dropBlock r).Sound := by
  obtain ⟨hno, -⟩ := h.block_leaf hc
  refine ⟨fun q hq => h.positive q hq.1, fun q hq q' hq' => h.apart q hq.1 q' hq'.1,
    fun p hp => ⟨h.cell p hp, ?_⟩, fun b hb => ?_, fun p z hz => h.board p z hz.1,
    fun b hb => h.kinds b hb.1, fun q hq => ?_, h.spare, h.shut⟩
  · rintro rfl
    exact hno hp
  · obtain ⟨hb', q, hq, rfl⟩ := h.block b hb.1
    refine ⟨hb', q, ⟨hq, ?_⟩, rfl⟩
    rintro rfl
    exact hb.2 rfl
  · refine (h.leaf q hq.1).imp_right fun hq' => ⟨hq', fun he => hq.2 ?_⟩
    simp only [Ledger.block, Set.mem_singleton_iff, Prod.mk.injEq, true_and, and_true] at he
    exact h.corner hq.1 hr he.1 he.2

theorem Sound.returnBoard (h : L.Sound) (hc : single p z ∈ L.claims) :
    (L.returnBoard p z).Sound := by
  obtain ⟨ho, h3, hn⟩ := h.board p z hc
  refine ⟨h.positive, h.apart, h.cell, fun b hb => h.block b hb.1, fun q z' hz' => ?_,
    fun b hb => h.kinds b hb.1,
    fun q hq => (h.leaf q hq).imp_right fun hq' => ⟨hq', fun he => ?_⟩, fun q hq z' hz' => ?_,
    fun q hq => ?_⟩
  · obtain ⟨hq, h3', hn'⟩ := h.board q z' hz'.1
    refine ⟨hq, h3', ?_⟩
    simp only [Ledger.returnBoard]
    by_cases hqp : q = p
    · subst hqp
      rw [Function.update_self, Finset.mem_insert, not_or]
      exact ⟨fun he => hz'.2 (he ▸ rfl), hn'⟩
    · rwa [Function.update_of_ne hqp]
  · cases (Prod.mk.inj he).1
  · simp only [Ledger.returnBoard] at hz'
    by_cases hqp : q = p
    · subst hqp
      rw [Function.update_self, Finset.mem_insert] at hz'
      obtain rfl | hz' := hz'
      · exact h3
      · exact h.spare q hq z' hz'
    · rw [Function.update_of_ne hqp] at hz'
      exact h.spare q hq z' hz'
  · have hqp : q ≠ p := by
      rintro rfl
      exact hq ho
    simp only [Ledger.returnBoard, Function.update_of_ne hqp]
    exact h.shut q hq

theorem Sound.closeCell (h : L.Sound) (ho : p ∈ L.opened) (hc : ∀ z, single p z ∉ L.claims) :
    (L.closeCell p).Sound := by
  refine ⟨fun q hq => h.positive q hq.1, fun q hq q' hq' => h.apart q hq.1 q' hq'.1,
    fun q hq => ⟨h.cell q hq.1, fun he => hq.2 (cell_injective he)⟩, fun b hb => ?_,
    fun q z hz => ?_, h.kinds, fun q hq => ?_, fun q hq z hz => ?_, fun q hq => ?_⟩
  · obtain ⟨hb', q, hq, rfl⟩ := h.block b hb
    refine ⟨fun hm => hb' hm.1, q, ⟨hq, ?_⟩, rfl⟩
    rintro rfl
    exact hb' ho
  · obtain ⟨hq, h3, hn⟩ := h.board q z hz
    have hqp : q ≠ p := by
      rintro rfl
      exact hc z hz
    exact ⟨⟨hq, hqp⟩, h3, by simpa [Ledger.closeCell, Function.update_of_ne hqp] using hn⟩
  · refine (h.leaf q hq.1).imp_left fun hq' => ⟨hq', ?_⟩
    rintro rfl
    exact hq.2 (h.eq_cell hq.1 hq')
  · simp only [Ledger.closeCell] at hz
    rw [Function.update_of_ne hq.2] at hz
    exact h.spare q hq.1 z hz
  · simp only [Ledger.closeCell]
    by_cases hqp : q = p
    · subst hqp
      rw [Function.update_self]
    · rw [Function.update_of_ne hqp]
      exact h.shut q fun hm => hq ⟨hm, hqp⟩

def Tracked (L : Ledger) (p : ℤ × ℤ) (z : ℤ) : Prop := z ∈ L.free p ∨ single p z ∈ L.claims

def Exact (L : Ledger) (w : ℤ × ℤ → Finset ℤ) : Prop :=
  ∀ p ∈ L.opened, ∀ z, L.Tracked p z ↔ z ∈ w p

def Occupied (L : Ledger) : Prop := ∀ p ∈ L.opened, ∃ z, single p z ∈ L.claims

def Resilient (L : Ledger) (w : ℤ × ℤ → Finset ℤ) : Prop :=
  ∀ p ∈ L.opened, (w p).Nonempty → (∀ z ∈ w p, L.Tracked p z) → ∀ z, L.Tracked p z → z ∈ w p

variable {w : ℤ × ℤ → Finset ℤ} {q : ℤ × ℤ} {z' : ℤ}

theorem Exact.resilient (h : L.Exact w) : L.Resilient w :=
  fun p hp _ _ z hz => (h p hp z).mp hz

theorem tracked_grantBlock (r : Region) : (L.grantBlock r).Tracked q z' ↔ L.Tracked q z' := by
  simp [Tracked, grantBlock, block, single]

theorem Sound.tracked_openCell (h : L.Sound) (ho : p ∉ L.opened) (v : Finset ℤ) :
    (L.openCell p v).Tracked q z' ↔ if q = p then z' ∈ v else L.Tracked q z' := by
  unfold Tracked Ledger.openCell
  dsimp only
  by_cases hqp : q = p
  · subst hqp
    rw [Function.update_self, if_pos rfl, or_iff_left_iff_imp]
    exact fun hc => absurd (h.board _ _ hc).1 ho
  · rw [Function.update_of_ne hqp, if_neg hqp]

theorem tracked_takeBoard (hz : z ∈ L.free p) :
    (L.takeBoard p z).Tracked q z' ↔ L.Tracked q z' := by
  unfold Tracked takeBoard
  dsimp only
  rw [Set.mem_insert_iff]
  by_cases hqp : q = p
  · subst hqp
    rw [Function.update_self, Finset.mem_erase]
    by_cases hzz : z' = z
    · subst hzz
      simp [hz]
    · have hne : single q z' ≠ single q z := fun he => hzz (single_injective he).2
      simp [hzz, hne]
  · have hne : single q z' ≠ single p z := fun he => hqp (single_injective he).1
    rw [Function.update_of_ne hqp]
    simp [hne]

theorem tracked_dropBlock (r : Region) : (L.dropBlock r).Tracked q z' ↔ L.Tracked q z' := by
  simp [Tracked, dropBlock, block, single]

theorem tracked_returnBoard (hc : single p z ∈ L.claims) :
    (L.returnBoard p z).Tracked q z' ↔ L.Tracked q z' := by
  unfold Tracked returnBoard
  dsimp only
  rw [Set.mem_sdiff, Set.mem_singleton_iff]
  by_cases hqp : q = p
  · subst hqp
    rw [Function.update_self, Finset.mem_insert]
    by_cases hzz : z' = z
    · subst hzz
      simp [hc]
    · have hne : single q z' ≠ single q z := fun he => hzz (single_injective he).2
      simp [hzz, hne]
  · have hne : single q z' ≠ single p z := fun he => hqp (single_injective he).1
    rw [Function.update_of_ne hqp]
    simp [hne]

theorem tracked_closeCell (hqp : q ≠ p) : (L.closeCell p).Tracked q z' ↔ L.Tracked q z' := by
  unfold Tracked closeCell
  dsimp only
  rw [Function.update_of_ne hqp]

theorem Resilient.last (h : L.Resilient w) (hs : L.Sound) (hc : single p z ∈ L.claims)
    (hw : insert z (L.free p) = w p) (hne : z' ≠ z) : single p z' ∉ L.claims := by
  intro hc'
  obtain ⟨ho, -, -⟩ := hs.board p z hc
  have hall (y : ℤ) (hy : y ∈ w p) : L.Tracked p y := by
    rw [← hw, Finset.mem_insert] at hy
    obtain rfl | hy := hy
    · exact .inr hc
    · exact .inl hy
  have hz' := h p ho ⟨z, hw ▸ Finset.mem_insert_self _ _⟩ hall z' (.inr hc')
  rw [← hw, Finset.mem_insert] at hz'
  exact (hs.board p z' hc').2.2 (hz'.resolve_left hne)

theorem Resilient.of_tracked {M : Ledger} (h : L.Resilient w)
    (hM : ∀ q ∈ M.opened, q ∈ L.opened ∧ ∀ z, M.Tracked q z ↔ L.Tracked q z) : M.Resilient w := by
  intro q hq hne hall z hz
  obtain ⟨hqL, ht⟩ := hM q hq
  exact h q hqL hne (fun y hy => (ht y).mp (hall y hy)) z ((ht z).mp hz)

theorem Exact.of_tracked {M : Ledger} (h : L.Exact w)
    (hM : ∀ q ∈ M.opened, q ∈ L.opened ∧ ∀ z, M.Tracked q z ↔ L.Tracked q z) : M.Exact w :=
  fun q hq z => ((hM q hq).2 z).trans (h q (hM q hq).1 z)

theorem Sound.resilient_openCell (h : L.Sound) (ho : p ∉ L.opened) (hr : L.Resilient w) :
    (L.openCell p (w p)).Resilient w := by
  intro q hq hne hall z hz
  rw [h.tracked_openCell ho] at hz
  by_cases hqp : q = p
  · subst hqp
    rwa [if_pos rfl] at hz
  · rw [if_neg hqp] at hz
    refine hr q (hq.resolve_left hqp) hne (fun y hy => ?_) z hz
    have hy' := hall y hy
    rwa [h.tracked_openCell ho, if_neg hqp] at hy'

theorem Sound.exact_openCell (h : L.Sound) (ho : p ∉ L.opened) (he : L.Exact w) :
    (L.openCell p (w p)).Exact w := by
  intro q hq z
  rw [h.tracked_openCell ho]
  by_cases hqp : q = p
  · subst hqp
    rw [if_pos rfl]
  · rw [if_neg hqp]
    exact he q (hq.resolve_left hqp) z

end Ledger

end SpallocServer
