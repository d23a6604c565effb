import Mathlib.Tactic.Ring
import SpallocServer.PackTree.Completeness

namespace SpallocServer.PackTree

open Foundation

variable {σ : Type} {t t' a b : PackTree} {r c : Region} {al : Bool} {w h x y : ℤ}

/-- Every leaf can be cut into blocks of `w x h`, and the allocated ones are such blocks. -/
def Gridded (w h : ℤ) (t : PackTree) : Prop :=
  ∀ q ∈ t.leaves, w ∣ q.1.width ∧ h ∣ q.1.height ∧
    (q.2 = true → q.1.width = w ∧ q.1.height = h)

theorem gridded_leaf : Gridded w h (.leaf r al) ↔
    w ∣ r.width ∧ h ∣ r.height ∧ (al = true → r.width = w ∧ r.height = h) := by
  simp [Gridded, leaves]

theorem gridded_node : Gridded w h (.node r al a b) ↔ Gridded w h a ∧ Gridded w h b := by
  simp only [Gridded, leaves, List.forall_mem_append]

theorem gridded_block (hw : r.width = w) (hh : r.height = h) : Gridded w h (.leaf r al) := by
  subst hw hh
  exact gridded_leaf.mpr ⟨dvd_rfl, dvd_rfl, fun _ => ⟨rfl, rfl⟩⟩

theorem gridded_free (hw : w ∣ r.width) (hh : h ∣ r.height) : Gridded w h (.leaf r false) :=
  gridded_leaf.mpr ⟨hw, hh, nofun⟩

theorem Cut.dvd {p q : Region} (hcut : r.Cut p q) (hp : w ∣ p.width ∧ h ∣ p.height)
    (hq : w ∣ q.width ∧ h ∣ q.height) : w ∣ r.width ∧ h ∣ r.height := by
  obtain ⟨y, hs⟩ | ⟨x, hs⟩ := hcut <;> obtain ⟨rfl, rfl⟩ := Prod.mk.inj hs
  · have hsum := dvd_add hp.2 hq.2
    simp only [add_sub_cancel] at hsum
    exact ⟨hp.1, hsum⟩
  · have hsum := dvd_add hp.1 hq.1
    simp only [add_sub_cancel] at hsum
    exact ⟨hsum, hp.2⟩

theorem Gridded.region (hg : Gridded w h t) (ht : t.Valid) :
    w ∣ t.region.width ∧ h ∣ t.region.height := by
  induction t with
  | leaf r al =>
    obtain ⟨hw, hh, -⟩ := gridded_leaf.mp hg
    exact ⟨hw, hh⟩
  | node r al a b iha ihb =>
    obtain ⟨-, hcut, -, ha, hb⟩ := ht
    obtain ⟨hga, hgb⟩ := gridded_node.mp hg
    exact Cut.dvd hcut (iha hga ha) (ihb hgb hb)

theorem carveChild_gridded (hw : w ∣ c.width) (hh : h ∣ c.height)
    (hone : c.width = w ∨ c.height = h) : Gridded w h (carveChild c c.x c.y w h).2 := by
  unfold carveChild
  dsimp only
  split
  · next hcw =>
    simp only [ne_eq, not_true, if_false, if_true]
    refine gridded_node.mpr ⟨gridded_block ?_ ?_, gridded_free ?_ ?_⟩
    · simp [Region.vsplit]
    · exact hone.resolve_left hcw
    · simpa [Region.vsplit] using dvd_sub hw dvd_rfl
    · exact hh
  next hcw =>
  have hcw : c.width = w := not_not.mp hcw
  split
  · simp only [ne_eq, not_true, if_false, if_true]
    refine gridded_node.mpr ⟨gridded_block ?_ ?_, gridded_free ?_ ?_⟩
    · exact hcw
    · simp [Region.hsplit]
    · exact hw
    · simpa [Region.hsplit] using dvd_sub hh dvd_rfl
  · next hch => exact gridded_block hcw (not_not.mp hch)

theorem carve_gridded (hw : w ∣ r.width) (hh : h ∣ r.height) :
    Gridded w h (carve r r.x r.y w h).2 := by
  unfold carve
  dsimp only
  split
  · next hwh => exact gridded_block hwh.1.symm hwh.2.symm
  split
  · simp only [ne_eq, not_true, if_false, if_true]
    refine gridded_node.mpr ⟨?_, gridded_free ?_ ?_⟩
    · refine carveChild_gridded (c := (r.hsplit (r.y + h)).1) ?_ ?_ (.inr ?_)
      · exact hw
      · simp [Region.hsplit]
      · simp [Region.hsplit]
    · exact hw
    · simpa [Region.hsplit] using dvd_sub hh dvd_rfl
  · simp only [ne_eq, not_true, if_false, if_true]
    refine gridded_node.mpr ⟨?_, gridded_free ?_ ?_⟩
    · refine carveChild_gridded (c := (r.vsplit (r.x + w)).1) ?_ ?_ (.inl ?_)
      · simp [Region.vsplit]
      · exact hh
      · simp [Region.vsplit]
    · simpa [Region.vsplit] using dvd_sub hw dvd_rfl
    · exact hh

theorem findAcceptable_first (r : Region) (w h : ℤ) (s : σ) :
    findAcceptable r w h none s = (some (r.x, r.y), s) := by
  simp [findAcceptable, corners, tryCorners, accepts]

theorem alloc_gridded (hg : Gridded w h t) (s : σ) : Gridded w h (alloc none w h t s).2.1 := by
  induction t generalizing s with
  | leaf r al =>
    unfold alloc
    split
    · exact hg
    split
    · exact hg
    · obtain ⟨hw, hh, -⟩ := gridded_leaf.mp hg
      rw [findAcceptable_first]
      exact carve_gridded hw hh
  | node r al a b iha ihb =>
    obtain ⟨hga, hgb⟩ := gridded_node.mp hg
    have hA (s : σ) := iha hga s
    have hB (s : σ) := ihb hgb s
    unfold alloc
    split
    · exact hg
    split
    · exact hg
    split
    · have ha := hA s
      generalize alloc none w h a s = res at ha ⊢
      obtain ⟨_ | xy, a', s'⟩ := res
      · exact gridded_node.mpr ⟨ha, hB s'⟩
      · exact gridded_node.mpr ⟨ha, hgb⟩
    · have hb := hB s
      generalize alloc none w h b s = res at hb ⊢
      obtain ⟨_ | xy, b', s'⟩ := res
      · exact gridded_node.mpr ⟨hA s', hb⟩
      · exact gridded_node.mpr ⟨hga, hb⟩

theorem collapse_gridded (hcut : r.Cut a.region b.region) (ha : a.Valid) (hb : b.Valid)
    (hga : Gridded w h a) (hgb : Gridded w h b) : Gridded w h (collapse r false a b) := by
  unfold collapse
  split
  · obtain ⟨hw, hh⟩ := Cut.dvd hcut (hga.region ha) (hgb.region hb)
    exact gridded_free hw hh
  · exact gridded_node.mpr ⟨hga, hgb⟩

theorem free_gridded (ht : t.Valid) (hg : Gridded w h t) (hf : free x y t = .ok t') :
    Gridded w h t' := by
  induction t generalizing t' with
  | leaf r al =>
    obtain ⟨hw, hh, -⟩ := gridded_leaf.mp hg
    unfold free at hf
    split at hf
    · split at hf <;> cases hf
      exact gridded_free hw hh
    · cases hf
  | node r al a b iha ihb =>
    obtain ⟨hal, hcut, -, ha, hb⟩ := ht
    obtain ⟨hga, hgb⟩ := gridded_node.mp hg
    subst hal
    unfold free at hf
    split at hf
    · split at hf
      · next a' hfa =>
        cases hf
        obtain ⟨_, _, _, _, hrem⟩ := (free_spec x y ha).ok a' hfa
        rw [← hrem.region] at hcut
        exact collapse_gridded hcut hrem.valid hb (iha ha hga hfa) hgb
      · cases hf
    split at hf
    · split at hf
      · next b' hfb =>
        cases hf
        obtain ⟨_, _, _, _, hrem⟩ := (free_spec x y hb).ok b' hfb
        rw [← hrem.region] at hcut
        exact collapse_gridded hcut ha hrem.valid hga (ihb hb hgb hfb)
      · cases hf
    · cases hf

def freeArea : PackTree → ℤ
  | .leaf r allocated => if allocated then 0 else r.area
  | .node _ _ a b => a.freeArea + b.freeArea

theorem Cut.area {p q : Region} (hcut : r.Cut p q) : r.area = p.area + q.area := by
  obtain ⟨y, hs⟩ | ⟨x, hs⟩ := hcut <;> obtain ⟨rfl, rfl⟩ := Prod.mk.inj hs
  · simp only [Region.area]
    ring
  · simp only [Region.area]
    ring

theorem Gridded.area (hg : Gridded w h t) (ht : t.Valid) :
    t.region.area = t.allocated.length * (w * h) + t.freeArea := by
  induction t with
  | leaf r al =>
    cases al with
    | true =>
      obtain ⟨hw, hh⟩ := (gridded_leaf.mp hg).2.2 rfl
      simp [freeArea, Region.area, hw, hh]
    | false => simp [freeArea]
  | node r al a b iha ihb =>
    obtain ⟨-, hcut, -, ha, hb⟩ := ht
    obtain ⟨hga, hgb⟩ := gridded_node.mp hg
    rw [region_node, Cut.area hcut, iha hga ha, ihb hgb hb, allocated_node, List.length_append,
      freeArea]
    push_cast
    ring

theorem Valid.freeArea_nonneg (ht : t.Valid) : 0 ≤ t.freeArea := by
  induction t with
  | leaf r al =>
    unfold freeArea
    split
    · exact le_rfl
    · exact (mul_pos ht.1 ht.2).le
  | node r al a b iha ihb =>
    obtain ⟨-, -, -, ha, hb⟩ := ht
    exact add_nonneg (iha ha) (ihb hb)

theorem Valid.freeArea_eq_zero (ht : t.Valid) :
    t.freeArea = 0 ↔ ∀ r, (r, false) ∉ t.leaves := by
  induction t with
  | leaf r al =>
    have hpos : 0 < r.area := mul_pos ht.1 ht.2
    cases al with
    | true => simp [freeArea, leaves]
    | false => simp [freeArea, leaves, hpos.ne']
  | node r al a b iha ihb =>
    obtain ⟨-, -, -, ha, hb⟩ := ht
    rw [freeArea, add_eq_zero_iff_of_nonneg ha.freeArea_nonneg hb.freeArea_nonneg, iha ha, ihb hb]
    simp only [leaves, List.mem_append, not_or, forall_and]

theorem Gridded.offers (hg : Gridded w h t) (ht : t.Valid) :
    Offers (fun _ _ _ _ => true) w h t ↔ ∃ r, (r, false) ∈ t.leaves := by
  constructor
  · intro ⟨r, hr, _⟩
    exact ⟨r, hr⟩
  · intro ⟨r, hr⟩
    obtain ⟨hw, hh, -⟩ := hg _ hr
    obtain ⟨hwpos, hhpos⟩ := ht.leaf_positive _ hr
    exact ⟨r, hr, Int.le_of_dvd hwpos hw, Int.le_of_dvd hhpos hh, (r.x + 0, r.y + 0),
      by simp [corners], rfl⟩

/-- Allocations of blocks, and frees of blocks that are allocated, in a region that the blocks
divide. -/
def blocks (w h p q : ℤ) : System PackTree TreeCall :=
  (system 0 0 (p * w) (q * h)).restrict fun t c =>
    c = .alloc w h none () ∨ ∃ r ∈ t.allocated, c = .free r.x r.y

theorem run_gridded (ht : t.Valid) (hg : Gridded w h t) {c : TreeCall}
    (hc : c = .alloc w h none () ∨ ∃ r ∈ t.allocated, c = .free r.x r.y) :
    Gridded w h (c.run t).2 := by
  obtain rfl | ⟨r, -, rfl⟩ := hc
  · have hA := alloc_gridded hg ()
    simp only [TreeCall.run]
    generalize t.alloc none w h () = res at hA ⊢
    obtain ⟨_ | xy, t', s'⟩ := res <;> exact hA
  · simp only [TreeCall.run]
    rcases hf : t.free r.x r.y with e | t'
    · exact hg
    · exact free_gridded ht hg hf

theorem blocks_gridded {p q : ℤ} (hw : 0 < w) (hh : 0 < h) (hp : 0 < p) (hq : 0 < q)
    (ht : (blocks w h p q).Reachable t) :
    t.Valid ∧ t.region = ⟨0, 0, p * w, q * h⟩ ∧ Gridded w h t := by
  have hvalid {t : PackTree} (ht : (blocks w h p q).Reachable t) :
      t.Valid ∧ t.region = ⟨0, 0, p * w, q * h⟩ :=
    reachable_valid (mul_pos hp hw) (mul_pos hq hh) ht.of_restrict
  refine ⟨(hvalid ht).1, (hvalid ht).2, ht.invariant (I := Gridded w h) ?_ ?_⟩
  · intro t hinit
    rw [show t = new 0 0 (p * w) (q * h) from hinit]
    exact gridded_free (dvd_mul_left w p) (dvd_mul_left h q)
  · intro t c t' hr hg ⟨hc, _, hstep⟩
    rw [hstep]
    exact run_gridded (hvalid hr).1 hg hc

/-- Whatever is freed in between, an allocation fails only when all `p * q` blocks are
allocated. -/
theorem blocks_packed {w h p q : ℤ} (hw : 0 < w) (hh : 0 < h) (hp : 0 < p) (hq : 0 < q)
    (ht : (blocks w h p q).Reachable t) :
    ((t.alloc none w h ()).1 = none ↔ (t.allocated.length : ℤ) = p * q) ∧
      ∀ r ∈ t.allocated, r.width = w ∧ r.height = h := by
  obtain ⟨hv, hr, hg⟩ := blocks_gridded hw hh hp hq ht
  refine ⟨?_, fun r hmem => (hg _ (mem_allocated.mp hmem)).2.2 rfl⟩
  have hblock : w * h ≠ 0 := (mul_pos hw hh).ne'
  have harea := hg.area hv
  rw [hr, Region.area] at harea
  have htotal : p * q * (w * h) = t.allocated.length * (w * h) + t.freeArea := by
    rw [← harea]
    ring
  rw [alloc_none_iff (p := fun _ _ _ _ => true) (fun _ _ _ _ _ => rfl) hv, hg.offers hv,
    not_exists, ← hv.freeArea_eq_zero]
  constructor
  · intro hzero
    rw [hzero, add_zero] at htotal
    exact (mul_right_cancel₀ hblock htotal).symm
  · intro hall
    rw [hall] at htotal
    omega

theorem blocks_packed_two :
    ((((TreeCall.alloc 2 1 none ()).run (new 0 0 2 2)).2).alloc none 2 1 ()).1 ≠ none := by
  have h0 : (blocks 2 1 1 2).Reachable (new 0 0 2 2) := .start rfl
  have h1 := h0.next (i := .alloc 2 1 none ()) ⟨.inl rfl, by simp [TreeCall.Sized], rfl⟩
  have hpacked := (blocks_packed (by decide) (by decide) (by decide) (by decide) h1).1
  intro hnone
  exact absurd (hpacked.mp hnone) (by decide)

end SpallocServer.PackTree
