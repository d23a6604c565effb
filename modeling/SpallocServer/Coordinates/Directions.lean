import Mathlib.Algebra.BigOperators.Group.List.Basic
import Mathlib.Tactic.Ring
import SpallocServer.Coordinates.Chips

namespace SpallocServer.Coordinates

/-- How far the Ethernet connected chip of a board is from that of the board down a link. -/
def direction : Links → ℤ × ℤ
  | .east => (4, -4)
  | .northEast => (8, 4)
  | .north => (4, 8)
  | .west => (-4, 4)
  | .southWest => (-8, -4)
  | .south => (-4, -8)

/-- The board at the end of a path. -/
def follow (b : Board) (path : List Links) (width height : ℤ) : Board :=
  path.foldl (fun b link => neighbour b link width height) b

variable {width height : ℤ} {b c : Board}

theorem vector_direction {z : ℤ} (h : 0 ≤ z ∧ z < 3) (link : Links) :
    (vector z link).1 * 12 + (boardToChip 0 0 (z + (vector z link).2.2)).1 =
        (boardToChip 0 0 z).1 + (direction link).1 ∧
      (vector z link).2.1 * 12 + (boardToChip 0 0 (z + (vector z link).2.2)).2 =
        (boardToChip 0 0 z).2 + (direction link).2 := by
  obtain rfl | rfl | rfl := z_cases h <;> cases link <;> decide

theorem emod_mul_add {x d n o e : ℤ} (h : d * 12 + o = e) :
    (x + d) % n * 12 + o ≡ x * 12 + e [ZMOD 12 * n] := by
  have hmod : 12 * ((x + d) % n) ≡ 12 * (x + d) [ZMOD 12 * n] := (Int.mod_modEq _ _).mul_left'
  calc (x + d) % n * 12 + o = 12 * ((x + d) % n) + o := by ring
    _ ≡ 12 * (x + d) + o [ZMOD 12 * n] := hmod.add_right o
    _ = x * 12 + e := by
      rw [← h]
      ring

theorem corner_neighbour (width height : ℤ) (h : 0 ≤ b.2.2 ∧ b.2.2 < 3) (link : Links) :
    (corner (neighbour b link width height)).1 ≡
        (corner b).1 + (direction link).1 [ZMOD 12 * width] ∧
      (corner (neighbour b link width height)).2 ≡
        (corner b).2 + (direction link).2 [ZMOD 12 * height] := by
  obtain ⟨hx, hy⟩ := vector_direction h link
  rw [corner_eq, corner_eq b, neighbour_eq]
  dsimp only
  rw [add_assoc, add_assoc]
  exact ⟨emod_mul_add hx, emod_mul_add hy⟩

theorem wraps_back {x d n : ℤ} (h : 0 ≤ x ∧ x < n) :
    (x + d) % n + -d ≠ ((x + d) % n + -d) % n ↔ x + d ≠ (x + d) % n := by
  rw [emod_add_neg_cancel h]
  generalize (x + d) % n = y
  omega

theorem boardDownLink_opposite (h : InMachine width height b) (link : Links) :
    boardDownLink (neighbour b link width height) link.opposite width height =
      (b, (boardDownLink b link width height).2) := by
  obtain ⟨-, -, hv⟩ := vector_spec h.z link
  refine Prod.ext (neighbour_opposite h link) ?_
  rw [neighbour_eq]
  simp only [boardDownLink, hv, WrapAround.mk.injEq, decide_eq_decide]
  exact ⟨wraps_back h.x, wraps_back h.y⟩

theorem follow_inMachine (h : InMachine width height b) (path : List Links) :
    InMachine width height (follow b path width height) := by
  induction path generalizing b with
  | nil => exact h
  | cons link path ih => exact ih (neighbour_inMachine h link)

theorem corner_follow (h : InMachine width height b) (path : List Links) :
    (corner (follow b path width height)).1 ≡
        (corner b).1 + (path.map fun link => (direction link).1).sum [ZMOD 12 * width] ∧
      (corner (follow b path width height)).2 ≡
        (corner b).2 + (path.map fun link => (direction link).2).sum [ZMOD 12 * height] := by
  induction path generalizing b with
  | nil => simp [follow]
  | cons link path ih =>
    obtain ⟨hx, hy⟩ := ih (neighbour_inMachine h link)
    obtain ⟨hx', hy'⟩ := corner_neighbour width height h.z link
    simp only [List.map_cons, List.sum_cons, ← add_assoc]
    exact ⟨hx.trans (hx'.add_right _), hy.trans (hy'.add_right _)⟩

theorem eq_of_corner (hb : InMachine width height b) (hc : InMachine width height c)
    (hx : (corner b).1 ≡ (corner c).1 [ZMOD 12 * width])
    (hy : (corner b).2 ≡ (corner c).2 [ZMOD 12 * height]) : b = c := by
  rw [mul_comm 12] at hx hy
  have htiles := spinn5_tiles width height
  apply (htiles.unique b c (0, 0) (0, 0) (corner c) hb hc htiles.origin htiles.origin _ _).1
  · constructor
    · rwa [add_zero]
    · rwa [add_zero]
  · constructor <;> rw [add_zero]

theorem follow_perm (h : InMachine width height b) {path path' : List Links}
    (hperm : path.Perm path') : follow b path width height = follow b path' width height := by
  obtain ⟨hx, hy⟩ := corner_follow h path
  obtain ⟨hx', hy'⟩ := corner_follow h path'
  rw [(hperm.map _).sum_eq] at hx hy
  exact eq_of_corner (follow_inMachine h path) (follow_inMachine h path') (hx.trans hx'.symm)
    (hy.trans hy'.symm)

/-- The table of links and the chip coordinates agree on one geometry: a link leads to a board of
another z, its opposite leads back with the same wrap-around, and it goes the same way from every
board. So the board at the end of a path depends on how often each link was taken. -/
theorem links_consistent (h : InMachine width height b) (link : Links) :
    InMachine width height (boardDownLink b link width height).1 ∧
      (boardDownLink b link width height).1.2.2 ≠ b.2.2 ∧
      boardDownLink (boardDownLink b link width height).1 link.opposite width height =
        (b, (boardDownLink b link width height).2) ∧
      (corner (boardDownLink b link width height).1).1 ≡
        (corner b).1 + (direction link).1 [ZMOD 12 * width] ∧
      (corner (boardDownLink b link width height).1).2 ≡
        (corner b).2 + (direction link).2 [ZMOD 12 * height] ∧
      ∀ path path' : List Links, (∀ l, path.count l = path'.count l) →
        follow b path width height = follow b path' width height := by
  obtain ⟨hx, hy⟩ := corner_neighbour width height h.z link
  refine ⟨neighbour_inMachine h link, ?_, boardDownLink_opposite h link, hx, hy,
    fun path path' hcount => follow_perm h (List.perm_iff_count.mpr hcount)⟩
  have hz := (vector_spec h.z link).1
  change b.2.2 + (vector b.2.2 link).2.2 ≠ b.2.2
  omega

theorem links_consistent_single : boardDownLink (0, 0, 0) .south 1 1 = ((0, 0, 1), ⟨true, true⟩) ∧
    boardDownLink (0, 0, 1) .north 1 1 = ((0, 0, 0), ⟨true, true⟩) := by
  have hin : InMachine 1 1 (0, 0, 0) := ⟨by decide, by decide, by decide⟩
  have hsouth : boardDownLink (0, 0, 0) .south 1 1 = ((0, 0, 1), ⟨true, true⟩) := by decide
  obtain ⟨-, -, hback, -⟩ := links_consistent hin .south
  rw [hsouth] at hback
  exact ⟨hsouth, hback⟩

end SpallocServer.Coordinates
