import Mathlib.Data.Fintype.Basic
import Mathlib.Data.Int.ModEq

namespace SpallocServer

/-- The links of a board, anticlockwise. -/
inductive Links where
  | east
  | northEast
  | north
  | west
  | southWest
  | south
  deriving DecidableEq, Repr

namespace Links

/-- `Links((self + 3) % 6)` -/
def opposite : Links → Links
  | .east => .west
  | .northEast => .southWest
  | .north => .south
  | .west => .east
  | .southWest => .northEast
  | .south => .north

def number : Links ≃ Fin 6 where
  toFun
    | .east => 0
    | .northEast => 1
    | .north => 2
    | .west => 3
    | .southWest => 4
    | .south => 5
  invFun
    | 0 => .east
    | 1 => .northEast
    | 2 => .north
    | 3 => .west
    | 4 => .southWest
    | 5 => .south
  left_inv link := by cases link <;> rfl
  right_inv := by decide

def all : List Links := [.east, .northEast, .north, .west, .southWest, .south]

instance : Fintype Links where
  elems := all.toFinset
  complete := by
    intro link
    cases link <;> decide

end Links

/-- The x, y and z of a board. -/
abbrev Board := ℤ × ℤ × ℤ

/-- Around which axes a link or a set of boards wraps. -/
structure WrapAround where
  x : Bool
  y : Bool
  deriving DecidableEq, Repr

namespace WrapAround

def none : WrapAround := ⟨false, false⟩

end WrapAround

namespace Coordinates

/-- The links of `link_to_vector` that the source writes down. -/
def forwardVectors : List ((ℤ × Links) × (ℤ × ℤ × ℤ)) :=
  [((0, .north), (0, 0, 2)),
   ((0, .northEast), (0, 0, 1)),
   ((0, .east), (0, -1, 2)),
   ((1, .north), (1, 1, -1)),
   ((1, .northEast), (1, 0, 1)),
   ((1, .east), (1, 0, -1)),
   ((2, .north), (0, 1, -1)),
   ((2, .northEast), (1, 1, -2)),
   ((2, .east), (0, 0, -1))]

def linkToVector : List ((ℤ × Links) × (ℤ × ℤ × ℤ)) :=
  forwardVectors ++ forwardVectors.map fun ((z, link), (dx, dy, dz)) =>
    ((z + dz, link.opposite), (-dx, -dy, -dz))

def vector (z : ℤ) (link : Links) : ℤ × ℤ × ℤ :=
  ((linkToVector.find? fun p => p.1 = (z, link)).map (·.2)).getD (0, 0, 0)

def boardDownLink (b : Board) (link : Links) (width height : ℤ) : Board × WrapAround :=
  let (x1, y1, z1) := b
  let (dx, dy, dz) := vector z1 link
  let x2 := (x1 + dx) % width
  let y2 := (y1 + dy) % height
  ((x2, y2, z1 + dz), ⟨decide (x1 + dx ≠ x2), decide (y1 + dy ≠ y2)⟩)

/-- The board at the far end of a link. -/
def neighbour (b : Board) (link : Links) (width height : ℤ) : Board :=
  (boardDownLink b link width height).1

def boardToChip (x y z : ℤ) : ℤ × ℤ :=
  if z = 1 then (x * 12 + 8, y * 12 + 4)
  else if z = 2 then (x * 12 + 4, y * 12 + 8)
  else (x * 12, y * 12)

def triadDimensionsToChips (w h : ℤ) (torus : WrapAround) : ℤ × ℤ :=
  (w * 12 + if torus.x then 0 else 4, h * 12 + if torus.y then 0 else 4)

/-- A board of a machine of `width x height` triads. -/
structure InMachine (width height : ℤ) (b : Board) : Prop where
  x : 0 ≤ b.1 ∧ b.1 < width
  y : 0 ≤ b.2.1 ∧ b.2.1 < height
  z : 0 ≤ b.2.2 ∧ b.2.2 < 3

theorem z_cases {z : ℤ} (h : 0 ≤ z ∧ z < 3) : z = 0 ∨ z = 1 ∨ z = 2 := by omega

theorem vector_spec {z : ℤ} (h : 0 ≤ z ∧ z < 3) (link : Links) :
    (vector z link).2.2 ≠ 0 ∧
      (0 ≤ z + (vector z link).2.2 ∧ z + (vector z link).2.2 < 3) ∧
      vector (z + (vector z link).2.2) link.opposite =
        (-(vector z link).1, -(vector z link).2.1, -(vector z link).2.2) := by
  obtain rfl | rfl | rfl := z_cases h <;> cases link <;> decide

variable {width height : ℤ} {b : Board}

theorem neighbour_eq (b : Board) (link : Links) (width height : ℤ) :
    neighbour b link width height = ((b.1 + (vector b.2.2 link).1) % width,
      (b.2.1 + (vector b.2.2 link).2.1) % height, b.2.2 + (vector b.2.2 link).2.2) := rfl

theorem neighbour_ne (h : 0 ≤ b.2.2 ∧ b.2.2 < 3) (link : Links) :
    neighbour b link width height ≠ b := by
  intro he
  have hz := (vector_spec h link).1
  rw [neighbour_eq] at he
  have h2 := congrArg (fun c : Board => c.2.2) he
  dsimp only at h2
  omega

theorem neighbour_z (h : 0 ≤ b.2.2 ∧ b.2.2 < 3) (link : Links) :
    0 ≤ (neighbour b link width height).2.2 ∧ (neighbour b link width height).2.2 < 3 := by
  rw [neighbour_eq]
  exact (vector_spec h link).2.1

theorem neighbour_inMachine (h : InMachine width height b) (link : Links) :
    InMachine width height (neighbour b link width height) := by
  have hw : 0 < width := by have := h.x; omega
  have hh : 0 < height := by have := h.y; omega
  refine ⟨?_, ?_, neighbour_z h.z link⟩
  · rw [neighbour_eq]
    exact ⟨Int.emod_nonneg _ (by omega), Int.emod_lt_of_pos _ hw⟩
  · rw [neighbour_eq]
    exact ⟨Int.emod_nonneg _ (by omega), Int.emod_lt_of_pos _ hh⟩

theorem emod_add_neg_cancel {x d n : ℤ} (h : 0 ≤ x ∧ x < n) : ((x + d) % n + -d) % n = x := by
  rw [Int.emod_add_emod, Int.add_neg_cancel_right]
  exact Int.emod_eq_of_lt h.1 h.2

theorem neighbour_opposite (h : InMachine width height b) (link : Links) :
    neighbour (neighbour b link width height) link.opposite width height = b := by
  obtain ⟨-, -, hv⟩ := vector_spec h.z link
  rw [neighbour_eq, neighbour_eq b]
  dsimp only
  rw [hv]
  dsimp only
  rw [emod_add_neg_cancel h.x, emod_add_neg_cancel h.y, Int.add_neg_cancel_right]

end Coordinates

end SpallocServer
