import Mathlib.Data.Set.Basic
import SpallocServer.Coordinates
import SpallocServer.Errors

namespace SpallocServer.Coordinates

/-- `SpiNNakerTriadGeometry.get_spinn5_geometry()`, with the chips that a board has, seen from its
Ethernet connected chip. -/
structure Geometry where
  getEthernetChipCoordinates : ℤ → ℤ → ℤ → ℤ → ℤ × ℤ
  getLocalChipCoordinate : ℤ → ℤ → ℤ × ℤ
  chips : Set (ℤ × ℤ)

def chipToBoard (g : Geometry) (x y w h : ℤ) : Except Error Board :=
  let (x, y) := g.getEthernetChipCoordinates x y w h
  let tx := x % 12
  let ty := y % 12
  if tx = 0 ∧ ty = 0 then .ok (x / 12, y / 12, 0)
  else if tx = 8 ∧ ty = 4 then .ok (x / 12, y / 12, 1)
  else if tx = 4 ∧ ty = 8 then .ok (x / 12, y / 12, 2)
  else .error .assertionError

/-- The Ethernet connected chip of a board. -/
def corner (b : Board) : ℤ × ℤ := boardToChip b.1 b.2.1 b.2.2

/-- The chip is at this place of the board, around the edges of the torus. -/
structure Contains (width height : ℤ) (b : Board) (place chip : ℤ × ℤ) : Prop where
  x : (corner b).1 + place.1 ≡ chip.1 [ZMOD width * 12]
  y : (corner b).2 + place.2 ≡ chip.2 [ZMOD height * 12]

/-- On a torus of triads, every chip is found at its place of the one board that contains it. -/
structure Geometry.Tiles (g : Geometry) (width height : ℤ) : Prop where
  origin : (0, 0) ∈ g.chips
  small : ∀ p ∈ g.chips, (0 ≤ p.1 ∧ p.1 < 8) ∧ 0 ≤ p.2 ∧ p.2 < 8
  unique : ∀ b b' p p' chip, InMachine width height b → InMachine width height b' →
    p ∈ g.chips → p' ∈ g.chips → Contains width height b p chip →
    Contains width height b' p' chip → b = b' ∧ p = p'
  found : ∀ x y, (0 ≤ x ∧ x < width * 12) → (0 ≤ y ∧ y < height * 12) →
    ∃ b, InMachine width height b ∧
      g.getEthernetChipCoordinates x y (width * 12) (height * 12) = corner b ∧
      g.getLocalChipCoordinate x y ∈ g.chips ∧
      Contains width height b (g.getLocalChipCoordinate x y) (x, y)

variable {g : Geometry} {width height x y : ℤ} {b : Board}

theorem corner_eq (b : Board) : corner b =
    (b.1 * 12 + (boardToChip 0 0 b.2.2).1, b.2.1 * 12 + (boardToChip 0 0 b.2.2).2) := by
  unfold corner boardToChip
  split
  · simp
  split <;> simp

theorem triad_cases {z : ℤ} (h : 0 ≤ z ∧ z < 3) :
    z = 0 ∧ boardToChip 0 0 z = (0, 0) ∨ z = 1 ∧ boardToChip 0 0 z = (8, 4) ∨
      z = 2 ∧ boardToChip 0 0 z = (4, 8) := by
  obtain rfl | rfl | rfl := z_cases h <;> decide

theorem corner_in (hb : InMachine width height b) :
    (0 ≤ (corner b).1 ∧ (corner b).1 < width * 12) ∧
      0 ≤ (corner b).2 ∧ (corner b).2 < height * 12 := by
  have hx := hb.x
  have hy := hb.y
  rw [corner_eq]
  obtain ⟨-, h⟩ | ⟨-, h⟩ | ⟨-, h⟩ := triad_cases hb.z <;> rw [h] <;> dsimp only <;> omega

theorem triad_divMod {a o : ℤ} (h : 0 ≤ o ∧ o < 12) :
    (a * 12 + o) % 12 = o ∧ (a * 12 + o) / 12 = a := by omega

theorem chipToBoard_of_corner {w h : ℤ} (hz : 0 ≤ b.2.2 ∧ b.2.2 < 3)
    (he : g.getEthernetChipCoordinates x y w h = corner b) : chipToBoard g x y w h = .ok b := by
  obtain ⟨bx, b_y, bz⟩ := b
  have hin := triad_cases hz
  have hx : 0 ≤ (boardToChip 0 0 bz).1 ∧ (boardToChip 0 0 bz).1 < 12 := by
    obtain ⟨-, hc⟩ | ⟨-, hc⟩ | ⟨-, hc⟩ := hin <;> rw [hc] <;> decide
  have hy : 0 ≤ (boardToChip 0 0 bz).2 ∧ (boardToChip 0 0 bz).2 < 12 := by
    obtain ⟨-, hc⟩ | ⟨-, hc⟩ | ⟨-, hc⟩ := hin <;> rw [hc] <;> decide
  simp only [chipToBoard, he, corner_eq, triad_divMod hx, triad_divMod hy]
  obtain ⟨rfl, hc⟩ | ⟨rfl, hc⟩ | ⟨rfl, hc⟩ := hin <;> rw [hc] <;> rfl

namespace Geometry.Tiles

theorem board (h : g.Tiles width height) (hx : 0 ≤ x ∧ x < width * 12)
    (hy : 0 ≤ y ∧ y < height * 12) : ∃ b, InMachine width height b ∧
      chipToBoard g x y (width * 12) (height * 12) = .ok b ∧
      g.getLocalChipCoordinate x y ∈ g.chips ∧
      Contains width height b (g.getLocalChipCoordinate x y) (x, y) := by
  obtain ⟨b, hb, he, hl, hc⟩ := h.found x y hx hy
  exact ⟨b, hb, chipToBoard_of_corner hb.z he, hl, hc⟩

theorem corner (h : g.Tiles width height) (hb : InMachine width height b) :
    chipToBoard g (corner b).1 (corner b).2 (width * 12) (height * 12) = .ok b ∧
      g.getLocalChipCoordinate (corner b).1 (corner b).2 = (0, 0) := by
  obtain ⟨hx, hy⟩ := corner_in hb
  obtain ⟨b', hb', hboard, hl, hc⟩ := h.board hx hy
  have hself : Contains width height b (0, 0) (Coordinates.corner b) := by
    constructor <;> rw [Int.add_zero]
  obtain ⟨rfl, hp⟩ := h.unique b b' _ _ _ hb hb' h.origin hl hself hc
  exact ⟨hboard, hp.symm⟩

end Geometry.Tiles

def OnBoard (p : ℤ × ℤ) : Prop :=
  (0 ≤ p.1 ∧ p.1 < 8) ∧ (0 ≤ p.2 ∧ p.2 < 8) ∧ p.1 ≤ p.2 + 4 ∧ p.2 ≤ p.1 + 3

instance (p : ℤ × ℤ) : Decidable (OnBoard p) := inferInstanceAs (Decidable (_ ∧ _))

def placeOf (x y : ℤ) : ℤ × ℤ :=
  if OnBoard (x, y) then (x, y)
  else if OnBoard ((x - 8) % 12, (y - 4) % 12) then ((x - 8) % 12, (y - 4) % 12)
  else ((x - 4) % 12, (y - 8) % 12)

def Geometry.spinn5 : Geometry where
  getLocalChipCoordinate x y := placeOf (x % 12) (y % 12)
  getEthernetChipCoordinates x y w h :=
    ((x - (placeOf (x % 12) (y % 12)).1) % w, (y - (placeOf (x % 12) (y % 12)).2) % h)
  chips := {p | OnBoard p}

theorem mem_chips_spinn5 {p : ℤ × ℤ} : p ∈ Geometry.spinn5.chips ↔ OnBoard p := Iff.rfl

theorem placeOf_spec {x y : ℤ} (hx : 0 ≤ x ∧ x < 12) (hy : 0 ≤ y ∧ y < 12) :
    OnBoard (placeOf x y) ∧ ∃ z, (0 ≤ z ∧ z < 3) ∧
      (x - (placeOf x y).1) % 12 = (boardToChip 0 0 z).1 ∧
      (y - (placeOf x y).2) % 12 = (boardToChip 0 0 z).2 := by
  unfold placeOf
  split
  · next h => exact ⟨h, 0, by decide, by dsimp [boardToChip]; omega⟩
  split
  · next h => exact ⟨h, 1, by decide, by dsimp [boardToChip]; omega⟩
  · next h h' =>
    refine ⟨?_, 2, by decide, by dsimp [boardToChip]; omega⟩
    unfold OnBoard at *
    dsimp only at *
    omega

theorem onBoard_unique {z z' : ℤ} {p p' : ℤ × ℤ} (hz : 0 ≤ z ∧ z < 3) (hz' : 0 ≤ z' ∧ z' < 3)
    (hp : OnBoard p) (hp' : OnBoard p')
    (hx : ((boardToChip 0 0 z).1 + p.1) % 12 = ((boardToChip 0 0 z').1 + p'.1) % 12)
    (hy : ((boardToChip 0 0 z).2 + p.2) % 12 = ((boardToChip 0 0 z').2 + p'.2) % 12) :
    z = z' ∧ p = p' := by
  rw [Prod.ext_iff]
  unfold OnBoard at hp hp'
  obtain ⟨rfl, hc⟩ | ⟨rfl, hc⟩ | ⟨rfl, hc⟩ := triad_cases hz <;>
    obtain ⟨rfl, hc'⟩ | ⟨rfl, hc'⟩ | ⟨rfl, hc'⟩ := triad_cases hz' <;>
    simp only [hc, hc'] at hx hy <;> omega

theorem triad_unique {n a a' o : ℤ} (ha : 0 ≤ a ∧ a < n) (ha' : 0 ≤ a' ∧ a' < n)
    (h : a * 12 + o ≡ a' * 12 + o [ZMOD n * 12]) : a = a' := by
  have hmod : a ≡ a' [ZMOD n] :=
    (Int.ModEq.add_right_cancel' o h).mul_right_cancel' (by decide)
  rwa [Int.ModEq, Int.emod_eq_of_lt ha.1 ha.2, Int.emod_eq_of_lt ha'.1 ha'.2] at hmod

theorem offset_congr {n a a' o o' p p' c : ℤ} (h : a * 12 + o + p ≡ c [ZMOD n * 12])
    (h' : a' * 12 + o' + p' ≡ c [ZMOD n * 12]) : (o + p) % 12 = (o' + p') % 12 := by
  have hmod : (a * 12 + o + p) % 12 = (a' * 12 + o' + p') % 12 :=
    Int.ModEq.of_mul_left n (h.trans h'.symm)
  omega

theorem corner_of_place {n c p o : ℤ} (hn : 0 < n) (ho : (c % 12 - p) % 12 = o) :
    (0 ≤ (c - p) % (n * 12) / 12 ∧ (c - p) % (n * 12) / 12 < n) ∧
      (c - p) % (n * 12) / 12 * 12 + o = (c - p) % (n * 12) ∧
      (c - p) % (n * 12) + p ≡ c [ZMOD n * 12] := by
  have hnonneg := Int.emod_nonneg (c - p) (b := n * 12) (by omega)
  have hlt := Int.emod_lt_of_pos (c - p) (b := n * 12) (by omega)
  have hdvd : (c - p) % (n * 12) % 12 = (c - p) % 12 :=
    Int.emod_emod_of_dvd _ (Dvd.intro_left n rfl)
  refine ⟨by omega, by omega, ?_⟩
  calc (c - p) % (n * 12) + p ≡ c - p + p [ZMOD n * 12] := (Int.mod_modEq _ _).add_right p
    _ = c := Int.sub_add_cancel c p

theorem spinn5_tiles (width height : ℤ) : Geometry.spinn5.Tiles width height := by
  constructor
  · exact mem_chips_spinn5.mpr (by decide)
  · exact fun p hp => ⟨(mem_chips_spinn5.mp hp).1, (mem_chips_spinn5.mp hp).2.1⟩
  · intro b b' p p' chip hb hb' hp hp' hc hc'
    obtain ⟨hx, hy⟩ := hc
    obtain ⟨hx', hy'⟩ := hc'
    rw [corner_eq] at hx hy hx' hy'
    obtain ⟨hz, rfl⟩ := onBoard_unique hb.z hb'.z (mem_chips_spinn5.mp hp)
      (mem_chips_spinn5.mp hp') (offset_congr hx hx') (offset_congr hy hy')
    rw [hz] at hx hy
    refine ⟨Prod.ext (triad_unique hb.x hb'.x (Int.ModEq.add_right_cancel' p.1 (hx.trans hx'.symm)))
      (Prod.ext (triad_unique hb.y hb'.y (Int.ModEq.add_right_cancel' p.2 (hy.trans hy'.symm))) hz),
      rfl⟩
  · intro x y hx hy
    obtain ⟨hplace, z, hz, hxz, hyz⟩ :=
      placeOf_spec (x := x % 12) (y := y % 12) (by omega) (by omega)
    obtain ⟨hbx, hcx, hmx⟩ := corner_of_place (n := width) (by omega) hxz
    obtain ⟨hby, hcy, hmy⟩ := corner_of_place (n := height) (by omega) hyz
    refine ⟨(_, _, z), ⟨hbx, hby, hz⟩, ?_, mem_chips_spinn5.mpr hplace, ?_, ?_⟩
    · rw [corner_eq]
      exact Prod.ext hcx.symm hcy.symm
    · rw [corner_eq, hcx]
      exact hmx
    · rw [corner_eq, hcy]
      exact hmy

end SpallocServer.Coordinates
