import Mathlib.Analysis.SpecialFunctions.Sqrt
import Mathlib.Algebra.Order.Floor.Ring
import SpallocServer.Errors

namespace SpallocServer.AreaToRect

/-- The candidate heights `height, ..., 1`, largest first. -/
def largestFactor (area : ℤ) : ℕ → ℤ
  | 0 => 1
  | height + 1 => if area % (height + 1) = 0 then height + 1 else largestFactor area height

def squarestRectangle (area : ℤ) : Except Error (ℤ × ℤ) :=
  if area < 0 then .error .assertionError
  else if area = 0 then .ok (0, 0)
  else
    let h := largestFactor area (Nat.sqrt area.toNat)
    .ok (area / h, h)

/-- `int(ceil(sqrt(q)))` -/
def ceilSqrt (q : ℚ) : ℤ :=
  let n := ⌈q⌉.toNat
  if Nat.sqrt n * Nat.sqrt n = n then Nat.sqrt n else Nat.sqrt n + 1

/-- `int(ceil(float(a) / float(b)))` -/
def ceilDiv (a b : ℤ) : ℤ := ⌈(a : ℚ) / b⌉

/-- Floating point numbers are read as exact: `area / sqrt(area / ratio)` is
`sqrt(area * ratio)`. -/
def rectangleWithAspectRatio (area : ℤ) (ratio : ℚ) : Except Error (ℤ × ℤ) :=
  if area < 0 then .error .assertionError
  else if ¬(0 < ratio ∧ ratio ≤ 1) then .error .assertionError
  else if area ≤ 0 then .ok (0, 0)
  else
    let h := ceilSqrt (area * ratio)
    let w := ceilDiv area h
    .ok (max w h, h)

def rotate (boundWidth boundHeight : ℤ) (wh : ℤ × ℤ) : ℤ × ℤ :=
  if boundWidth > boundHeight ∧ wh.1 > wh.2 then (wh.2, wh.1) else wh

def squish (area boundWidth boundHeight : ℤ) (wh : ℤ × ℤ) : ℤ × ℤ :=
  if wh.1 > boundWidth then (boundWidth, ceilDiv area boundWidth)
  else if wh.2 > boundHeight then (ceilDiv area boundHeight, boundHeight)
  else wh

/-- Rotate an aspect ratio to landscape form. -/
def landscape (minRatio : ℚ) : ℚ := if minRatio > 1 then 1 / minRatio else minRatio

def idealRectangle (area : ℤ) (ratio : ℚ) : Except Error (ℤ × ℤ) :=
  match squarestRectangle area with
  | .error e => .error e
  | .ok (w, h) =>
    if (h : ℚ) / w < ratio then rectangleWithAspectRatio area ratio else .ok (w, h)

def fitRectangle (area boundWidth boundHeight : ℤ) (ratio : ℚ) (wh : ℤ × ℤ) : Option (ℤ × ℤ) :=
  if wh.1 ≤ boundWidth ∧ wh.2 ≤ boundHeight then some wh
  else
    let (w, h) := squish area boundWidth boundHeight wh
    if ((min w h : ℤ) : ℚ) / (max w h : ℤ) ≥ ratio then some (w, h) else none

/-- No ratio at all stands for `None`, which Python cannot compare with `0.0`. -/
def areaToRect (area boundWidth boundHeight : ℤ) (minRatio : Option ℚ) :
    Except Error (Option (ℤ × ℤ)) :=
  if area ≤ 0 ∨ boundWidth ≤ 0 ∨ boundHeight ≤ 0 then
    .error (.valueError "Cannot get negative- or zero-sized allocations.")
  else match minRatio with
  | none => .error (.typeError "'<' not supported between instances of 'NoneType' and 'float'")
  | some minRatio =>
    if minRatio < 0 then .error (.valueError "Aspect ratio cannot be negative.")
    else if area > boundWidth * boundHeight then .ok none
    else match idealRectangle area (landscape minRatio) with
    | .error e => .error e
    | .ok wh => .ok (fitRectangle area boundWidth boundHeight (landscape minRatio)
        (rotate boundWidth boundHeight wh))

theorem ceilSqrt_eq {q : ℚ} (hq : 0 ≤ q) : ceilSqrt q = ⌈√(q : ℝ)⌉ := by
  have hn : (⌈q⌉.toNat : ℤ) = ⌈q⌉ := Int.toNat_of_nonneg (Int.ceil_nonneg hq)
  have hle : (q : ℝ) ≤ (⌈q⌉.toNat : ℝ) := by
    have h := Int.le_ceil q
    rw [← hn] at h
    exact_mod_cast h
  have hlt : (⌈q⌉.toNat : ℝ) - 1 < q := by
    have h := Int.ceil_lt_add_one q
    rw [← hn] at h
    have h' : ((⌈q⌉.toNat : ℚ) : ℝ) < ((q + 1 : ℚ) : ℝ) := by exact_mod_cast h
    push_cast at h'
    linarith
  unfold ceilSqrt
  dsimp only
  generalize ⌈q⌉.toNat = n at hle hlt
  have hs := Nat.sqrt_le n
  have hs' := Nat.lt_succ_sqrt n
  symm
  rw [Int.ceil_eq_iff]
  split
  · next hsq =>
    have hr : (n : ℝ) = (Nat.sqrt n : ℝ) * Nat.sqrt n := by exact_mod_cast hsq.symm
    refine ⟨?_, Real.sqrt_le_iff.mpr ⟨by positivity, by push_cast; nlinarith⟩⟩
    by_cases h0 : Nat.sqrt n = 0
    · rw [h0]
      exact lt_of_lt_of_le (by norm_num) (Real.sqrt_nonneg _)
    · have h1 : (1 : ℝ) ≤ Nat.sqrt n := by exact_mod_cast Nat.one_le_iff_ne_zero.mpr h0
      exact Real.lt_sqrt_of_sq_lt (by push_cast; nlinarith)
  · next hsq =>
    have hr : (n : ℝ) ≤ ((Nat.sqrt n : ℝ) + 1) ^ 2 := by
      have h : n ≤ (Nat.sqrt n + 1) * (Nat.sqrt n + 1) := hs'.le
      have h' : (n : ℝ) ≤ ((Nat.sqrt n + 1) * (Nat.sqrt n + 1) : ℕ) := by exact_mod_cast h
      push_cast at h'
      nlinarith
    have hr' : (Nat.sqrt n : ℝ) ^ 2 ≤ n - 1 := by
      have h : Nat.sqrt n * Nat.sqrt n + 1 ≤ n := by omega
      have h' : ((Nat.sqrt n * Nat.sqrt n + 1 : ℕ) : ℝ) ≤ n := by exact_mod_cast h
      push_cast at h'
      nlinarith
    push_cast
    refine ⟨Real.lt_sqrt_of_sq_lt (by ring_nf; linarith), ?_⟩
    exact Real.sqrt_le_iff.mpr ⟨by positivity, hle.trans hr⟩

theorem ceilSqrt_mul_eq {area : ℤ} {ratio : ℚ} (ha : 0 < area) (hr : 0 < ratio) :
    ceilSqrt (area * ratio) = ⌈(area : ℝ) / √((area : ℝ) / ratio)⌉ := by
  have ha' : (0 : ℝ) < area := by exact_mod_cast ha
  have hr' : (0 : ℝ) < ratio := by exact_mod_cast hr
  rw [ceilSqrt_eq (by positivity)]
  congr 1
  push_cast
  rw [eq_div_iff (by positivity), ← Real.sqrt_mul (by positivity),
    show (area : ℝ) * ratio * (area / ratio) = area * area by field_simp,
    Real.sqrt_mul_self ha'.le]

structure Covers (area : ℤ) (wh : ℤ × ℤ) : Prop where
  width : 0 < wh.1
  height : 0 < wh.2
  area : area ≤ wh.1 * wh.2

theorem largestFactor_spec (area : ℤ) (n : ℕ) :
    0 < largestFactor area n ∧ largestFactor area n ∣ area := by
  induction n with
  | zero => exact ⟨by simp [largestFactor], by simp [largestFactor]⟩
  | succ n ih =>
    unfold largestFactor
    split
    · next h => exact ⟨by omega, Int.dvd_of_emod_eq_zero h⟩
    · exact ih

theorem squarestRectangle_spec {area : ℤ} (ha : 0 < area) :
    ∃ wh, squarestRectangle area = .ok wh ∧ Covers area wh := by
  obtain ⟨hp, hd⟩ := largestFactor_spec area (Nat.sqrt area.toNat)
  refine ⟨(_, _), by
    simp only [squarestRectangle, show ¬ area < 0 by omega, show area ≠ 0 by omega, if_false]
    rfl, ?_⟩
  have he := Int.ediv_mul_cancel hd
  exact ⟨Int.ediv_pos_of_pos_of_dvd ha hp.le hd, hp, he.ge⟩

theorem le_ceilDiv_mul {a b : ℤ} (hb : 0 < b) : a ≤ ceilDiv a b * b := by
  have hq : (0 : ℚ) < b := by exact_mod_cast hb
  have h : (a : ℚ) / b ≤ ceilDiv a b := Int.le_ceil _
  rw [div_le_iff₀ hq] at h
  exact_mod_cast h

theorem ceilDiv_pos {a b : ℤ} (ha : 0 < a) (hb : 0 < b) : 0 < ceilDiv a b :=
  Int.ceil_pos.mpr (div_pos (by exact_mod_cast ha) (by exact_mod_cast hb))

theorem ceilDiv_le {a b c : ℤ} (hb : 0 < b) (h : a ≤ c * b) : ceilDiv a b ≤ c := by
  have hq : (0 : ℚ) < b := by exact_mod_cast hb
  refine Int.ceil_le.mpr ?_
  rw [div_le_iff₀ hq]
  exact_mod_cast h

theorem ceilSqrt_pos {q : ℚ} (hq : 0 < q) : 0 < ceilSqrt q := by
  have hc : 0 < ⌈q⌉ := Int.ceil_pos.mpr hq
  have hs : 0 < Nat.sqrt ⌈q⌉.toNat := Nat.sqrt_pos.mpr (by omega)
  unfold ceilSqrt
  dsimp only
  split <;> omega

theorem rectangleWithAspectRatio_spec {area : ℤ} {ratio : ℚ} (ha : 0 < area)
    (h0 : 0 < ratio) (h1 : ratio ≤ 1) :
    ∃ wh, rectangleWithAspectRatio area ratio = .ok wh ∧ Covers area wh := by
  have hq : (0 : ℚ) < area * ratio := mul_pos (by exact_mod_cast ha) h0
  have hh := ceilSqrt_pos hq
  refine ⟨(_, _), by
    simp only [rectangleWithAspectRatio, show ¬ area < 0 by omega, show ¬ area ≤ 0 by omega,
      h0, h1, and_self, not_true, if_false]
    rfl, ?_⟩
  refine ⟨lt_max_of_lt_right hh, hh, (le_ceilDiv_mul hh).trans ?_⟩
  exact mul_le_mul_of_nonneg_right (le_max_left _ _) hh.le

theorem rotate_covers {area boundWidth boundHeight : ℤ} {wh : ℤ × ℤ} (h : Covers area wh) :
    Covers area (rotate boundWidth boundHeight wh) := by
  unfold rotate
  split
  · exact ⟨h.height, h.width, by rw [mul_comm]; exact h.area⟩
  · exact h

theorem squish_covers {area boundWidth boundHeight : ℤ} {wh : ℤ × ℤ} (h : Covers area wh)
    (ha : 0 < area) (hw : 0 < boundWidth) (hh : 0 < boundHeight) :
    Covers area (squish area boundWidth boundHeight wh) := by
  unfold squish
  split
  · refine ⟨hw, ceilDiv_pos ha hw, ?_⟩
    rw [mul_comm]
    exact le_ceilDiv_mul hw
  · split
    · exact ⟨ceilDiv_pos ha hh, hh, le_ceilDiv_mul hh⟩
    · exact h

theorem landscape_le_one (minRatio : ℚ) : landscape minRatio ≤ 1 := by
  unfold landscape
  split
  · next h => exact (div_le_one (by linarith)).mpr h.le
  · next h => exact not_lt.mp h

theorem idealRectangle_spec {area : ℤ} {ratio : ℚ} (ha : 0 < area) (hr : ratio ≤ 1) :
    ∃ wh, idealRectangle area ratio = .ok wh ∧ Covers area wh := by
  obtain ⟨⟨w, h⟩, he, hc⟩ := squarestRectangle_spec ha
  unfold idealRectangle
  rw [he]
  dsimp only
  split
  · next hlt =>
    have hw : (0 : ℚ) < w := by exact_mod_cast hc.width
    have hh : (0 : ℚ) < h := by exact_mod_cast hc.height
    exact rectangleWithAspectRatio_spec ha ((div_pos hh hw).trans hlt) hr
  · exact ⟨_, rfl, hc⟩

theorem fitRectangle_covers {area boundWidth boundHeight : ℤ} {ratio : ℚ} {wh wh' : ℤ × ℤ}
    (hc : Covers area wh) (ha : 0 < area) (hw : 0 < boundWidth) (hh : 0 < boundHeight)
    (h : fitRectangle area boundWidth boundHeight ratio wh = some wh') : Covers area wh' := by
  have hs := squish_covers hc ha hw hh
  unfold fitRectangle at h
  split at h
  · cases h
    exact hc
  · dsimp only at h
    split at h
    · cases h
      exact hs
    · cases h

theorem areaToRect_covers {area boundWidth boundHeight : ℤ} {minRatio : Option ℚ} {wh : ℤ × ℤ}
    (h : areaToRect area boundWidth boundHeight minRatio = .ok (some wh)) : Covers area wh := by
  unfold areaToRect at h
  split at h
  · cases h
  next hb =>
  obtain ⟨ha, hw, hh⟩ : 0 < area ∧ 0 < boundWidth ∧ 0 < boundHeight := by omega
  cases minRatio with
  | none => cases h
  | some minRatio =>
    obtain ⟨ideal, he, hc⟩ := idealRectangle_spec ha (landscape_le_one minRatio)
    simp only [he] at h
    split at h
    · cases h
    split at h
    · cases h
    exact fitRectangle_covers (rotate_covers hc) ha hw hh (Except.ok.inj h)

theorem areaToRect_ok {area boundWidth boundHeight : ℤ} {minRatio : ℚ} (ha : 0 < area)
    (hw : 0 < boundWidth) (hh : 0 < boundHeight) (hr : 0 ≤ minRatio) :
    ∃ r, areaToRect area boundWidth boundHeight (some minRatio) = .ok r := by
  obtain ⟨ideal, he, -⟩ := idealRectangle_spec ha (landscape_le_one minRatio)
  unfold areaToRect
  rw [if_neg (by omega)]
  simp only [he, if_neg (not_lt.mpr hr)]
  split <;> exact ⟨_, rfl⟩

theorem idealRectangle_error {area : ℤ} {ratio : ℚ} {e : Error}
    (h : idealRectangle area ratio = .error e) : e.Argument := by
  unfold idealRectangle squarestRectangle at h
  split at h
  · next e' he =>
    cases h
    split at he
    · cases he
      trivial
    · split at he <;> cases he
  · split at h
    · unfold rectangleWithAspectRatio at h
      split at h
      · cases h
        trivial
      split at h
      · cases h
        trivial
      split at h <;> cases h
    · cases h

theorem areaToRect_error {area boundWidth boundHeight : ℤ} {minRatio : Option ℚ} {e : Error}
    (h : areaToRect area boundWidth boundHeight minRatio = .error e) : e.Argument := by
  unfold areaToRect at h
  split at h
  · cases h
    trivial
  cases minRatio with
  | none =>
    cases h
    trivial
  | some minRatio =>
    dsimp only at h
    split at h
    · cases h
      trivial
    split at h
    · cases h
    split at h
    · next e' he =>
      cases h
      exact idealRectangle_error he
    · cases h

end SpallocServer.AreaToRect
