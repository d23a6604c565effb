import SpallocServer.AreaToRect

namespace SpallocServer.AreaToRect

variable {area boundWidth boundHeight w h b : ℤ} {ratio r : ℚ}

/-- The shorter side to the longer one. -/
def aspect (w h : ℤ) : ℚ := ((min w h : ℤ) : ℚ) / (max w h : ℤ)

theorem le_aspect (hw : 0 < w) : r ≤ aspect w h ↔ r * (max w h : ℤ) ≤ (min w h : ℤ) := by
  have hpos : (0 : ℚ) < (max w h : ℤ) := by exact_mod_cast lt_max_of_lt_left hw
  exact le_div_iff₀ hpos

theorem aspect_comm (w h : ℤ) : aspect w h = aspect h w := by
  unfold aspect
  rw [min_comm, max_comm]

theorem le_aspect_square (hw : 0 < w) (hr : r ≤ 1) : r ≤ aspect w w := by
  have hpos : (0 : ℚ) < w := by exact_mod_cast hw
  rw [le_aspect hw, max_self, min_self]
  nlinarith

theorem ceilSqrt_le (q : ℚ) (hq : 0 ≤ q) : q ≤ ceilSqrt q * ceilSqrt q := by
  have hn : q ≤ (⌈q⌉.toNat : ℚ) := by
    have h : ((⌈q⌉.toNat : ℤ) : ℚ) = ⌈q⌉ := by rw [Int.toNat_of_nonneg (Int.ceil_nonneg hq)]
    have hle := Int.le_ceil q
    rw [← h] at hle
    exact_mod_cast hle
  unfold ceilSqrt
  dsimp only
  generalize ⌈q⌉.toNat = n at hn
  split
  · next hsq =>
    apply hn.trans_eq
    exact_mod_cast hsq.symm
  · have hlt : (n : ℚ) < ((Nat.sqrt n + 1) * (Nat.sqrt n + 1) : ℕ) := by
      exact_mod_cast Nat.lt_succ_sqrt n
    push_cast at hlt ⊢
    exact hn.trans hlt.le

theorem lt_of_lt_ceilSqrt {q : ℚ} (hb : 0 ≤ b) (h : b < ceilSqrt q) : (b * b : ℚ) < q := by
  by_contra hle
  have hceil : ⌈q⌉ ≤ b * b := Int.ceil_le.mpr (by exact_mod_cast not_lt.mp hle)
  have hn : ⌈q⌉.toNat ≤ b.toNat * b.toNat := by
    rw [Int.toNat_le, Nat.cast_mul, Int.toNat_of_nonneg hb]
    exact hceil
  have hs := Nat.sqrt_le_sqrt hn
  rw [Nat.sqrt_eq] at hs
  unfold ceilSqrt at h
  dsimp only at h
  split at h
  · omega
  · next hsq =>
    apply hsq
    have heq : Nat.sqrt ⌈q⌉.toNat = b.toNat := by omega
    have hle := Nat.sqrt_le ⌈q⌉.toNat
    rw [heq] at hle ⊢
    exact le_antisymm hle hn

theorem lt_ceilDiv {k : ℤ} (hb : 0 < b) (h : k * b < area) : k < ceilDiv area b := by
  by_contra hn
  have hle := le_ceilDiv_mul (a := area) hb
  nlinarith [not_lt.mp hn]

theorem largestFactor_le (area : ℤ) (n : ℕ) : largestFactor area n ≤ max (n : ℤ) 1 := by
  induction n with
  | zero => exact le_max_right _ _
  | succ n ih =>
    unfold largestFactor
    split
    · exact_mod_cast le_max_left _ _
    · exact ih.trans (max_le_max (by push_cast; omega) le_rfl)

theorem le_largestFactor {d : ℤ} {n : ℕ} (hd : 0 < d) (hn : d ≤ n) (hdvd : d ∣ area) :
    d ≤ largestFactor area n := by
  induction n with
  | zero => omega
  | succ n ih =>
    unfold largestFactor
    split
    · exact_mod_cast hn
    · next hmod =>
      apply ih
      have hne : d ≠ (n : ℤ) + 1 := by
        rintro rfl
        exact hmod (Int.emod_eq_zero_of_dvd hdvd)
      push_cast at hn
      omega

structure Squarest (area : ℤ) (wh : ℤ × ℤ) : Prop where
  height : 0 < wh.2
  landscape : wh.2 ≤ wh.1
  product : wh.1 * wh.2 = area
  greatest : ∀ d, 0 < d → d * d ≤ area → d ∣ area → d ≤ wh.2

theorem squarestRectangle_squarest (ha : 0 < area) :
    ∃ wh, squarestRectangle area = .ok wh ∧ Squarest area wh := by
  obtain ⟨hp, hd⟩ := largestFactor_spec area (Nat.sqrt area.toNat)
  have hroot : (Nat.sqrt area.toNat : ℤ) * Nat.sqrt area.toNat ≤ area := by
    have hle := Nat.sqrt_le area.toNat
    zify at hle
    rwa [Int.toNat_of_nonneg ha.le] at hle
  have hone : (1 : ℤ) ≤ Nat.sqrt area.toNat := by
    exact_mod_cast Nat.sqrt_pos.mpr (Int.pos_iff_toNat_pos.mp ha)
  have hle := largestFactor_le area (Nat.sqrt area.toNat)
  rw [max_eq_left hone] at hle
  have he := Int.ediv_mul_cancel hd
  refine ⟨(area / largestFactor area (Nat.sqrt area.toNat),
    largestFactor area (Nat.sqrt area.toNat)), ?_, hp, ?_, he, fun d hd0 hsq hdvd => ?_⟩
  · simp only [squarestRectangle, show ¬ area < 0 by omega, show area ≠ 0 by omega, if_false]
  · dsimp only
    by_contra hlt
    nlinarith
  · apply le_largestFactor hd0 _ hdvd
    have hd' : d.toNat ≤ Nat.sqrt area.toNat := by
      rw [Nat.le_sqrt]
      zify
      rwa [Int.toNat_of_nonneg hd0.le, Int.toNat_of_nonneg ha.le]
    omega

structure LeastHeight (area : ℤ) (ratio : ℚ) (h : ℤ) : Prop where
  pos : 0 < h
  enough : area * ratio ≤ h * h
  least : ∀ b : ℤ, 0 ≤ b → b < h → (b * b : ℚ) < area * ratio

theorem LeastHeight.unique {h' : ℤ} (hh : LeastHeight area ratio h)
    (hh' : LeastHeight area ratio h') : h = h' := by
  obtain hlt | heq | hlt := lt_trichotomy h h'
  · exact absurd hh.enough (not_le.mpr (hh'.least h hh.pos.le hlt))
  · exact heq
  · exact absurd hh'.enough (not_le.mpr (hh.least h' hh'.pos.le hlt))

theorem leastHeight_ceilSqrt (ha : 0 < area) (hr : 0 < ratio) :
    LeastHeight area ratio (ceilSqrt (area * ratio)) := by
  have hq : (0 : ℚ) < area * ratio := mul_pos (by exact_mod_cast ha) hr
  exact ⟨ceilSqrt_pos hq, ceilSqrt_le _ hq.le, fun b hb h => lt_of_lt_ceilSqrt hb h⟩

theorem rectangleWithAspectRatio_eq (ha : 0 < area) (h0 : 0 < ratio) (h1 : ratio ≤ 1) :
    rectangleWithAspectRatio area ratio =
      .ok (max (ceilDiv area (ceilSqrt (area * ratio))) (ceilSqrt (area * ratio)),
        ceilSqrt (area * ratio)) := by
  simp only [rectangleWithAspectRatio, show ¬ area < 0 by omega, show ¬ area ≤ 0 by omega, h0, h1,
    and_self, not_true, if_false]

/-- A landscape rectangle that can be squeezed to any width without breaking the ratio, unless
it gets higher than wide. -/
structure Ideal (size : ℤ) (ratio : ℚ) (wh : ℤ × ℤ) : Prop extends Covers size wh where
  landscape : wh.2 ≤ wh.1
  square : ∀ b, 0 ≤ b → b < wh.2 → b * b < size
  squeezed : ∀ b, 0 < b → b < wh.1 → ratio * b ≤ ceilDiv size b

theorem Squarest.ideal {wh : ℤ × ℤ} (hs : Squarest area wh) (hr : 0 ≤ ratio)
    (hratio : ratio ≤ (wh.2 : ℚ) / wh.1) : Ideal area ratio wh := by
  obtain ⟨w, h⟩ := wh
  have hh := hs.height
  have hl := hs.landscape
  have ha := hs.product
  dsimp only at hh hl ha hratio
  have hw : 0 < w := by omega
  refine ⟨⟨hw, hh, ha.ge⟩, hl, fun b hb hlt => ?_, fun b hb hlt => ?_⟩
  · dsimp only at hlt
    nlinarith
  · dsimp only at hlt
    have hceil : h < ceilDiv area b := lt_ceilDiv hb (by nlinarith)
    rw [le_div_iff₀ (by exact_mod_cast hw)] at hratio
    have hb' : (b : ℚ) ≤ w := by exact_mod_cast hlt.le
    have hc' : (h : ℚ) ≤ ceilDiv area b := by exact_mod_cast hceil.le
    nlinarith

theorem LeastHeight.ideal (hh : LeastHeight area ratio h) (ha : 0 < area) (hr : 0 < ratio)
    (h1 : ratio ≤ 1) : Ideal area ratio (max (ceilDiv area h) h, h) := by
  have hpos : (0 : ℚ) < h := by exact_mod_cast hh.pos
  have ha' : (0 : ℚ) < area := by exact_mod_cast ha
  have hsquare (b : ℤ) (hb : 0 ≤ b) (hlt : b < h) : b * b < area := by
    have hq := hh.least b hb hlt
    have hle : (area : ℚ) * ratio ≤ area := by nlinarith
    exact_mod_cast hq.trans_le hle
  refine ⟨⟨lt_max_of_lt_right hh.pos, hh.pos, ?_⟩, le_max_right _ _, hsquare, fun b hb hlt => ?_⟩
  · exact (le_ceilDiv_mul hh.pos).trans
      (mul_le_mul_of_nonneg_right (le_max_left _ _) hh.pos.le)
  · have hb' : (0 : ℚ) < b := by exact_mod_cast hb
    obtain hlt | hlt := lt_max_iff.mp hlt
    · have hbh : b * h < area := by
        by_contra hle
        exact absurd (ceilDiv_le hh.pos (not_lt.mp hle)) (not_le.mpr hlt)
      have hceil : h < ceilDiv area b := lt_ceilDiv hb (by linarith)
      have hc' : (h : ℚ) ≤ ceilDiv area b := by exact_mod_cast hceil.le
      have hbh' : (b : ℚ) * h ≤ area := by exact_mod_cast hbh.le
      have hrb : ratio * b ≤ h := by
        by_contra hgt
        have hsq : (h : ℚ) * h < ratio * b * h := by nlinarith [not_le.mp hgt]
        nlinarith [hh.enough]
      exact hrb.trans hc'
    · have hceil : b < ceilDiv area b := lt_ceilDiv hb (hsquare b hb.le hlt)
      have hc' : (b : ℚ) ≤ ceilDiv area b := by exact_mod_cast hceil.le
      nlinarith

theorem idealRectangle_ideal (ha : 0 < area) (h0 : 0 ≤ ratio) (h1 : ratio ≤ 1) :
    ∃ wh, idealRectangle area ratio = .ok wh ∧ Ideal area ratio wh := by
  obtain ⟨⟨w, h⟩, he, hs⟩ := squarestRectangle_squarest ha
  unfold idealRectangle
  rw [he]
  dsimp only
  split
  · next hlt =>
    have hw : (0 : ℚ) < w := by exact_mod_cast hs.height.trans_le hs.landscape
    have hh : (0 : ℚ) < h := by exact_mod_cast hs.height
    have hr : 0 < ratio := (div_pos hh hw).trans hlt
    exact ⟨_, rectangleWithAspectRatio_eq ha hr h1,
      (leastHeight_ceilSqrt ha hr).ideal ha hr h1⟩
  · next hge => exact ⟨_, rfl, hs.ideal h0 (not_lt.mp hge)⟩

theorem fitRectangle_small (hl : h ≤ w) (hw : w ≤ min boundWidth boundHeight) :
    fitRectangle area boundWidth boundHeight ratio (rotate boundWidth boundHeight (w, h)) =
      some (rotate boundWidth boundHeight (w, h)) := by
  obtain ⟨hbw, hbh⟩ := le_min_iff.mp hw
  unfold fitRectangle rotate
  split
  · exact if_pos ⟨hl.trans hbw, hbh⟩
  · exact if_pos ⟨hbw, hl.trans hbh⟩

theorem fitRectangle_large (hi : Ideal area ratio (w, h)) (hbw : 0 < boundWidth)
    (hbh : 0 < boundHeight) (harea : area ≤ boundWidth * boundHeight)
    (hlt : min boundWidth boundHeight < w) :
    fitRectangle area boundWidth boundHeight ratio (rotate boundWidth boundHeight (w, h)) =
      if ratio ≤ aspect (min boundWidth boundHeight) (ceilDiv area (min boundWidth boundHeight)) then
        some (if boundWidth ≤ boundHeight then (boundWidth, ceilDiv area boundWidth)
          else (ceilDiv area boundHeight, boundHeight))
      else none := by
  have hl := hi.landscape
  dsimp only at hl
  by_cases hbox : boundWidth ≤ boundHeight
  · rw [min_eq_left hbox] at hlt ⊢
    have hrotate : rotate boundWidth boundHeight (w, h) = (w, h) :=
      if_neg fun hgt => absurd hgt.1 (not_lt.mpr hbox)
    have hsquish : squish area boundWidth boundHeight (w, h) =
        (boundWidth, ceilDiv area boundWidth) := if_pos hlt
    unfold fitRectangle
    rw [hrotate, hsquish, if_neg fun hfit => absurd hfit.1 (not_le.mpr hlt), if_pos hbox]
    rfl
  · have hbox' := not_le.mp hbox
    rw [min_eq_right hbox'.le] at hlt ⊢
    have hrotate : rotate boundWidth boundHeight (w, h) = (h, w) := by
      unfold rotate
      split
      · rfl
      · next hno =>
        have hle : w ≤ h := by
          by_contra hgt
          exact hno ⟨hbox', not_le.mp hgt⟩
        rw [le_antisymm hle hl]
    -- the shorter side always fits across the longer side of the box
    have hside : h ≤ boundWidth := by
      by_contra hgt
      have hsq := hi.square boundWidth hbw.le (not_le.mp hgt)
      nlinarith
    have hsquish : squish area boundWidth boundHeight (h, w) =
        (ceilDiv area boundHeight, boundHeight) := by
      unfold squish
      rw [if_neg (not_lt.mpr hside), if_pos hlt]
    unfold fitRectangle
    rw [hrotate, hsquish, if_neg fun hfit => absurd hfit.2 (not_le.mpr hlt), if_neg hbox,
      aspect_comm]
    rfl

/-- A rectangle of the area and the ratio fits the bounding box. -/
def Feasible (area boundWidth boundHeight : ℤ) (ratio : ℚ) : Prop :=
  ∃ a b, 1 ≤ a ∧ a ≤ boundWidth ∧ 1 ≤ b ∧ b ≤ boundHeight ∧ area ≤ a * b ∧ ratio ≤ aspect a b

theorem feasible_square (hw : 0 < w) (harea : area ≤ w * w) (hle : w ≤ min boundWidth boundHeight)
    (h1 : ratio ≤ 1) : Feasible area boundWidth boundHeight ratio :=
  ⟨w, w, hw, (le_min_iff.mp hle).1, hw, (le_min_iff.mp hle).2, harea, le_aspect_square hw h1⟩

theorem ceilDiv_bound (hbw : 0 < boundWidth) (hbh : 0 < boundHeight)
    (harea : area ≤ boundWidth * boundHeight) :
    ceilDiv area boundWidth ≤ boundHeight ∧ ceilDiv area boundHeight ≤ boundWidth :=
  ⟨ceilDiv_le hbw (by rwa [mul_comm]), ceilDiv_le hbh harea⟩

/-- What is squeezed to the shorter side of the box has the best ratio that there is, when it is
not wider than that. -/
theorem aspect_of_feasible {s : ℤ} (hs : 0 < s) (h0 : 0 ≤ ratio) (hlong : s ≤ ceilDiv area s)
    {a b : ℤ} (ha : 1 ≤ a) (hmin : min a b ≤ s) (harea : area ≤ a * b)
    (hr : ratio ≤ aspect a b) : ratio ≤ aspect s (ceilDiv area s) := by
  have hmax : ceilDiv area s ≤ max a b := by
    apply ceilDiv_le hs
    have hprod : a * b = max a b * min a b := (max_mul_min a b).symm
    rw [hprod] at harea
    have hpos : 0 < max a b := lt_max_of_lt_left (by omega)
    exact harea.trans (mul_le_mul_of_nonneg_left hmin hpos.le)
  rw [le_aspect (by omega)] at hr
  rw [le_aspect hs, max_eq_right hlong, min_eq_left hlong]
  have hmax' : ((ceilDiv area s : ℤ) : ℚ) ≤ (max a b : ℤ) := by exact_mod_cast hmax
  have hmin' : ((min a b : ℤ) : ℚ) ≤ s := by exact_mod_cast hmin
  nlinarith

theorem fitRectangle_none (hi : Ideal area ratio (w, h)) (ha : 0 < area) (hbw : 0 < boundWidth)
    (hbh : 0 < boundHeight) (harea : area ≤ boundWidth * boundHeight) (h0 : 0 ≤ ratio)
    (h1 : ratio ≤ 1) :
    fitRectangle area boundWidth boundHeight ratio (rotate boundWidth boundHeight (w, h)) = none ↔
      ¬Feasible area boundWidth boundHeight ratio := by
  have hcover := hi.area
  have hl := hi.landscape
  have hw := hi.width
  dsimp only at hcover hl hw
  by_cases hsmall : w ≤ min boundWidth boundHeight
  · rw [fitRectangle_small hl hsmall]
    refine iff_of_false nofun fun hno => hno ?_
    exact feasible_square hw (by nlinarith) hsmall h1
  · have hlt := not_le.mp hsmall
    rw [fitRectangle_large hi hbw hbh harea hlt]
    have hs : 0 < min boundWidth boundHeight := lt_min hbw hbh
    obtain ⟨hch, hcw⟩ := ceilDiv_bound hbw hbh harea
    have hc := ceilDiv_pos ha hs
    split
    · next hr =>
      refine iff_of_false nofun fun hno => hno ?_
      by_cases hbox : boundWidth ≤ boundHeight
      · rw [min_eq_left hbox] at hr hc
        refine ⟨boundWidth, ceilDiv area boundWidth, hbw, le_rfl, hc, hch, ?_, hr⟩
        rw [mul_comm]
        exact le_ceilDiv_mul hbw
      · rw [min_eq_right (not_le.mp hbox).le] at hr hc
        refine ⟨ceilDiv area boundHeight, boundHeight, hc, hcw, hbh, le_rfl, le_ceilDiv_mul hbh, ?_⟩
        rwa [aspect_comm]
    · next hr =>
      refine iff_of_true rfl fun ⟨a, b, ha, haw, hb, hbh', hab, hrab⟩ => hr ?_
      by_cases hlong : min boundWidth boundHeight ≤ ceilDiv area (min boundWidth boundHeight)
      · exact aspect_of_feasible hs h0 hlong ha (min_le_min haw hbh') hab hrab
      · have hshort := (not_le.mp hlong).le
        rw [le_aspect hs, max_eq_left hshort, min_eq_right hshort]
        exact hi.squeezed _ hs hlt

theorem landscape_nonneg {minRatio : ℚ} (h : 0 ≤ minRatio) : 0 ≤ landscape minRatio := by
  unfold landscape
  split
  · exact div_nonneg zero_le_one h
  · exact h

theorem areaToRect_eq {minRatio : ℚ} (ha : 0 < area) (hbw : 0 < boundWidth)
    (hbh : 0 < boundHeight) (hr : 0 ≤ minRatio) {wh : ℤ × ℤ}
    (hi : idealRectangle area (landscape minRatio) = .ok wh) :
    areaToRect area boundWidth boundHeight (some minRatio) =
      if area > boundWidth * boundHeight then .ok none
      else .ok (fitRectangle area boundWidth boundHeight (landscape minRatio)
        (rotate boundWidth boundHeight wh)) := by
  simp only [areaToRect, hi]
  rw [if_neg (by omega), if_neg (not_lt.mpr hr)]

theorem areaToRect_fits {minRatio : ℚ} (ha : 1 ≤ area) (hbw : 1 ≤ boundWidth)
    (hbh : 1 ≤ boundHeight) (hr : 0 ≤ minRatio) {w h : ℤ}
    (hret : areaToRect area boundWidth boundHeight (some minRatio) = .ok (some (w, h))) :
    w ≤ boundWidth ∧ h ≤ boundHeight := by
  obtain ⟨⟨w₀, h₀⟩, he, hi⟩ := idealRectangle_ideal ha (landscape_nonneg hr)
    (landscape_le_one minRatio)
  rw [areaToRect_eq ha hbw hbh hr he] at hret
  split at hret
  · cases hret
  next hle =>
  obtain ⟨hch, hcw⟩ := ceilDiv_bound hbw hbh (not_lt.mp hle)
  have hl := hi.landscape
  dsimp only at hl
  by_cases hsmall : w₀ ≤ min boundWidth boundHeight
  · obtain ⟨hw, hh⟩ := le_min_iff.mp hsmall
    rw [fitRectangle_small hl hsmall] at hret
    unfold rotate at hret
    split at hret
    · cases hret
      omega
    · cases hret
      omega
  · rw [fitRectangle_large hi hbw hbh (not_lt.mp hle) (not_le.mp hsmall)] at hret
    split at hret
    · split at hret
      · cases hret
        omega
      · cases hret
        omega
    · cases hret

/-- `area_to_rect` refuses just what is impossible, and what it returns fits and is large
enough. -/
theorem areaToRect_feasible {minRatio : ℚ} (ha : 1 ≤ area) (hbw : 1 ≤ boundWidth)
    (hbh : 1 ≤ boundHeight) (hr : 0 ≤ minRatio) :
    (areaToRect area boundWidth boundHeight (some minRatio) = .ok none ↔
      ¬Feasible area boundWidth boundHeight (landscape minRatio)) ∧
    ∀ w h, areaToRect area boundWidth boundHeight (some minRatio) = .ok (some (w, h)) →
      1 ≤ w ∧ w ≤ boundWidth ∧ 1 ≤ h ∧ h ≤ boundHeight ∧ area ≤ w * h := by
  obtain ⟨⟨w₀, h₀⟩, he, hi⟩ := idealRectangle_ideal ha (landscape_nonneg hr)
    (landscape_le_one minRatio)
  constructor
  · rw [areaToRect_eq ha hbw hbh hr he]
    split
    · next hgt =>
      refine iff_of_true rfl fun ⟨a, b, h1, haw, h2, hbh', hab, _⟩ => ?_
      nlinarith
    · next hle =>
      rw [← fitRectangle_none hi ha hbw hbh (not_lt.mp hle) (landscape_nonneg hr)
        (landscape_le_one minRatio)]
      exact ⟨Except.ok.inj, congrArg Except.ok⟩
  · intro w h hret
    have hcovers := areaToRect_covers hret
    obtain ⟨hfw, hfh⟩ := areaToRect_fits ha hbw hbh hr hret
    exact ⟨hcovers.width, hfw, hcovers.height, hfh, hcovers.area⟩

theorem areaToRect_feasible_prime :
    areaToRect 5 3 3 (some (1 / 2)) = .ok (some (3, 2)) ∧ areaToRect 5 2 3 (some 1) = .ok none ∧
      Feasible 5 3 3 (1 / 2) ∧ ¬Feasible 5 2 3 1 := by
  have hland : landscape (1 / 2) = 1 / 2 ∧ landscape 1 = 1 := by decide +kernel
  have hno : areaToRect 5 2 3 (some 1) = .ok none ↔ ¬Feasible 5 2 3 (landscape 1) :=
    (areaToRect_feasible (by decide) (by decide) (by decide) (by decide)).1
  have hyes : areaToRect 5 3 3 (some (1 / 2)) = .ok none ↔ ¬Feasible 5 3 3 (landscape (1 / 2)) :=
    (areaToRect_feasible (by decide) (by decide) (by decide) (by decide +kernel)).1
  have hfirst : areaToRect 5 3 3 (some (1 / 2)) = .ok (some (3, 2)) := by decide +kernel
  have hsecond : areaToRect 5 2 3 (some 1) = .ok none := by decide +kernel
  rw [hland.2] at hno
  rw [hland.1, hfirst] at hyes
  have hfeasible : Feasible 5 3 3 (1 / 2) := by
    by_contra h
    cases hyes.mpr h
  exact ⟨hfirst, hsecond, hfeasible, hno.mp hsecond⟩

/-- The area is a product of two sides that have the ratio. -/
def Divides (area : ℤ) (ratio : ℚ) : Prop :=
  ∃ a b, 1 ≤ a ∧ 1 ≤ b ∧ a * b = area ∧ ratio ≤ aspect a b

/-- At the least height there is a whole width for the area and the ratio. -/
def Rounds (area : ℤ) (ratio : ℚ) : Prop :=
  ∃ h w : ℤ, LeastHeight area ratio h ∧ area ≤ w * h ∧ ratio * w ≤ h

/-- At the least height the area is too wide for the shorter side of the box. -/
def Overflows (area boundWidth boundHeight : ℤ) (ratio : ℚ) : Prop :=
  ∀ h, LeastHeight area ratio h →
    min boundWidth boundHeight < h ∨ min boundWidth boundHeight * h < area

theorem Squarest.divides_iff {wh : ℤ × ℤ} (hs : Squarest area wh) :
    Divides area ratio ↔ ratio ≤ (wh.2 : ℚ) / wh.1 := by
  obtain ⟨w, h⟩ := wh
  have hh := hs.height
  have hl := hs.landscape
  have hp := hs.product
  dsimp only at hh hl hp ⊢
  have hw : 0 < w := hh.trans_le hl
  rw [le_div_iff₀ (by exact_mod_cast hw)]
  constructor
  · intro ⟨a, b, ha, hb, hab, hr⟩
    rw [le_aspect (by omega)] at hr
    have hprod : max a b * min a b = area := (max_mul_min a b).trans hab
    have hmin : 0 < min a b := lt_min ha hb
    have hle : min a b ≤ h := hs.greatest _ hmin (by nlinarith [min_le_max (a := a) (b := b)])
      ⟨max a b, by rw [mul_comm]; exact hprod.symm⟩
    have hmax : w ≤ max a b := by
      by_contra hgt
      nlinarith
    have hle' : ((min a b : ℤ) : ℚ) ≤ h := by exact_mod_cast hle
    have hmax' : (w : ℚ) ≤ (max a b : ℤ) := by exact_mod_cast hmax
    by_cases hr0 : 0 ≤ ratio
    · nlinarith
    · have hw' : (0 : ℚ) < w := by exact_mod_cast hw
      have hh' : (0 : ℚ) < h := by exact_mod_cast hh
      nlinarith [not_le.mp hr0]
  · intro hr
    refine ⟨w, h, hw, hh, hp, ?_⟩
    rwa [le_aspect hw, max_eq_left hl, min_eq_right hl]

theorem LeastHeight.rounds_iff (hh : LeastHeight area ratio h) (h1 : ratio ≤ 1) :
    Rounds area ratio ↔ ratio * (max (ceilDiv area h) h : ℤ) ≤ h := by
  have hpos : (0 : ℚ) < h := by exact_mod_cast hh.pos
  constructor
  · intro ⟨h', w, hh', harea, hr⟩
    obtain rfl := hh.unique hh'
    obtain hm | hm := max_choice (ceilDiv area h) h
    · have hle : ((ceilDiv area h : ℤ) : ℚ) ≤ w := by exact_mod_cast ceilDiv_le hh.pos harea
      have hge : h ≤ ceilDiv area h := max_eq_left_iff.mp hm
      have hge' : (h : ℚ) ≤ ceilDiv area h := by exact_mod_cast hge
      rw [hm]
      by_cases hr0 : 0 ≤ ratio
      · nlinarith
      · nlinarith [not_le.mp hr0]
    · rw [hm]
      nlinarith
  · intro hr
    refine ⟨h, max (ceilDiv area h) h, hh, ?_, hr⟩
    exact (le_ceilDiv_mul hh.pos).trans (mul_le_mul_of_nonneg_right (le_max_left _ _) hh.pos.le)

theorem rectangleWithAspectRatio_iff (ha : 0 < area) (h0 : 0 < ratio) (h1 : ratio ≤ 1) :
    (∃ w h, rectangleWithAspectRatio area ratio = .ok (w, h) ∧ area ≤ w * h ∧
      ratio ≤ (h : ℚ) / w ∧ (h : ℚ) / w ≤ 1) ↔ Rounds area ratio := by
  have hh := leastHeight_ceilSqrt ha h0
  have hi := hh.ideal ha h0 h1
  have hw : (0 : ℚ) < (max (ceilDiv area (ceilSqrt (area * ratio))) (ceilSqrt (area * ratio)) : ℤ) := by
    exact_mod_cast hi.width
  rw [hh.rounds_iff h1, rectangleWithAspectRatio_eq ha h0 h1, ← le_div_iff₀ hw]
  constructor
  · rintro ⟨w, h, heq, -, hr, -⟩
    cases heq
    exact hr
  · intro hr
    refine ⟨_, _, rfl, hi.area, hr, (div_le_one hw).mpr ?_⟩
    exact_mod_cast hi.landscape

theorem fitRectangle_ratio (hi : Ideal area ratio (w, h)) (hbw : 0 < boundWidth)
    (hbh : 0 < boundHeight) (harea : area ≤ boundWidth * boundHeight) :
    (∀ w' h', fitRectangle area boundWidth boundHeight ratio
        (rotate boundWidth boundHeight (w, h)) = some (w', h') → ratio ≤ aspect w' h') ↔
      (w ≤ min boundWidth boundHeight → ratio ≤ (h : ℚ) / w) := by
  have hl := hi.landscape
  have hw := hi.width
  dsimp only at hl hw
  by_cases hsmall : w ≤ min boundWidth boundHeight
  · have haspect : aspect (rotate boundWidth boundHeight (w, h)).1
        (rotate boundWidth boundHeight (w, h)).2 = (h : ℚ) / w := by
      have hland : aspect w h = (h : ℚ) / w := by
        unfold aspect
        rw [max_eq_left hl, min_eq_right hl]
      unfold rotate
      split
      · rw [aspect_comm]
        exact hland
      · exact hland
    rw [fitRectangle_small hl hsmall, ← haspect]
    constructor
    · exact fun hall _ => hall _ _ rfl
    · intro hr w' h' heq
      have hr' := hr hsmall
      rw [Option.some.inj heq] at hr'
      exact hr'
  · rw [fitRectangle_large hi hbw hbh harea (not_le.mp hsmall)]
    refine iff_of_true (fun w' h' heq => ?_) fun hno => absurd hno hsmall
    split at heq
    · next hr =>
      split at heq
      · next hbox =>
        cases heq
        rwa [min_eq_left hbox] at hr
      · next hbox =>
        cases heq
        rw [min_eq_right (not_le.mp hbox).le] at hr
        rwa [aspect_comm]
    · cases heq

/-- `area_to_rect` keeps the ratio of its result just when the area has sides of the ratio, or
rounding up keeps it, or the rounded shape does not fit across the shorter side of the box; and
`rectangle_with_aspect_ratio` does just when rounding up keeps it. -/
theorem areaToRect_ratio {minRatio : ℚ} (ha : 1 ≤ area) (hbw : 1 ≤ boundWidth)
    (hbh : 1 ≤ boundHeight) (hr : 0 ≤ minRatio) :
    ((∀ w h, areaToRect area boundWidth boundHeight (some minRatio) = .ok (some (w, h)) →
        landscape minRatio ≤ aspect w h) ↔
      Divides area (landscape minRatio) ∨ Rounds area (landscape minRatio) ∨
        Overflows area boundWidth boundHeight (landscape minRatio)) ∧
    (0 < landscape minRatio →
      ((∃ w h, rectangleWithAspectRatio area (landscape minRatio) = .ok (w, h) ∧ area ≤ w * h ∧
        landscape minRatio ≤ (h : ℚ) / w ∧ (h : ℚ) / w ≤ 1) ↔
          Rounds area (landscape minRatio))) := by
  have h0 := landscape_nonneg hr
  have h1 := landscape_le_one minRatio
  refine ⟨?_, fun hpos => rectangleWithAspectRatio_iff ha hpos h1⟩
  obtain ⟨⟨w, h⟩, he, hs⟩ := squarestRectangle_squarest ha
  have hdivides : Divides area (landscape minRatio) ↔ landscape minRatio ≤ (h : ℚ) / w :=
    hs.divides_iff
  by_cases hratio : landscape minRatio ≤ (h : ℚ) / w
  · -- the squarest rectangle has the ratio
    have hideal : idealRectangle area (landscape minRatio) = .ok (w, h) := by
      unfold idealRectangle
      rw [he]
      exact if_neg (not_lt.mpr hratio)
    refine iff_of_true ?_ (.inl (hdivides.mpr hratio))
    rw [areaToRect_eq ha hbw hbh hr hideal]
    intro w' h' hret
    split at hret
    · cases hret
    · next hle =>
      exact (fitRectangle_ratio (hs.ideal h0 hratio) hbw hbh (not_lt.mp hle)).mpr (fun _ => hratio)
        w' h' (Except.ok.inj hret)
  · have hlt := not_le.mp hratio
    have hw : (0 : ℚ) < w := by exact_mod_cast hs.height.trans_le hs.landscape
    have hh : (0 : ℚ) < h := by exact_mod_cast hs.height
    have hpos : 0 < landscape minRatio := (div_pos hh hw).trans hlt
    have hleast := leastHeight_ceilSqrt ha hpos
    have hi := hleast.ideal ha hpos h1
    have hideal : idealRectangle area (landscape minRatio) =
        .ok (max (ceilDiv area (ceilSqrt (area * landscape minRatio)))
          (ceilSqrt (area * landscape minRatio)), ceilSqrt (area * landscape minRatio)) := by
      unfold idealRectangle
      rw [he]
      dsimp only
      rw [if_pos hlt, rectangleWithAspectRatio_eq ha hpos h1]
    have hno : ¬Divides area (landscape minRatio) := fun hd => hratio (hdivides.mp hd)
    rw [areaToRect_eq ha hbw hbh hr hideal, or_iff_right hno]
    generalize ceilSqrt (area * landscape minRatio) = h at hleast hi
    have hwide : (0 : ℚ) < (max (ceilDiv area h) h : ℤ) := by exact_mod_cast hi.width
    split
    · next hgt =>
      refine iff_of_true nofun (.inr fun h' _ => ?_)
      obtain hle | hlt' := le_or_gt h' (min boundWidth boundHeight)
      · right
        have hmul : min boundWidth boundHeight * h' ≤
            min boundWidth boundHeight * max boundWidth boundHeight :=
          mul_le_mul_of_nonneg_left (hle.trans min_le_max) (le_min (by omega) (by omega))
        rw [min_mul_max] at hmul
        omega
      · exact .inl hlt'
    · next hle =>
      have hfit := fitRectangle_ratio hi hbw hbh (not_lt.mp hle)
      rw [le_div_iff₀ hwide, ← hleast.rounds_iff h1] at hfit
      have hok : (∀ w' h', (Except.ok (fitRectangle area boundWidth boundHeight (landscape minRatio)
          (rotate boundWidth boundHeight (max (ceilDiv area h) h, h))) :
          Except Error (Option (ℤ × ℤ))) = .ok (some (w', h')) → landscape minRatio ≤ aspect w' h') ↔
          (max (ceilDiv area h) h ≤ min boundWidth boundHeight → Rounds area (landscape minRatio)) := by
        rw [← hfit]
        exact forall_congr' fun w' => forall_congr' fun h' =>
          imp_congr_left ⟨Except.ok.inj, congrArg Except.ok⟩
      have hover : Overflows area boundWidth boundHeight (landscape minRatio) ↔
          ¬max (ceilDiv area h) h ≤ min boundWidth boundHeight := by
        rw [not_le, lt_max_iff, or_comm]
        constructor
        · intro hall
          apply (hall h hleast).imp_right
          intro hlt'
          exact lt_ceilDiv hleast.pos hlt'
        · rintro hall h' hleast'
          obtain rfl := hleast.unique hleast'
          apply hall.imp_right
          intro hlt'
          by_contra hge
          exact absurd (ceilDiv_le hleast.pos (not_lt.mp hge)) (not_le.mpr hlt')
      rw [hok, hover, imp_iff_not_or, or_comm]

/-- Five boards at a ratio of three to four are given three by two. -/
theorem areaToRect_not_ratio :
    areaToRect 5 10 10 (some (3 / 4)) = .ok (some (3, 2)) ∧
      rectangleWithAspectRatio 5 (3 / 4) = .ok (3, 2) ∧ ¬(3 / 4 : ℚ) ≤ aspect 3 2 := by
  decide +kernel

theorem areaToRect_ratio_two :
    areaToRect 2 4 3 (some (1 / 2)) = .ok (some (1, 2)) ∧ (1 / 2 : ℚ) ≤ aspect 1 2 := by
  have hland : landscape (1 / 2) = 1 / 2 := by decide +kernel
  have hratio : (∀ w h, areaToRect 2 4 3 (some (1 / 2)) = .ok (some (w, h)) →
      landscape (1 / 2) ≤ aspect w h) ↔ Divides 2 (landscape (1 / 2)) ∨
        Rounds 2 (landscape (1 / 2)) ∨ Overflows 2 4 3 (landscape (1 / 2)) :=
    (areaToRect_ratio (by decide) (by decide) (by decide) (by decide +kernel)).1
  have hret : areaToRect 2 4 3 (some (1 / 2)) = .ok (some (1, 2)) := by decide +kernel
  rw [hland] at hratio
  refine ⟨hret, hratio.mpr (.inl ⟨2, 1, by decide, by decide, by decide, ?_⟩) 1 2 hret⟩
  decide +kernel

end SpallocServer.AreaToRect
