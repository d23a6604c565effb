import SpallocServer.PackTree.Refinement

namespace SpallocServer.PackTree

open Foundation

variable {σ : Type} {f : Option (Filter σ)} {p : ℤ → ℤ → ℤ → ℤ → Bool} {t t' : PackTree}
  {r : Region} {al : Bool} {w h x y : ℤ}

/-- The answers of a filter are those of a predicate, whatever the filter remembers. -/
def Decides (f : Option (Filter σ)) (p : ℤ → ℤ → ℤ → ℤ → Bool) : Prop :=
  ∀ x y w h s, (accepts f x y w h s).1 = p x y w h

def Offers (p : ℤ → ℤ → ℤ → ℤ → Bool) (w h : ℤ) (t : PackTree) : Prop :=
  ∃ r, (r, false) ∈ t.leaves ∧ w ≤ r.width ∧ h ≤ r.height ∧
    ∃ c ∈ corners r w h, p c.1 c.2 w h = true

theorem offers_leaf : Offers p w h (.leaf r al) ↔ al = false ∧ w ≤ r.width ∧ h ≤ r.height ∧
    ∃ c ∈ corners r w h, p c.1 c.2 w h = true := by
  constructor
  · intro hpost
    obtain ⟨q, hq, hfit⟩ := hpost
    obtain ⟨rfl, rfl⟩ : q = r ∧ al = false := by simpa [leaves] using hq
    exact ⟨rfl, hfit⟩
  · intro hpost
    obtain ⟨hal, hfit⟩ := hpost
    exact ⟨r, by simp [leaves, hal], hfit⟩

theorem offers_node {a b : PackTree} :
    Offers p w h (.node r al a b) ↔ Offers p w h a ∨ Offers p w h b := by
  simp only [Offers, leaves, List.mem_append, or_and_right, exists_or]

theorem tryCorners_none_iff (hf : Decides f p) (l tried : List (ℤ × ℤ)) (s : σ) :
    (tryCorners f w h l tried s).1 = none ↔
      ∀ c ∈ l, c ∈ tried ∨ p c.1 c.2 w h = false := by
  induction l generalizing tried s with
  | nil => simp [tryCorners]
  | cons key rest ih =>
    have hkey := hf key.1 key.2 w h s
    unfold tryCorners
    split
    · next hin =>
      rw [ih, List.forall_mem_cons]
      have hrest (c : ℤ × ℤ) : c ∈ key :: tried ↔ c ∈ tried := by
        rw [List.mem_cons, or_iff_right_of_imp]
        intro he
        rwa [he]
      simp only [hrest, hin, true_or, true_and]
    · next hnew =>
      rw [List.forall_mem_cons]
      split
      · next s' ha =>
        rw [ha] at hkey
        simp [hnew, ← hkey]
      · next s' ha =>
        rw [ha] at hkey
        rw [ih, ← hkey]
        simp only [or_true, true_and]
        apply forall₂_congr
        intro c _
        rw [List.mem_cons]
        constructor
        · intro hc
          obtain (rfl | hc) | hc := hc
          · exact .inr hkey.symm
          · exact .inl hc
          · exact .inr hc
        · exact Or.imp_left .inr

theorem findAcceptable_none_iff (hf : Decides f p) (r : Region) (w h : ℤ) (s : σ) :
    (findAcceptable r w h f s).1 = none ↔ ¬∃ c ∈ corners r w h, p c.1 c.2 w h = true := by
  rw [findAcceptable, tryCorners_none_iff hf]
  simp

theorem Cut.narrower {a b : Region} (hc : r.Cut a b) (ha : a.Positive) (hb : b.Positive) :
    (a.width ≤ r.width ∧ a.height ≤ r.height) ∧ b.width ≤ r.width ∧ b.height ≤ r.height := by
  obtain ⟨haw, hah⟩ := ha
  obtain ⟨hbw, hbh⟩ := hb
  obtain ⟨y, h⟩ | ⟨x, h⟩ := hc <;> obtain ⟨rfl, rfl⟩ := Prod.mk.inj h <;>
    simp only [Region.hsplit, Region.vsplit] at * <;> omega

theorem Valid.leaf_le (ht : t.Valid) {q : Region × Bool} (hq : q ∈ t.leaves) :
    q.1.width ≤ t.region.width ∧ q.1.height ≤ t.region.height := by
  induction t with
  | leaf r al =>
    obtain rfl : q = (r, al) := by simpa [leaves] using hq
    exact ⟨le_rfl, le_rfl⟩
  | node r al a b iha ihb =>
    obtain ⟨-, hcut, -, ha, hb⟩ := ht
    obtain ⟨hca, hcb⟩ := Cut.narrower hcut ha.positive hb.positive
    obtain hq | hq := List.mem_append.mp hq
    · obtain ⟨hw, hh⟩ := iha ha hq
      exact ⟨hw.trans hca.1, hh.trans hca.2⟩
    · obtain ⟨hw, hh⟩ := ihb hb hq
      exact ⟨hw.trans hcb.1, hh.trans hcb.2⟩

theorem Offers.fits (ht : t.Valid) (ho : Offers p w h t) :
    w ≤ t.region.width ∧ h ≤ t.region.height := by
  obtain ⟨r, hr, hw, hh, -⟩ := ho
  obtain ⟨hrw, hrh⟩ := ht.leaf_le hr
  exact ⟨hw.trans hrw, hh.trans hrh⟩

theorem alloc_leaf_none_iff (hf : Decides f p) (r : Region) (al : Bool) (s : σ) :
    (alloc f w h (.leaf r al) s).1 = none ↔ ¬Offers p w h (.leaf r al) := by
  have hfind := findAcceptable_none_iff hf r w h s
  rw [offers_leaf]
  unfold alloc
  split
  · next hal => simp [hal]
  next hal =>
  split
  · next hbig =>
    refine iff_of_true rfl fun ho => ?_
    obtain ⟨-, hw, hh, -⟩ := ho
    omega
  next hfit =>
  have hal' : al = false := by simpa using hal
  have hw : w ≤ r.width := by omega
  have hh : h ≤ r.height := by omega
  simp only [hal', hw, hh, true_and]
  generalize findAcceptable r w h f s = res at hfind ⊢
  obtain ⟨_ | xy, s'⟩ := res
  · exact iff_of_true rfl (hfind.mp rfl)
  · exact iff_of_false (by simp) fun hno => absurd (hfind.mpr hno) (by simp)

theorem alloc_none_iff (hf : Decides f p) (ht : t.Valid) (s : σ) :
    (alloc f w h t s).1 = none ↔ ¬Offers p w h t := by
  induction t generalizing s with
  | leaf r al => exact alloc_leaf_none_iff hf r al s
  | node r al a b iha ihb =>
    have hv := ht
    obtain ⟨hal, -, -, ha, hb⟩ := ht
    unfold alloc
    rw [if_neg (by simp [hal])]
    split
    · next hbig =>
      refine iff_of_true rfl fun ho => ?_
      obtain ⟨hw, hh⟩ := ho.fits hv
      rw [region_node] at hw hh
      omega
    rw [offers_node, not_or]
    split
    · have hA := iha ha s
      generalize alloc f w h a s = res at hA ⊢
      obtain ⟨_ | xy, a', s'⟩ := res
      · have hB := ihb hb s'
        exact ⟨fun hn => ⟨hA.mp rfl, hB.mp hn⟩, fun hn => hB.mpr hn.2⟩
      · exact iff_of_false (by simp) fun hn => absurd (hA.mpr hn.1) (by simp)
    · have hB := ihb hb s
      generalize alloc f w h b s = res at hB ⊢
      obtain ⟨_ | xy, b', s'⟩ := res
      · have hA := iha ha s'
        exact ⟨fun hn => ⟨hA.mp hn, hB.mp rfl⟩, fun hn => hA.mpr hn.1⟩
      · exact iff_of_false (by simp) fun hn => absurd (hB.mpr hn.2) (by simp)

/-- The finished calls of `request`: each way that the source returns is a case of its own,
and the call on a leaf that has been cut is a call on what it has become. -/
inductive Returns (x y : ℤ) : PackTree → Option (ℤ × ℤ) → PackTree → Prop where
  | outside {t : PackTree} : (x, y) ∉ t.region.cells → Returns x y t none t
  | first {r : Region} {al : Bool} {a a' b : PackTree} {xy : ℤ × ℤ} :
    (x, y) ∈ r.cells → Returns x y a (some xy) a' →
    Returns x y (.node r al a b) (some xy) (.node r al a' b)
  | second {r : Region} {al : Bool} {a a' b b' : PackTree} {xy : Option (ℤ × ℤ)} :
    (x, y) ∈ r.cells → Returns x y a none a' → Returns x y b xy b' →
    Returns x y (.node r al a b) xy (.node r al a' b')
  | allocated {r : Region} :
    (x, y) ∈ r.cells → Returns x y (.leaf r true) none (.leaf r true)
  | unit {r : Region} :
    (x, y) ∈ r.cells → r.width = 1 ∧ r.height = 1 →
    Returns x y (.leaf r false) (some (r.x, r.y)) (.leaf r true)
  | cut {r : Region} {xy : Option (ℤ × ℤ)} {t : PackTree} :
    (x, y) ∈ r.cells → ¬(r.width = 1 ∧ r.height = 1) →
    Returns x y (.node r false (.leaf (cutAround r x y).1 false)
      (.leaf (cutAround r x y).2 false)) xy t →
    Returns x y (.leaf r false) xy t

theorem requestLeaf_returns {n : ℕ} (hr : r.Positive) (hn : r.width + r.height ≤ n) :
    Returns x y (.leaf r al) (requestLeaf x y n r al).1 (requestLeaf x y n r al).2 := by
  induction n generalizing r al with
  | zero =>
    obtain ⟨hw, hh⟩ := hr
    push_cast at hn
    omega
  | succ n ih =>
    unfold requestLeaf
    by_cases hc : (x, y) ∈ r.cells
    · rw [if_neg (not_not.mpr (Region.contains_iff.mpr hc))]
      cases al with
      | true => exact .allocated hc
      | false =>
        rw [if_neg Bool.false_ne_true]
        split
        · next h1 => exact .unit hc h1
        · next h1 =>
          obtain ⟨hcut, hp, hq⟩ := cutAround_spec hr hc h1
          obtain ⟨hsp, hsq⟩ := cut_size hcut hp hq
          -- either half is smaller, so that the fuel left is enough for it
          have hA : Returns x y (.leaf (cutAround r x y).1 false) _ _ :=
            ih hp (by push_cast at hn; omega)
          have hB : Returns x y (.leaf (cutAround r x y).2 false) _ _ :=
            ih hq (by push_cast at hn; omega)
          apply Returns.cut hc h1
          dsimp only
          generalize requestLeaf x y n (cutAround r x y).1 false = res at hA ⊢
          obtain ⟨_ | xy, a'⟩ := res
          · exact .second hc hA hB
          · exact .first hc hA
    · rw [if_pos (mt Region.contains_iff.mp hc)]
      exact .outside hc

theorem request_returns (x y : ℤ) (ht : t.Valid) :
    Returns x y t (request x y t).1 (request x y t).2 := by
  induction t with
  | leaf r al => exact requestLeaf_returns ht (Int.self_le_toNat _)
  | node r al a b iha ihb =>
    obtain ⟨-, -, -, ha, hb⟩ := ht
    unfold request
    by_cases hc : (x, y) ∈ r.cells
    · rw [if_neg (not_not.mpr (Region.contains_iff.mpr hc))]
      have hA := iha ha
      generalize request x y a = res at hA ⊢
      obtain ⟨_ | xy, a'⟩ := res
      · exact .second hc hA (ihb hb)
      · exact .first hc hA
    · rw [if_pos (mt Region.contains_iff.mp hc)]
      exact .outside hc

def Uncovered (t : PackTree) (c : ℤ × ℤ) : Prop :=
  c ∈ t.region.cells ∧ ∀ r ∈ t.allocated, c ∉ r.cells

theorem request_some (x y : ℤ) (ht : t.Valid) :
    (request x y t).1 = some (x, y) ↔ t.Uncovered (x, y) := by
  have hR := request_spec x y ht
  generalize request x y t = res at hR ⊢
  obtain ⟨_ | xy, t'⟩ := res
  · obtain ⟨-, hno⟩ := hR.none rfl
    refine iff_of_false nofun fun ⟨hc, hfree⟩ => ?_
    obtain ⟨r, hr, hcr⟩ := ht.covered hno hc
    exact hfree r hr hcr
  · obtain ⟨rfl, hadd⟩ := hR.some xy rfl
    have hmem : (x, y) ∈ (⟨x, y, 1, 1⟩ : Region).cells :=
      Region.corner_mem ⟨one_pos, one_pos⟩
    refine iff_of_true rfl ⟨?_, fun q hq => hadd.fresh q hq _ hmem⟩
    rw [← hadd.region]
    exact hadd.valid.allocated_subset ((hadd.mem _).mpr (.inl rfl)) hmem

/-- Cells requested one after the other. -/
def requestAll : List (ℤ × ℤ) → PackTree → List (Option (ℤ × ℤ)) × PackTree
  | [], t => ([], t)
  | c :: cells, t =>
    let (xy, t) := request c.1 c.2 t
    let (xys, t) := requestAll cells t
    (xy :: xys, t)

theorem requestAll_some {cells : List (ℤ × ℤ)} (ht : t.Valid) (hnodup : cells.Nodup)
    (hfree : ∀ c ∈ cells, t.Uncovered c) : (requestAll cells t).1 = cells.map some := by
  induction cells generalizing t with
  | nil => rfl
  | cons c cells ih =>
    obtain ⟨hnew, hnodup⟩ := List.nodup_cons.mp hnodup
    have hsome := (request_some c.1 c.2 ht).mpr (hfree c List.mem_cons_self)
    have hR := request_spec c.1 c.2 ht
    simp only [requestAll, List.map_cons]
    generalize request c.1 c.2 t = res at hsome hR ⊢
    obtain ⟨xy, t'⟩ := res
    obtain ⟨-, hadd⟩ := hR.some (c.1, c.2) hsome
    have hrest : ∀ d ∈ cells, t'.Uncovered d := by
      intro d hd
      obtain ⟨hin, hno⟩ := hfree d (List.mem_cons_of_mem c hd)
      refine ⟨by rwa [hadd.region], fun q hq hdq => ?_⟩
      obtain rfl | hq := (hadd.mem q).mp hq
      · rw [Region.mem_cells] at hdq
        have hdc : d = c := Prod.ext (by dsimp only at hdq; omega) (by dsimp only at hdq; omega)
        exact hnew (hdc ▸ hd)
      · exact hno q hq hdq
    exact List.cons_eq_cons.mpr ⟨hsome, ih hadd.valid hnodup hrest⟩

/-- In every reachable state, `alloc` with a pure filter fails only where nothing is offered,
`request` comes to an end and gives every cell that is not covered, and all of these cells can
be requested in any order. -/
theorem searches_complete {x y width height : ℤ} (hw : 1 ≤ width) (hh : 1 ≤ height)
    (h : (system x y width height).Reachable t) :
    (∀ {σ : Type} (f : Option (Filter σ)) (p : ℤ → ℤ → ℤ → ℤ → Bool) (w h : ℤ) (s : σ),
      Decides f p → 1 ≤ w → 1 ≤ h → ((t.alloc f w h s).1 = none ↔
        ¬∃ r, (r, false) ∈ t.leaves ∧ w ≤ r.width ∧ h ≤ r.height ∧
          ∃ c ∈ corners r w h, p c.1 c.2 w h = true)) ∧
      (∀ px py, Returns px py t (t.request px py).1 (t.request px py).2 ∧
        ((t.request px py).1 = some (px, py) ↔
          (px, py) ∈ (⟨x, y, width, height⟩ : Region).cells ∧
            ∀ r ∈ t.allocated, (px, py) ∉ r.cells)) ∧
      ∀ cells : List (ℤ × ℤ), cells.Nodup →
        (∀ c ∈ cells, c ∈ (⟨x, y, width, height⟩ : Region).cells ∧
          ∀ r ∈ t.allocated, c ∉ r.cells) →
        (t.requestAll cells).1 = cells.map some := by
  obtain ⟨ht, hr⟩ := reachable_valid hw hh h
  rw [← hr]
  exact ⟨fun f p w h s hf _ _ => alloc_none_iff hf ht s,
    fun px py => ⟨request_returns px py ht, request_some px py ht⟩,
    fun cells hnodup hfree => requestAll_some ht hnodup hfree⟩

theorem searches_complete_four :
    ((((TreeCall.alloc 3 3 none ()).run (new 0 0 4 4)).2).alloc none 2 2 ()).1 = none ∧
      ((((TreeCall.alloc 3 3 none ()).run (new 0 0 4 4)).2).request 3 1).1 = some (3, 1) ∧
      ((((TreeCall.alloc 3 3 none ()).run (new 0 0 4 4)).2).requestAll [(0, 3), (3, 3)]).1 =
        [some (0, 3), some (3, 3)] := by
  have h0 : (system 0 0 4 4).Reachable (new 0 0 4 4) := .start rfl
  have h1 := h0.next (i := .alloc 3 3 none ()) ⟨by simp [TreeCall.Sized], rfl⟩
  obtain ⟨halloc, hrequest, hall⟩ := searches_complete (by decide) (by decide) h1
  have hleaves : ((TreeCall.alloc 3 3 none ()).run (new 0 0 4 4)).2.leaves =
      [(⟨0, 0, 3, 3⟩, true), (⟨0, 3, 3, 1⟩, false), (⟨3, 0, 1, 4⟩, false)] := by decide
  have hallocated : ((TreeCall.alloc 3 3 none ()).run (new 0 0 4 4)).2.allocated =
      [⟨0, 0, 3, 3⟩] := by decide
  refine ⟨?_, ?_, ?_⟩
  · rw [halloc none (fun _ _ _ _ => true) 2 2 () (fun _ _ _ _ _ => rfl) (by decide) (by decide),
      hleaves]
    simp
  · rw [(hrequest 3 1).2, hallocated]
    simp [Region.mem_cells]
  · apply hall [(0, 3), (3, 3)] (by decide)
    rw [hallocated]
    simp [Region.mem_cells]

end SpallocServer.PackTree
