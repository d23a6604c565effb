import Mathlib.Logic.Relation
import SpallocServer.Foundation.Tiling
import SpallocServer.PackTree

namespace SpallocServer

open Foundation

namespace Region

def cells (r : Region) : Set (ℤ × ℤ) := {c | r.contains c.1 c.2}

def Cut (r p q : Region) : Prop := (∃ y, (p, q) = r.hsplit y) ∨ ∃ x, (p, q) = r.vsplit x

def Positive (r : Region) : Prop := 0 < r.width ∧ 0 < r.height

theorem mem_cells {r : Region} {c : ℤ × ℤ} :
    c ∈ r.cells ↔ r.x ≤ c.1 ∧ c.1 < r.x + r.width ∧ r.y ≤ c.2 ∧ c.2 < r.y + r.height := by
  simp [cells, contains]

theorem contains_iff {r : Region} {x y : ℤ} : r.contains x y = true ↔ (x, y) ∈ r.cells := Iff.rfl

theorem corner_mem {r : Region} (h : r.Positive) : (r.x, r.y) ∈ r.cells := by
  obtain ⟨hw, hh⟩ := h
  rw [mem_cells]
  dsimp only
  omega

variable {r p q : Region}

theorem Cut.cover (h : Cut r p q) (hp : p.Positive) (hq : q.Positive) (c : ℤ × ℤ) :
    c ∈ r.cells ↔ c ∈ p.cells ∨ c ∈ q.cells := by
  obtain ⟨hpw, hph⟩ := hp
  obtain ⟨hqw, hqh⟩ := hq
  rcases h with ⟨y, h⟩ | ⟨x, h⟩ <;> obtain ⟨rfl, rfl⟩ := Prod.mk.inj h <;>
    simp only [mem_cells] at * <;> omega

theorem Cut.apart (h : Cut r p q) : Apart cells p q := by
  intro c hp hq
  rcases h with ⟨y, h⟩ | ⟨x, h⟩ <;> obtain ⟨rfl, rfl⟩ := Prod.mk.inj h <;>
    simp only [mem_cells] at * <;> omega

theorem Cut.positive (h : Cut r p q) (hp : p.Positive) (hq : q.Positive) : r.Positive := by
  obtain ⟨hpw, hph⟩ := hp
  obtain ⟨hqw, hqh⟩ := hq
  rcases h with ⟨y, h⟩ | ⟨x, h⟩ <;> obtain ⟨rfl, rfl⟩ := Prod.mk.inj h <;>
    dsimp only at * <;> constructor <;> omega

end Region

namespace PackTree

variable {σ : Type}

/-- Leaves have positive sides, internal nodes are cut in two, are not allocated and have
something allocated below them. -/
def Valid : PackTree → Prop
  | .leaf r _ => r.Positive
  | .node r allocated a b =>
    allocated = false ∧ r.Cut a.region b.region ∧ ¬(a.isFree ∧ b.isFree) ∧ a.Valid ∧ b.Valid

theorem Valid.positive {t : PackTree} (h : t.Valid) : t.region.Positive := by
  induction t with
  | leaf r allocated => exact h
  | node r allocated a b iha ihb =>
    obtain ⟨-, hc, -, ha, hb⟩ := h
    exact hc.positive (iha ha) (ihb hb)

theorem Valid.tiles {t : PackTree} (h : t.Valid) :
    Tiles Region.cells (t.leaves.map (·.1)) t.region := by
  induction t with
  | leaf r allocated => exact Tiles.single r
  | node r allocated a b iha ihb =>
    obtain ⟨-, hc, -, ha, hb⟩ := h
    simp only [leaves, List.map_append]
    exact (iha ha).append (ihb hb) hc.apart (hc.cover ha.positive hb.positive)

theorem Valid.leaf_positive {t : PackTree} (h : t.Valid) : ∀ p ∈ t.leaves, p.1.Positive := by
  induction t with
  | leaf r allocated =>
    intro p hp
    simp only [leaves, List.mem_singleton] at hp
    subst hp
    exact h
  | node r allocated a b iha ihb =>
    obtain ⟨-, -, -, ha, hb⟩ := h
    intro p hp
    rcases List.mem_append.mp hp with hp | hp
    · exact iha ha p hp
    · exact ihb hb p hp

theorem mem_allocated {t : PackTree} {r : Region} : r ∈ t.allocated ↔ (r, true) ∈ t.leaves := by
  simp [allocated]

@[simp] theorem allocated_leaf_true (r : Region) : (leaf r true).allocated = [r] := rfl

@[simp] theorem allocated_leaf_false (r : Region) : (leaf r false).allocated = [] := rfl

@[simp] theorem allocated_node (r : Region) (al : Bool) (a b : PackTree) :
    (node r al a b).allocated = a.allocated ++ b.allocated := by
  simp [allocated, leaves]

@[simp] theorem region_leaf (r : Region) (al : Bool) : (leaf r al).region = r := rfl

@[simp] theorem region_node (r : Region) (al : Bool) (a b : PackTree) :
    (node r al a b).region = r := rfl

theorem mem_leaves_of_allocated {t : PackTree} {r : Region} (h : r ∈ t.allocated) :
    r ∈ t.leaves.map (·.1) :=
  List.mem_map.mpr ⟨(r, true), mem_allocated.mp h, rfl⟩

theorem Valid.allocated_positive {t : PackTree} (h : t.Valid) {r : Region}
    (hr : r ∈ t.allocated) : r.Positive :=
  h.leaf_positive _ (mem_allocated.mp hr)

theorem Valid.allocated_subset {t : PackTree} (h : t.Valid) {r : Region} (hr : r ∈ t.allocated)
    {c : ℤ × ℤ} (hc : c ∈ r.cells) : c ∈ t.region.cells :=
  h.tiles.subset (mem_leaves_of_allocated hr) hc

theorem Valid.allocated_unique {t : PackTree} (h : t.Valid) {p q : Region}
    (hp : p ∈ t.allocated) (hq : q ∈ t.allocated) {c : ℤ × ℤ} (hcp : c ∈ p.cells)
    (hcq : c ∈ q.cells) : p = q :=
  h.tiles.unique (mem_leaves_of_allocated hp) (mem_leaves_of_allocated hq) hcp hcq

theorem Valid.eq_of_corner {t : PackTree} (h : t.Valid) {p q : Region} (hp : p ∈ t.allocated)
    (hq : q ∈ t.allocated) (hx : p.x = q.x) (hy : p.y = q.y) : p = q := by
  refine h.allocated_unique hp hq (Region.corner_mem (h.allocated_positive hp)) ?_
  rw [hx, hy]
  exact Region.corner_mem (h.allocated_positive hq)

theorem isFree_of_allocated {t : PackTree} {r : Region} (h : r ∈ t.allocated) :
    t.isFree = false := by
  cases t with
  | leaf q al => cases al <;> simp_all [isFree]
  | node => rfl

theorem allocated_of_isFree {t : PackTree} (h : t.isFree) : t.allocated = [] := by
  cases t with
  | leaf q al => cases al <;> simp_all [isFree]
  | node => simp [isFree] at h

theorem Valid.allocated_nodup {t : PackTree} (h : t.Valid) : t.allocated.Nodup := by
  have hsub : List.Sublist t.allocated (t.leaves.map (·.1)) := List.filter_sublist.map _
  refine (h.tiles.apart.sublist hsub).imp_of_mem fun hp _ hap => ?_
  rintro rfl
  have hm := Region.corner_mem (h.allocated_positive hp)
  exact hap _ hm hm

theorem Valid.eq_new {t : PackTree} (h : t.Valid) (ha : t.allocated = []) :
    t = leaf t.region false := by
  induction t with
  | leaf r al => cases al <;> simp_all
  | node r al a b iha ihb =>
    obtain ⟨-, -, hfree, hva, hvb⟩ := h
    rw [allocated_node, List.append_eq_nil_iff] at ha
    rw [iha hva ha.1, ihb hvb ha.2] at hfree
    simp [isFree] at hfree

/-- `t'` is `t` with the rectangle `r` allocated as well. -/
structure Adds (t : PackTree) (r : Region) (t' : PackTree) : Prop where
  valid : t'.Valid
  region : t'.region = t.region
  mem : ∀ q, q ∈ t'.allocated ↔ q = r ∨ q ∈ t.allocated
  fresh : ∀ q ∈ t.allocated, Apart Region.cells r q

/-- `t'` is `t` with the rectangle `r` given back. -/
structure Removes (t : PackTree) (r : Region) (t' : PackTree) : Prop where
  valid : t'.Valid
  region : t'.region = t.region
  mem : ∀ q, q ∈ t'.allocated ↔ q ∈ t.allocated ∧ q ≠ r

section Nodes

variable {r : Region} {al : Bool} {a a' b b' : PackTree} {q : Region}

theorem Valid.apart_children (h : (node r al a b).Valid) {p q : Region} (hp : p ∈ a.allocated)
    (hq : q ∈ b.allocated) : Apart Region.cells p q := by
  obtain ⟨-, hc, -, ha, hb⟩ := h
  intro c hcp hcq
  exact hc.apart c (ha.allocated_subset hp hcp) (hb.allocated_subset hq hcq)

theorem Adds.left (h : (node r al a b).Valid) (hA : Adds a q a') :
    Adds (node r al a b) q (node r al a' b) := by
  obtain ⟨hal, hc, -, ha, hb⟩ := h
  have hq : q ∈ a'.allocated := (hA.mem q).mpr (.inl rfl)
  have hv : (node r al a' b).Valid :=
    ⟨hal, by rw [hA.region]; exact hc, by simp [isFree_of_allocated hq], hA.valid, hb⟩
  refine ⟨hv, rfl, fun p => ?_, fun p hp => ?_⟩
  · simp [hA.mem, or_assoc]
  · rw [allocated_node, List.mem_append] at hp
    rcases hp with hp | hp
    · exact hA.fresh p hp
    · exact hv.apart_children hq hp

theorem Adds.right (h : (node r al a b).Valid) (hA : Adds b q b') :
    Adds (node r al a b) q (node r al a b') := by
  obtain ⟨hal, hc, -, ha, hb⟩ := h
  have hq : q ∈ b'.allocated := (hA.mem q).mpr (.inl rfl)
  have hv : (node r al a b').Valid :=
    ⟨hal, by rw [hA.region]; exact hc, by simp [isFree_of_allocated hq], ha, hA.valid⟩
  refine ⟨hv, rfl, fun p => ?_, fun p hp => ?_⟩
  · simp only [allocated_node, List.mem_append, hA.mem]
    tauto
  · rw [allocated_node, List.mem_append] at hp
    rcases hp with hp | hp
    · exact (hv.apart_children hp hq).symm
    · exact hA.fresh p hp

theorem collapse_spec (hal : al = false) (hc : r.Cut a.region b.region) (ha : a.Valid)
    (hb : b.Valid) :
    (collapse r al a b).Valid ∧ (collapse r al a b).region = r ∧
      (collapse r al a b).allocated = a.allocated ++ b.allocated := by
  subst hal
  unfold collapse
  split
  · next h =>
    refine ⟨hc.positive ha.positive hb.positive, rfl, ?_⟩
    rw [allocated_of_isFree h.1, allocated_of_isFree h.2]
    rfl
  · next h => exact ⟨⟨rfl, hc, h, ha, hb⟩, rfl, allocated_node _ _ _ _⟩

end Nodes

def Rejects (f : Option (Filter σ)) : σ → σ → Prop :=
  Relation.ReflTransGen fun s s' => ∃ x y w h, accepts f x y w h s = (false, s')

def Accepted (f : Option (Filter σ)) (x y width height : ℤ) (s s' : σ) : Prop :=
  ∃ s₁, Rejects f s s₁ ∧ accepts f x y width height s₁ = (true, s')

theorem Accepted.after {f : Option (Filter σ)} {x y w h : ℤ} {s s₁ s' : σ} (hr : Rejects f s s₁)
    (ha : Accepted f x y w h s₁ s') : Accepted f x y w h s s' :=
  ha.imp fun _ h => ⟨hr.trans h.1, h.2⟩

structure Tries (f : Option (Filter σ)) (w h : ℤ) (l : List (ℤ × ℤ)) (s : σ)
    (res : Option (ℤ × ℤ) × σ) : Prop where
  none : res.1 = none → Rejects f s res.2
  some : ∀ x y, res.1 = some (x, y) → (x, y) ∈ l ∧ Accepted f x y w h s res.2

theorem tryCorners_spec (f : Option (Filter σ)) (w h : ℤ) (l tried : List (ℤ × ℤ)) (s : σ) :
    Tries f w h l s (tryCorners f w h l tried s) := by
  induction l generalizing tried s with
  | nil => exact ⟨fun _ => .refl, nofun⟩
  | cons key rest ih =>
    unfold tryCorners
    split
    · have hT := ih (key :: tried) s
      exact ⟨hT.none, fun x y hs => (hT.some x y hs).imp_left (List.mem_cons_of_mem _)⟩
    · split
      · next s₁ ha =>
        refine ⟨nofun, fun x y hs => ?_⟩
        obtain rfl : key = (x, y) := Option.some.inj hs
        exact ⟨List.mem_cons_self, s, .refl, ha⟩
      · next s₁ ha =>
        have hT := ih (key :: tried) s₁
        have hr : Rejects f s s₁ := .single ⟨key.1, key.2, w, h, ha⟩
        refine ⟨fun hn => hr.trans (hT.none hn), fun x y hs => ?_⟩
        exact (hT.some x y hs).imp (List.mem_cons_of_mem _) (Accepted.after hr)

theorem mem_corners {r : Region} {w h x y : ℤ} (hm : (x, y) ∈ corners r w h) :
    (x = r.x ∨ x = r.x + (r.width - w)) ∧ (y = r.y ∨ y = r.y + (r.height - h)) := by
  simp [corners] at hm
  omega

section Memory

variable {f : Filter σ} {P : σ → Prop}

theorem findAcceptable_keeps (hf : ∀ x y w h s, P s → P (f x y w h s).2) (r : Region) (w h : ℤ)
    {s : σ} (hs : P s) : P (findAcceptable r w h (some f) s).2 := by
  have hcorners (l tried : List (ℤ × ℤ)) (s : σ) (hs : P s) :
      P (tryCorners (some f) w h l tried s).2 := by
    induction l generalizing tried s with
    | nil => exact hs
    | cons key rest ih =>
      have hkey := hf key.1 key.2 w h s hs
      simp only [tryCorners, accepts]
      split
      · exact ih _ s hs
      · generalize f key.1 key.2 w h s = res at hkey
        obtain ⟨_ | _, s'⟩ := res
        · exact ih _ s' hkey
        · exact hkey
  exact hcorners _ _ s hs

theorem alloc_keeps (hf : ∀ x y w h s, P s → P (f x y w h s).2) (w h : ℤ) (t : PackTree) {s : σ}
    (hs : P s) : P (alloc (some f) w h t s).2.2 := by
  induction t generalizing s with
  | leaf r al =>
    have hfind := findAcceptable_keeps hf r w h hs
    simp only [alloc]
    split
    · exact hs
    split
    · exact hs
    generalize findAcceptable r w h (some f) s = res at hfind
    obtain ⟨_ | ⟨x, y⟩, s'⟩ := res <;> exact hfind
  | node r al a b iha ihb =>
    simp only [alloc]
    split
    · exact hs
    split
    · exact hs
    split
    · have ha := iha hs
      generalize alloc (some f) w h a s = res at ha
      obtain ⟨_ | xy, a', s'⟩ := res
      · exact ihb ha
      · exact ha
    · have hb := ihb hs
      generalize alloc (some f) w h b s = res at hb
      obtain ⟨_ | xy, b', s'⟩ := res
      · exact iha hb
      · exact hb

theorem allocArea_keeps (hf : ∀ x y w h s, P s → P (f x y w h s).2) (area : ℤ)
    (minRatio : Option ℚ) (t : PackTree) {s : σ} (hs : P s) :
    P (allocArea (some f) area minRatio t s).2.2 := by
  induction t generalizing s with
  | leaf r al =>
    simp only [allocArea]
    split
    · exact hs
    split
    · exact hs
    split
    · exact hs
    · exact hs
    next w h _ =>
    have halloc := alloc_keeps hf w h (.leaf r al) hs
    generalize alloc (some f) w h (.leaf r al) s = res at halloc
    obtain ⟨_ | ⟨x, y⟩, t', s'⟩ := res <;> exact halloc
  | node r al a b iha ihb =>
    simp only [allocArea]
    split
    · exact hs
    split
    · exact hs
    split
    · have ha := iha hs
      generalize allocArea (some f) area minRatio a s = res at ha
      obtain ⟨_ | _ | xywh, a', s'⟩ := res
      · exact ha
      · exact ihb ha
      · exact ha
    · have hb := ihb hs
      generalize allocArea (some f) area minRatio b s = res at hb
      obtain ⟨_ | _ | xywh, b', s'⟩ := res
      · exact hb
      · exact iha hb
      · exact hb

end Memory

structure Carved (r : Region) (x y w h : ℤ) (res : (ℤ × ℤ) × PackTree) : Prop where
  corner : res.1 = (x, y)
  valid : res.2.Valid
  region : res.2.region = r
  allocated : res.2.allocated = [⟨x, y, w, h⟩]

/-- A rectangle placed in a corner of a region it fits into. -/
structure Placed (r : Region) (x y w h : ℤ) : Prop where
  width : 0 < w
  height : 0 < h
  fitsWidth : w ≤ r.width
  fitsHeight : h ≤ r.height
  x : x = r.x ∨ x = r.x + (r.width - w)
  y : y = r.y ∨ y = r.y + (r.height - h)

theorem Placed.positive {r : Region} {x y w h : ℤ} (hp : Placed r x y w h) : r.Positive :=
  ⟨hp.width.trans_le hp.fitsWidth, hp.height.trans_le hp.fitsHeight⟩

theorem Carved.whole {c : Region} {x y w h : ℤ} (hc : c = ⟨x, y, w, h⟩) (hp : c.Positive) :
    Carved c x y w h ((c.x, c.y), .leaf c true) := by
  subst hc
  exact ⟨rfl, hp, rfl, rfl⟩

theorem Carved.first {c a b : Region} {x y w h : ℤ} {t : PackTree} {xy : ℤ × ℤ}
    (ht : Carved a x y w h (xy, t)) (hc : c.Cut a b) (hb : b.Positive) :
    Carved c x y w h (xy, .node c false t (.leaf b false)) := by
  have hm : (⟨x, y, w, h⟩ : Region) ∈ t.allocated := by simp [ht.allocated]
  refine ⟨ht.corner, ⟨rfl, by rw [ht.region]; exact hc, ?_, ht.valid, hb⟩, rfl, ?_⟩
  · simp [isFree_of_allocated hm]
  · simpa using ht.allocated

theorem Carved.second {c a b : Region} {x y w h : ℤ} {t : PackTree} {xy : ℤ × ℤ}
    (ht : Carved b x y w h (xy, t)) (hc : c.Cut a b) (ha : a.Positive) :
    Carved c x y w h (xy, .node c false (.leaf a false) t) := by
  have hm : (⟨x, y, w, h⟩ : Region) ∈ t.allocated := by simp [ht.allocated]
  refine ⟨ht.corner, ⟨rfl, by rw [ht.region]; exact hc, ?_, ha, ht.valid⟩, rfl, ?_⟩
  · simp [isFree_of_allocated hm]
  · simpa using ht.allocated

theorem cut_vsplit (r : Region) (x : ℤ) : r.Cut (r.vsplit x).1 (r.vsplit x).2 := .inr ⟨x, rfl⟩

theorem cut_hsplit (r : Region) (y : ℤ) : r.Cut (r.hsplit y).1 (r.hsplit y).2 := .inl ⟨y, rfl⟩

theorem carveChild_spec {c : Region} {x y w h : ℤ} (hp : Placed c x y w h)
    (hone : c.width = w ∨ c.height = h) : Carved c x y w h (carveChild c x y w h) := by
  have hpos := hp.positive
  obtain ⟨hw, hh, hfw, hfh, hx, hy⟩ := hp
  unfold carveChild
  by_cases hcw : c.width = w
  · rw [if_neg (not_not.mpr hcw)]
    by_cases hch : c.height = h
    · rw [if_neg (not_not.mpr hch)]
      refine Carved.whole ?_ hpos
      cases c
      simp only [Region.mk.injEq] at *
      omega
    · rw [if_pos hch]
      obtain hye | hye := eq_or_ne y c.y
      · simp only [hye, ne_eq, not_true, if_false, if_true, Region.hsplit]
        refine (Carved.whole ?_ ?_).first (cut_hsplit c (c.y + h)) ?_
        all_goals (simp only [Region.hsplit, Region.mk.injEq, Region.Positive, true_and]; omega)
      · simp only [hye, ne_eq, not_false_iff, if_false, if_true, Region.hsplit]
        refine (Carved.whole ?_ ?_).second (cut_hsplit c y) ?_
        all_goals (simp only [Region.hsplit, Region.mk.injEq, Region.Positive, true_and]; omega)
  · rw [if_pos hcw]
    obtain hxe | hxe := eq_or_ne x c.x
    · simp only [hxe, ne_eq, not_true, if_false, if_true, Region.vsplit]
      refine (Carved.whole ?_ ?_).first (cut_vsplit c (c.x + w)) ?_
      all_goals (simp only [Region.vsplit, Region.mk.injEq, Region.Positive, true_and]; omega)
    · simp only [hxe, ne_eq, not_false_iff, if_false, if_true, Region.vsplit]
      refine (Carved.whole ?_ ?_).second (cut_vsplit c x) ?_
      all_goals (simp only [Region.vsplit, Region.mk.injEq, Region.Positive, true_and]; omega)

theorem carve_spec {r : Region} {x y w h : ℤ} (hp : Placed r x y w h) :
    Carved r x y w h (carve r x y w h) := by
  have hpos := hp.positive
  obtain ⟨hw, hh, hfw, hfh, hx, hy⟩ := hp
  unfold carve
  by_cases hwh : w = r.width ∧ h = r.height
  · rw [if_pos hwh]
    refine Carved.whole ?_ hpos
    cases r
    simp only [Region.mk.injEq] at *
    omega
  · rw [if_neg hwh]
    by_cases hd : r.height - h > r.width - w
    · simp only [hd, if_true]
      obtain hye | hye := eq_or_ne y r.y
      · simp only [hye, ne_eq, not_true, if_false, if_true, Region.hsplit]
        refine (carveChild_spec ⟨hw, hh, ?_, ?_, ?_, ?_⟩ (.inr ?_)).first
          (cut_hsplit r (r.y + h)) ?_
        all_goals (dsimp only [Region.hsplit, Region.Positive]; omega)
      · simp only [hye, ne_eq, not_false_iff, if_false, if_true, Region.hsplit]
        refine (carveChild_spec ⟨hw, hh, ?_, ?_, ?_, ?_⟩ (.inr ?_)).second (cut_hsplit r y) ?_
        all_goals (dsimp only [Region.hsplit, Region.Positive]; omega)
    · simp only [hd, if_false]
      obtain hxe | hxe := eq_or_ne x r.x
      · simp only [hxe, ne_eq, not_true, if_false, if_true, Region.vsplit]
        refine (carveChild_spec ⟨hw, hh, ?_, ?_, ?_, ?_⟩ (.inl ?_)).first
          (cut_vsplit r (r.x + w)) ?_
        all_goals (dsimp only [Region.vsplit, Region.Positive]; omega)
      · simp only [hxe, ne_eq, not_false_iff, if_false, if_true, Region.vsplit]
        refine (carveChild_spec ⟨hw, hh, ?_, ?_, ?_, ?_⟩ (.inl ?_)).second (cut_vsplit r x) ?_
        all_goals (dsimp only [Region.vsplit, Region.Positive]; omega)

/-- What a call of `alloc` may answer: failures leave the tree as it was. -/
structure Allocates (f : Option (Filter σ)) (w h : ℤ) (t : PackTree) (s : σ)
    (res : Option (ℤ × ℤ) × PackTree × σ) : Prop where
  none : res.1 = none → res.2.1 = t ∧ Rejects f s res.2.2
  some : ∀ x y, res.1 = some (x, y) →
    Adds t ⟨x, y, w, h⟩ res.2.1 ∧ Accepted f x y w h s res.2.2

theorem Allocates.unchanged {f : Option (Filter σ)} {w h : ℤ} (t : PackTree) {s s' : σ}
    (hr : Rejects f s s') : Allocates f w h t s (Option.none, t, s') :=
  ⟨fun _ => ⟨rfl, hr⟩, nofun⟩

theorem Allocates.after {f : Option (Filter σ)} {w h : ℤ} {t : PackTree} {s s₁ : σ}
    {res : Option (ℤ × ℤ) × PackTree × σ} (hr : Rejects f s s₁)
    (hA : Allocates f w h t s₁ res) : Allocates f w h t s res :=
  ⟨fun hn => (hA.none hn).imp_right hr.trans,
    fun x y hs => (hA.some x y hs).imp_right (Accepted.after hr)⟩

section Nodes

variable {f : Option (Filter σ)} {w h : ℤ} {r : Region} {al : Bool} {a a' b b' : PackTree}
  {xy : Option (ℤ × ℤ)} {s s' : σ}

theorem Allocates.left (hv : (node r al a b).Valid) (hA : Allocates f w h a s (xy, a', s')) :
    Allocates f w h (node r al a b) s (xy, node r al a' b, s') := by
  refine ⟨fun hn => ?_, fun x y hs => (hA.some x y hs).imp_left (Adds.left hv)⟩
  obtain ⟨ha, hr⟩ := hA.none hn
  exact ⟨by rw [show a' = a from ha], hr⟩

theorem Allocates.right (hv : (node r al a b).Valid) (hA : Allocates f w h b s (xy, b', s')) :
    Allocates f w h (node r al a b) s (xy, node r al a b', s') := by
  refine ⟨fun hn => ?_, fun x y hs => (hA.some x y hs).imp_left (Adds.right hv)⟩
  obtain ⟨hb, hr⟩ := hA.none hn
  exact ⟨by rw [show b' = b from hb], hr⟩

end Nodes

theorem adds_leaf {r q : Region} {t : PackTree} (hv : t.Valid) (hr : t.region = r)
    (ha : t.allocated = [q]) : Adds (.leaf r false) q t :=
  ⟨hv, hr, fun p => by simp [ha], fun p hp => by simp at hp⟩

theorem alloc_leaf_spec (f : Option (Filter σ)) {w h : ℤ} (hw : 0 < w) (hh : 0 < h)
    (r : Region) (al : Bool) (s : σ) :
    Allocates f w h (.leaf r al) s (alloc f w h (.leaf r al) s) := by
  have hT := tryCorners_spec f w h (corners r w h) [] s
  unfold alloc findAcceptable
  split
  · exact .unchanged _ .refl
  next hal =>
  split
  · exact .unchanged _ .refl
  next hfit =>
  split
  · next s' hf =>
    rw [hf] at hT
    exact .unchanged _ (hT.none rfl)
  next x y s' hf =>
  rw [hf] at hT
  obtain rfl : al = false := by simpa using hal
  obtain ⟨hm, hacc⟩ := hT.some x y rfl
  obtain ⟨hx, hy⟩ := mem_corners hm
  have hc := carve_spec (r := r) (x := x) (y := y) ⟨hw, hh, by omega, by omega, hx, hy⟩
  refine ⟨nofun, fun x' y' hs => ?_⟩
  have hxy : (x', y') = (x, y) := by
    rw [← hc.corner]
    exact (Option.some.inj hs).symm
  obtain ⟨rfl, rfl⟩ := Prod.mk.inj hxy
  exact ⟨adds_leaf hc.valid hc.region hc.allocated, hacc⟩

theorem alloc_spec (f : Option (Filter σ)) {w h : ℤ} (hw : 0 < w) (hh : 0 < h) {t : PackTree}
    (ht : t.Valid) (s : σ) : Allocates f w h t s (alloc f w h t s) := by
  induction t generalizing s with
  | leaf r al => exact alloc_leaf_spec f hw hh r al s
  | node r al a b iha ihb =>
    have hv := ht
    obtain ⟨-, -, -, ha, hb⟩ := ht
    unfold alloc
    split
    · exact .unchanged _ .refl
    split
    · exact .unchanged _ .refl
    split
    · have hA := iha ha s
      generalize alloc f w h a s = res at hA ⊢
      obtain ⟨_ | xy, a', s'⟩ := res
      · obtain ⟨rfl, hr⟩ := hA.none rfl
        exact ((ihb hb s').right hv).after hr
      · exact hA.left hv
    · have hB := ihb hb s
      generalize alloc f w h b s = res at hB ⊢
      obtain ⟨_ | xy, b', s'⟩ := res
      · obtain ⟨rfl, hr⟩ := hB.none rfl
        exact ((iha ha s').left hv).after hr
      · exact hB.right hv

/-- What a call of `allocArea` may answer. -/
structure AllocatesArea (f : Option (Filter σ)) (area : ℤ) (t : PackTree) (s : σ)
    (res : Except Error (Option (ℤ × ℤ × ℤ × ℤ)) × PackTree × σ) : Prop where
  error : ∀ e, res.1 = .error e → res.2.1 = t ∧ e.Argument
  none : res.1 = .ok none → res.2.1 = t ∧ Rejects f s res.2.2
  some : ∀ x y w h, res.1 = .ok (some (x, y, w, h)) →
    area ≤ w * h ∧ Adds t ⟨x, y, w, h⟩ res.2.1 ∧ Accepted f x y w h s res.2.2

theorem AllocatesArea.unchanged {f : Option (Filter σ)} {area : ℤ} (t : PackTree) {s s' : σ}
    (hr : Rejects f s s') : AllocatesArea f area t s (.ok Option.none, t, s') :=
  ⟨nofun, fun _ => ⟨rfl, hr⟩, nofun⟩

theorem AllocatesArea.after {f : Option (Filter σ)} {area : ℤ} {t : PackTree} {s s₁ : σ}
    {res : Except Error (Option (ℤ × ℤ × ℤ × ℤ)) × PackTree × σ} (hr : Rejects f s s₁)
    (hA : AllocatesArea f area t s₁ res) : AllocatesArea f area t s res :=
  ⟨hA.error, fun hn => (hA.none hn).imp_right hr.trans,
    fun x y w h hs => (hA.some x y w h hs).imp_right (And.imp_right (Accepted.after hr))⟩

section Nodes

variable {f : Option (Filter σ)} {area : ℤ} {r : Region} {al : Bool} {a a' b b' : PackTree}
  {xywh : Except Error (Option (ℤ × ℤ × ℤ × ℤ))} {s s' : σ}

theorem AllocatesArea.left (hv : (node r al a b).Valid)
    (hA : AllocatesArea f area a s (xywh, a', s')) :
    AllocatesArea f area (node r al a b) s (xywh, node r al a' b, s') := by
  refine ⟨fun e he => ?_, fun hn => ?_, fun x y w h hs => ?_⟩
  · obtain ⟨ha, harg⟩ := hA.error e he
    exact ⟨by rw [show a' = a from ha], harg⟩
  · obtain ⟨ha, hr⟩ := hA.none hn
    exact ⟨by rw [show a' = a from ha], hr⟩
  · exact (hA.some x y w h hs).imp_right (And.imp_left (Adds.left hv))

theorem AllocatesArea.right (hv : (node r al a b).Valid)
    (hA : AllocatesArea f area b s (xywh, b', s')) :
    AllocatesArea f area (node r al a b) s (xywh, node r al a b', s') := by
  refine ⟨fun e he => ?_, fun hn => ?_, fun x y w h hs => ?_⟩
  · obtain ⟨hb, harg⟩ := hA.error e he
    exact ⟨by rw [show b' = b from hb], harg⟩
  · obtain ⟨hb, hr⟩ := hA.none hn
    exact ⟨by rw [show b' = b from hb], hr⟩
  · exact (hA.some x y w h hs).imp_right (And.imp_left (Adds.right hv))

end Nodes

theorem allocArea_leaf_spec (f : Option (Filter σ)) (area : ℤ) (minRatio : Option ℚ)
    (r : Region) (al : Bool) (s : σ) :
    AllocatesArea f area (.leaf r al) s (allocArea f area minRatio (.leaf r al) s) := by
  unfold allocArea
  split
  · exact .unchanged _ .refl
  split
  · exact .unchanged _ .refl
  split
  · next e he =>
    refine ⟨fun e' he' => ⟨rfl, ?_⟩, nofun, nofun⟩
    cases he'
    exact AreaToRect.areaToRect_error he
  · exact .unchanged _ .refl
  next w h hrect =>
  have hc := AreaToRect.areaToRect_covers hrect
  have hA := alloc_leaf_spec f hc.width hc.height r al s
  dsimp only at hA ⊢
  generalize alloc f w h (.leaf r al) s = res at hA ⊢
  obtain ⟨_ | ⟨x, y⟩, t, s'⟩ := res
  · obtain ⟨rfl, hr⟩ := hA.none rfl
    exact .unchanged _ hr
  · refine ⟨nofun, nofun, fun x' y' w' h' hs => ?_⟩
    cases hs
    exact ⟨hc.area, hA.some x y rfl⟩

theorem allocArea_spec (f : Option (Filter σ)) (area : ℤ) (minRatio : Option ℚ) {t : PackTree}
    (ht : t.Valid) (s : σ) : AllocatesArea f area t s (allocArea f area minRatio t s) := by
  induction t generalizing s with
  | leaf r al => exact allocArea_leaf_spec f area minRatio r al s
  | node r al a b iha ihb =>
    have hv := ht
    obtain ⟨-, -, -, ha, hb⟩ := ht
    unfold allocArea
    split
    · exact .unchanged _ .refl
    split
    · exact .unchanged _ .refl
    split
    · have hA := iha ha s
      generalize allocArea f area minRatio a s = res at hA ⊢
      obtain ⟨e | _ | xywh, a', s'⟩ := res
      · exact hA.left hv
      · obtain ⟨rfl, hr⟩ := hA.none rfl
        exact ((ihb hb s').right hv).after hr
      · exact hA.left hv
    · have hB := ihb hb s
      generalize allocArea f area minRatio b s = res at hB ⊢
      obtain ⟨e | _ | xywh, b', s'⟩ := res
      · exact hB.right hv
      · obtain ⟨rfl, hr⟩ := hB.none rfl
        exact ((iha ha s').left hv).after hr
      · exact hB.right hv

theorem allocArea_ok (f : Option (Filter σ)) {area : ℤ} {minRatio : ℚ} (ha : 0 < area)
    (hr : 0 ≤ minRatio) {t : PackTree} (ht : t.Valid) (s : σ) :
    ∃ xywh, (allocArea f area (some minRatio) t s).1 = .ok xywh := by
  induction t generalizing s with
  | leaf r al =>
    obtain ⟨rect, hrect⟩ := AreaToRect.areaToRect_ok ha ht.1 ht.2 hr
    unfold allocArea
    split
    · exact ⟨_, rfl⟩
    split
    · exact ⟨_, rfl⟩
    rw [hrect]
    obtain _ | ⟨w, h⟩ := rect
    · exact ⟨_, rfl⟩
    · dsimp only
      split <;> exact ⟨_, rfl⟩
  | node r al a b iha ihb =>
    obtain ⟨-, -, -, hva, hvb⟩ := ht
    unfold allocArea
    split
    · exact ⟨_, rfl⟩
    split
    · exact ⟨_, rfl⟩
    split
    · have hA := iha hva s
      generalize allocArea f area (some minRatio) a s = res at hA ⊢
      obtain ⟨e | _ | xywh, a', s'⟩ := res
      · obtain ⟨_, he⟩ := hA
        cases he
      · exact ihb hvb s'
      · exact ⟨_, rfl⟩
    · have hB := ihb hvb s
      generalize allocArea f area (some minRatio) b s = res at hB ⊢
      obtain ⟨e | _ | xywh, b', s'⟩ := res
      · obtain ⟨_, he⟩ := hB
        cases he
      · exact iha hva s'
      · exact ⟨_, rfl⟩

theorem cutAround_spec {r : Region} {x y : ℤ} (hr : r.Positive) (hc : (x, y) ∈ r.cells)
    (hbig : ¬(r.width = 1 ∧ r.height = 1)) :
    r.Cut (cutAround r x y).1 (cutAround r x y).2 ∧ (cutAround r x y).1.Positive ∧
      (cutAround r x y).2.Positive := by
  obtain ⟨hw, hh⟩ := hr
  rw [Region.mem_cells] at hc
  unfold cutAround
  dsimp only at hc ⊢
  split
  · exact ⟨cut_vsplit r x, by simp only [Region.vsplit, Region.Positive]; omega⟩
  split
  · exact ⟨cut_vsplit r (x + 1), by simp only [Region.vsplit, Region.Positive]; omega⟩
  split
  · exact ⟨cut_hsplit r (y + 1), by simp only [Region.hsplit, Region.Positive]; omega⟩
  · exact ⟨cut_hsplit r y, by simp only [Region.hsplit, Region.Positive]; omega⟩

theorem cut_size {r p q : Region} (hc : r.Cut p q) (hp : p.Positive) (hq : q.Positive) :
    p.width + p.height < r.width + r.height ∧ q.width + q.height < r.width + r.height := by
  obtain ⟨hpw, hph⟩ := hp
  obtain ⟨hqw, hqh⟩ := hq
  rcases hc with ⟨y, h⟩ | ⟨x, h⟩ <;> obtain ⟨rfl, rfl⟩ := Prod.mk.inj h <;>
    dsimp only at * <;> omega

theorem requestLeaf_none {x y : ℤ} (n : ℕ) {r : Region} {al : Bool}
    (h : (x, y) ∉ r.cells ∨ al = true) : requestLeaf x y n r al = (none, .leaf r al) := by
  cases n with
  | zero => rfl
  | succ n =>
    unfold requestLeaf
    split
    · rfl
    next hc =>
    rw [if_pos (h.resolve_left (not_not.mpr (by simpa [Region.cells] using hc)))]

theorem requestLeaf_some {x y : ℤ} {n : ℕ} {r : Region} (hr : r.Positive)
    (hn : r.width + r.height ≤ n) (hc : (x, y) ∈ r.cells) :
    ∃ t, requestLeaf x y n r false = (some (x, y), t) ∧ Carved r x y 1 1 ((x, y), t) := by
  induction n generalizing r with
  | zero =>
    obtain ⟨hw, hh⟩ := hr
    push_cast at hn
    omega
  | succ n ih =>
    unfold requestLeaf
    rw [if_neg (not_not.mpr (Region.contains_iff.mpr hc)), if_neg Bool.false_ne_true]
    by_cases h1 : r.width = 1 ∧ r.height = 1
    · rw [if_pos h1]
      rw [Region.mem_cells] at hc
      have hxy : r = ⟨x, y, 1, 1⟩ := by
        cases r
        simp only [Region.mk.injEq] at *
        omega
      subst hxy
      exact ⟨_, rfl, Carved.whole rfl hr⟩
    · rw [if_neg h1]
      obtain ⟨hcut, hp, hq⟩ := cutAround_spec hr hc h1
      obtain ⟨hsp, hsq⟩ := cut_size hcut hp hq
      generalize cutAround r x y = pq at *
      obtain ⟨p, q⟩ := pq
      dsimp only at *
      rcases (hcut.cover hp hq _).mp hc with hcp | hcq
      · obtain ⟨t, ht, hcv⟩ := ih hp (by push_cast at hn; omega) hcp
        rw [ht]
        exact ⟨_, rfl, hcv.first hcut hq⟩
      · rw [requestLeaf_none n (.inl fun hcp => hcut.apart _ hcp hcq)]
        obtain ⟨t, ht, hcv⟩ := ih hq (by push_cast at hn; omega) hcq
        simp only [ht]
        exact ⟨_, rfl, hcv.second hcut hp⟩

/-- What a call of `request` may answer: it fails only for cells that are not free. -/
structure Requests (x y : ℤ) (t : PackTree) (res : Option (ℤ × ℤ) × PackTree) : Prop where
  none : res.1 = none → res.2 = t ∧ ∀ r, (r, false) ∈ t.leaves → (x, y) ∉ r.cells
  some : ∀ xy, res.1 = some xy → xy = (x, y) ∧ Adds t ⟨x, y, 1, 1⟩ res.2

theorem request_spec (x y : ℤ) {t : PackTree} (ht : t.Valid) :
    Requests x y t (request x y t) := by
  induction t with
  | leaf r al =>
    unfold request
    by_cases h : (x, y) ∈ r.cells ∧ al = false
    · obtain ⟨hc, rfl⟩ := h
      obtain ⟨t, he, hcv⟩ := requestLeaf_some (n := (r.width + r.height).toNat) ht
        (Int.self_le_toNat _) hc
      rw [he]
      refine ⟨nofun, fun xy hs => ?_⟩
      cases hs
      exact ⟨rfl, adds_leaf hcv.valid hcv.region hcv.allocated⟩
    · rw [requestLeaf_none _ (by cases al <;> simp_all)]
      refine ⟨fun _ => ⟨rfl, fun q hq hc => h ?_⟩, nofun⟩
      obtain ⟨rfl, rfl⟩ : q = r ∧ al = false := by simpa [leaves] using hq
      exact ⟨hc, rfl⟩
  | node r al a b iha ihb =>
    have hv := ht
    obtain ⟨-, hcut, -, ha, hb⟩ := ht
    unfold request
    by_cases hc : (x, y) ∈ r.cells
    · rw [if_neg (not_not.mpr (Region.contains_iff.mpr hc))]
      have hA := iha ha
      generalize request x y a = res at hA ⊢
      obtain ⟨_ | xy, a'⟩ := res
      · obtain ⟨rfl, hna⟩ := hA.none rfl
        have hB := ihb hb
        generalize request x y b = res at hB ⊢
        obtain ⟨_ | xy, b'⟩ := res
        · obtain ⟨rfl, hnb⟩ := hB.none rfl
          refine ⟨fun _ => ⟨rfl, fun q hq => ?_⟩, nofun⟩
          rcases List.mem_append.mp hq with hq | hq
          · exact hna q hq
          · exact hnb q hq
        · refine ⟨nofun, fun xy' hs => ?_⟩
          exact (hB.some xy' hs).imp_right (Adds.right hv)
      · refine ⟨nofun, fun xy' hs => ?_⟩
        exact (hA.some xy' hs).imp_right (Adds.left hv)
    · rw [if_pos (mt Region.contains_iff.mp hc)]
      refine ⟨fun _ => ⟨rfl, fun q hq hcq => hc ?_⟩, nofun⟩
      exact hv.tiles.subset (List.mem_map.mpr ⟨(q, false), hq, rfl⟩) hcq

/-- What a call of `free` may answer: it fails only if no rectangle starts there. -/
structure Frees (x y : ℤ) (t : PackTree) (res : Except Error PackTree) : Prop where
  ok : ∀ t', res = .ok t' → ∃ r ∈ t.allocated, r.x = x ∧ r.y = y ∧ Removes t r t'
  error : ∀ e, res = .error e → (∃ m, e = .freeError m) ∧
    ∀ r ∈ t.allocated, ¬(r.x = x ∧ r.y = y)

section Nodes

variable {r q : Region} {al : Bool} {a a' b b' : PackTree} {x y : ℤ}

theorem Removes.left (hv : (node r al a b).Valid) (hR : Removes a q a') (hq : q ∈ a.allocated) :
    Removes (node r al a b) q (collapse r al a' b) := by
  have hv' := hv
  obtain ⟨hal, hcut, -, ha, hb⟩ := hv
  obtain ⟨hcv, hcr, hca⟩ := collapse_spec hal (by rw [hR.region]; exact hcut) hR.valid hb
  refine ⟨hcv, hcr, fun p => ?_⟩
  have hne : p ∈ b.allocated → p ≠ q := by
    rintro hp rfl
    exact hv'.apart_children hq hp _ (Region.corner_mem (ha.allocated_positive hq))
      (Region.corner_mem (ha.allocated_positive hq))
  rw [hca, allocated_node, List.mem_append, List.mem_append, hR.mem]
  tauto

theorem Removes.right (hv : (node r al a b).Valid) (hR : Removes b q b') (hq : q ∈ b.allocated) :
    Removes (node r al a b) q (collapse r al a b') := by
  have hv' := hv
  obtain ⟨hal, hcut, -, ha, hb⟩ := hv
  obtain ⟨hcv, hcr, hca⟩ := collapse_spec hal (by rw [hR.region]; exact hcut) ha hR.valid
  refine ⟨hcv, hcr, fun p => ?_⟩
  have hne : p ∈ a.allocated → p ≠ q := by
    rintro hp rfl
    exact hv'.apart_children hp hq _ (Region.corner_mem (hb.allocated_positive hq))
      (Region.corner_mem (hb.allocated_positive hq))
  rw [hca, allocated_node, List.mem_append, List.mem_append, hR.mem]
  tauto

theorem corner_in {t : PackTree} (hv : t.Valid) (hq : q ∈ t.allocated) (hx : q.x = x)
    (hy : q.y = y) : (x, y) ∈ t.region.cells := by
  subst hx hy
  exact hv.allocated_subset hq (Region.corner_mem (hv.allocated_positive hq))

end Nodes

theorem free_spec (x y : ℤ) {t : PackTree} (ht : t.Valid) : Frees x y t (free x y t) := by
  induction t with
  | leaf r al =>
    unfold free
    split
    · next hxy =>
      cases al with
      | true =>
        refine ⟨fun t' h => ?_, nofun⟩
        cases h
        exact ⟨r, by simp, hxy.1.symm, hxy.2.symm, ht, rfl, fun q => by simp⟩
      | false =>
        refine ⟨nofun, fun e h => ?_⟩
        cases h
        exact ⟨⟨_, rfl⟩, fun q hq => by simp at hq⟩
    · next hxy =>
      refine ⟨nofun, fun e h => ?_⟩
      cases h
      refine ⟨⟨_, rfl⟩, fun q hq hc => hxy ?_⟩
      obtain rfl : q = r := by cases al <;> simp_all
      exact ⟨hc.1.symm, hc.2.symm⟩
  | node r al a b iha ihb =>
    have hv := ht
    obtain ⟨-, hcut, -, ha, hb⟩ := ht
    unfold free
    split
    · next hca =>
      have hA := iha ha
      generalize free x y a = res at hA ⊢
      obtain e | a' := res
      · refine ⟨nofun, fun e' h => ?_⟩
        cases h
        obtain ⟨hm, hno⟩ := hA.error _ rfl
        refine ⟨hm, fun q hq hxy => ?_⟩
        rw [allocated_node, List.mem_append] at hq
        rcases hq with hq | hq
        · exact hno q hq hxy
        · exact hcut.apart _ hca (corner_in hb hq hxy.1 hxy.2)
      · refine ⟨fun t' h => ?_, nofun⟩
        cases h
        obtain ⟨q, hq, hx, hy, hR⟩ := hA.ok _ rfl
        exact ⟨q, by simp [hq], hx, hy, hR.left hv hq⟩
    next hca =>
    have hna : ∀ q ∈ a.allocated, ¬(q.x = x ∧ q.y = y) :=
      fun q hq hxy => hca (corner_in ha hq hxy.1 hxy.2)
    split
    · next hcb =>
      have hB := ihb hb
      generalize free x y b = res at hB ⊢
      obtain e | b' := res
      · refine ⟨nofun, fun e' h => ?_⟩
        cases h
        obtain ⟨hm, hno⟩ := hB.error _ rfl
        refine ⟨hm, fun q hq => ?_⟩
        rw [allocated_node, List.mem_append] at hq
        exact hq.elim (hna q) (hno q)
      · refine ⟨fun t' h => ?_, nofun⟩
        cases h
        obtain ⟨q, hq, hx, hy, hR⟩ := hB.ok _ rfl
        exact ⟨q, by simp [hq], hx, hy, hR.right hv hq⟩
    · next hcb =>
      refine ⟨nofun, fun e h => ?_⟩
      cases h
      refine ⟨⟨_, rfl⟩, fun q hq => ?_⟩
      rw [allocated_node, List.mem_append] at hq
      exact hq.elim (hna q) fun hq hxy => hcb (corner_in hb hq hxy.1 hxy.2)

end PackTree

end SpallocServer
