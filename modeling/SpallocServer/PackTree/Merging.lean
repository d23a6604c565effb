import SpallocServer.PackTree.Refinement

namespace SpallocServer.PackTree

open Foundation

variable {σ : Type} {f : Option (Filter σ)} {t t' : PackTree} {r : Region} {al : Bool}
  {a a' b b' c : PackTree} {w h x y : ℤ}

/-- No internal node has two children that are both leaves and not allocated. -/
def Merged : PackTree → Prop
  | .leaf _ _ => True
  | .node _ _ a b => ¬(a.isFree ∧ b.isFree) ∧ a.Merged ∧ b.Merged

/-- Any sequence of calls on a new tree, with any arguments. -/
def calls (x y width height : ℤ) : System PackTree TreeCall where
  init t := t = new x y width height
  step t c t' := t' = (c.run t).2

theorem Valid.merged (ht : t.Valid) : t.Merged := by
  induction t with
  | leaf r al => trivial
  | node r al a b iha ihb =>
    obtain ⟨-, -, hfree, ha, hb⟩ := ht
    exact ⟨hfree, iha ha, ihb hb⟩

theorem Merged.eq_new (ht : t.Merged) (ha : t.allocated = []) : t = .leaf t.region false := by
  induction t with
  | leaf r al => cases al <;> simp_all
  | node r al a b iha ihb =>
    obtain ⟨hfree, hma, hmb⟩ := ht
    rw [allocated_node, List.append_eq_nil_iff] at ha
    rw [iha hma ha.1, ihb hmb ha.2] at hfree
    simp [isFree] at hfree

/-- What a call that gives nothing back makes of a tree. -/
structure Settles (t t' : PackTree) : Prop where
  merged : t'.Merged
  region : t'.region = t.region
  taken : t'.isFree → t.isFree

theorem Settles.refl (ht : t.Merged) : Settles t t := ⟨ht, rfl, id⟩

theorem Settles.ofLeaf (hm : t.Merged) (hr : t.region = r) : Settles (.leaf r false) t :=
  ⟨hm, hr, fun _ => rfl⟩

theorem Settles.left (ht : (node r al a b).Merged) (h : Settles a a') :
    Settles (node r al a b) (node r al a' b) :=
  ⟨⟨fun hf => ht.1 ⟨h.taken hf.1, hf.2⟩, h.merged, ht.2.2⟩, rfl, nofun⟩

theorem Settles.right (ht : (node r al a b).Merged) (h : Settles b b') :
    Settles (node r al a b) (node r al a b') :=
  ⟨⟨fun hf => ht.1 ⟨hf.1, h.taken hf.2⟩, ht.2.1, h.merged⟩, rfl, nofun⟩

theorem Settles.both (ht : (node r al a b).Merged) (ha : Settles a a') (hb : Settles b b') :
    Settles (node r al a b) (node r al a' b') :=
  ⟨⟨fun hf => ht.1 ⟨ha.taken hf.1, hb.taken hf.2⟩, ha.merged, hb.merged⟩, rfl, nofun⟩

theorem carveChild_merged (c : Region) (x y w h : ℤ) :
    (carveChild c x y w h).2.Merged ∧ (carveChild c x y w h).2.isFree = false ∧
      (carveChild c x y w h).2.region = c := by
  unfold carveChild
  dsimp only
  split
  · split <;> simp [Merged, isFree]
  split
  · split <;> simp [Merged, isFree]
  · simp [Merged, isFree]

theorem carve_merged (r : Region) (x y w h : ℤ) :
    (carve r x y w h).2.Merged ∧ (carve r x y w h).2.region = r := by
  have hchild (c : Region) := carveChild_merged c x y w h
  unfold carve
  dsimp only
  split
  · exact ⟨trivial, rfl⟩
  split
  · split <;> simp [Merged, hchild]
  · split <;> simp [Merged, hchild]

theorem alloc_settles (f : Option (Filter σ)) (w h : ℤ) (ht : t.Merged) (s : σ) :
    Settles t (alloc f w h t s).2.1 := by
  induction t generalizing s with
  | leaf r al =>
    unfold alloc
    split
    · exact .refl ht
    next hal =>
    split
    · exact .refl ht
    split
    · exact .refl ht
    · next x y s' _ =>
      obtain rfl : al = false := by simpa using hal
      obtain ⟨hm, hr⟩ := carve_merged r x y w h
      exact .ofLeaf hm hr
  | node r al a b iha ihb =>
    have hA (s : σ) := iha ht.2.1 s
    have hB (s : σ) := ihb ht.2.2 s
    unfold alloc
    split
    · exact .refl ht
    split
    · exact .refl ht
    split
    · have ha := hA s
      generalize alloc f w h a s = res at ha ⊢
      obtain ⟨_ | xy, a', s'⟩ := res
      · exact ha.both ht (hB s')
      · exact ha.left ht
    · have hb := hB s
      generalize alloc f w h b s = res at hb ⊢
      obtain ⟨_ | xy, b', s'⟩ := res
      · exact (hA s').both ht hb
      · exact hb.right ht

theorem allocArea_settles (f : Option (Filter σ)) (area : ℤ) (minRatio : Option ℚ)
    (ht : t.Merged) (s : σ) : Settles t (allocArea f area minRatio t s).2.1 := by
  induction t generalizing s with
  | leaf r al =>
    unfold allocArea
    split
    · exact .refl ht
    split
    · exact .refl ht
    split
    · exact .refl ht
    · exact .refl ht
    · next w h _ =>
      have hA := alloc_settles f w h ht s
      generalize alloc f w h (.leaf r al) s = res at hA ⊢
      obtain ⟨_ | xy, t', s'⟩ := res <;> exact hA
  | node r al a b iha ihb =>
    have hA (s : σ) := iha ht.2.1 s
    have hB (s : σ) := ihb ht.2.2 s
    unfold allocArea
    split
    · exact .refl ht
    split
    · exact .refl ht
    split
    · have ha := hA s
      generalize allocArea f area minRatio a s = res at ha ⊢
      obtain ⟨e | _ | xywh, a', s'⟩ := res
      · exact ha.left ht
      · exact ha.both ht (hB s')
      · exact ha.left ht
    · have hb := hB s
      generalize allocArea f area minRatio b s = res at hb ⊢
      obtain ⟨e | _ | xywh, b', s'⟩ := res
      · exact hb.right ht
      · exact (hA s').both ht hb
      · exact hb.right ht

theorem Region.positive_of_mem {c : ℤ × ℤ} (hc : c ∈ r.cells) : r.Positive := by
  rw [Region.mem_cells] at hc
  constructor <;> omega

theorem requestLeaf_settles (r : Region) (al : Bool) :
    Settles (.leaf r al) (requestLeaf x y (r.width + r.height).toNat r al).2 := by
  by_cases hc : (x, y) ∈ r.cells ∧ al = false
  · obtain ⟨hc, rfl⟩ := hc
    obtain ⟨t, he, hcarved⟩ := requestLeaf_some (n := (r.width + r.height).toNat)
      (Region.positive_of_mem hc) (Int.self_le_toNat _) hc
    rw [he]
    exact .ofLeaf hcarved.valid.merged hcarved.region
  · rw [requestLeaf_none _ (by cases al <;> simp_all)]
    exact .refl trivial

theorem request_settles (x y : ℤ) (ht : t.Merged) : Settles t (request x y t).2 := by
  induction t with
  | leaf r al => exact requestLeaf_settles r al
  | node r al a b iha ihb =>
    unfold request
    split
    · exact .refl ht
    · have ha := iha ht.2.1
      generalize request x y a = res at ha ⊢
      obtain ⟨_ | xy, a'⟩ := res
      · exact ha.both ht (ihb ht.2.2)
      · exact ha.left ht

theorem collapse_merged (ha : a.Merged) (hb : b.Merged) :
    (collapse r al a b).Merged ∧ (collapse r al a b).region = r := by
  unfold collapse
  split
  · exact ⟨trivial, rfl⟩
  · next hfree => exact ⟨⟨hfree, ha, hb⟩, rfl⟩

theorem free_merged (ht : t.Merged) (hf : free x y t = .ok t') :
    t'.Merged ∧ t'.region = t.region := by
  induction t generalizing t' with
  | leaf r al =>
    unfold free at hf
    split at hf
    · split at hf <;> cases hf
      exact ⟨trivial, rfl⟩
    · cases hf
  | node r al a b iha ihb =>
    obtain ⟨-, hma, hmb⟩ := ht
    unfold free at hf
    split at hf
    · split at hf
      · next a' ha =>
        cases hf
        exact collapse_merged (iha hma ha).1 hmb
      · cases hf
    split at hf
    · split at hf
      · next b' hb =>
        cases hf
        exact collapse_merged hma (ihb hmb hb).1
      · cases hf
    · cases hf

theorem run_merged (ht : t.Merged) (c : TreeCall) :
    (c.run t).2.Merged ∧ (c.run t).2.region = t.region := by
  cases c with
  | alloc w h f s =>
    have hA := alloc_settles f w h ht s
    simp only [TreeCall.run]
    generalize t.alloc f w h s = res at hA ⊢
    obtain ⟨_ | xy, t', s'⟩ := res <;> exact ⟨hA.merged, hA.region⟩
  | allocArea area minRatio f s =>
    have hA := allocArea_settles f area minRatio ht s
    simp only [TreeCall.run]
    generalize t.allocArea f area minRatio s = res at hA ⊢
    obtain ⟨e | _ | xywh, t', s'⟩ := res <;> exact ⟨hA.merged, hA.region⟩
  | request x y =>
    have hR := request_settles x y ht
    simp only [TreeCall.run]
    generalize t.request x y = res at hR ⊢
    obtain ⟨_ | xy, t'⟩ := res <;> exact ⟨hR.merged, hR.region⟩
  | free x y =>
    simp only [TreeCall.run]
    rcases hfree : t.free x y with e | t'
    · exact ⟨ht, rfl⟩
    · exact free_merged ht hfree

theorem calls_merged {width height : ℤ} (h : (calls x y width height).Reachable t) :
    t.Merged ∧ t.region = ⟨x, y, width, height⟩ := by
  refine h.invariant (I := fun t => t.Merged ∧ t.region = ⟨x, y, width, height⟩) ?_ ?_
  · intro t ht
    rw [show t = new x y width height from ht]
    exact ⟨trivial, rfl⟩
  · intro t c t' _ ⟨ht, hr⟩ hstep
    obtain ⟨ht', hr'⟩ := run_merged ht c
    rw [show t' = (c.run t).2 from hstep]
    exact ⟨ht', hr'.trans hr⟩

/-- The corners of rectangles, freed one after the other. -/
def freeAll : List Region → PackTree → Except Error PackTree
  | [], t => .ok t
  | r :: rest, t =>
    match t.free r.x r.y with
    | .ok t => freeAll rest t
    | .error e => .error e

theorem free_allocated (ht : t.Valid) (hr : r ∈ t.allocated) :
    ∃ t', t.free r.x r.y = .ok t' ∧ Removes t r t' := by
  have hF := free_spec r.x r.y ht
  rcases hfree : t.free r.x r.y with e | t'
  · exact absurd ⟨rfl, rfl⟩ ((hF.error e hfree).2 r hr)
  · obtain ⟨q, hq, hx, hy, hrem⟩ := hF.ok t' hfree
    obtain rfl := ht.eq_of_corner hq hr hx hy
    exact ⟨t', rfl, hrem⟩

theorem freeAll_new {l : List Region} (ht : t.Valid) (hl : l.Perm t.allocated) :
    freeAll l t = .ok (.leaf t.region false) := by
  induction l generalizing t with
  | nil =>
    unfold freeAll
    rw [← ht.eq_new hl.nil_eq.symm]
  | cons r rest ih =>
    obtain ⟨t', hfree, hrem⟩ := free_allocated ht (hl.subset List.mem_cons_self)
    have hnodup := hl.symm.nodup ht.allocated_nodup
    obtain ⟨hnew, hrest⟩ := List.nodup_cons.mp hnodup
    have hl' : rest.Perm t'.allocated := by
      rw [List.perm_ext_iff_of_nodup hrest hrem.valid.allocated_nodup]
      intro q
      rw [hrem.mem, ← hl.mem_iff, List.mem_cons]
      constructor
      · intro hq
        exact ⟨.inr hq, fun he => hnew (he ▸ hq)⟩
      · intro ⟨hq, hne⟩
        exact hq.resolve_left hne
    simp only [freeAll, hfree]
    rw [ih hrem.valid hl', hrem.region]

theorem alloc_new (x y width height : ℤ) (s : σ) :
    (alloc none width height (new x y width height) s).1 = some (x, y) := by
  simp [alloc, new, findAcceptable, corners, tryCorners, accepts, carve]

/-- Whatever the calls so far, no two empty leaves are left unmerged. Once everything is freed,
in any order, the tree is new and the whole region can be allocated. -/
theorem freed_merged {x y width height : ℤ} (hw : 1 ≤ width) (hh : 1 ≤ height)
    (h : (calls x y width height).Reachable t) :
    t.Merged ∧
      (t.allocated = [] → t = new x y width height ∧
        ∀ {σ : Type} (s : σ), (t.alloc none width height s).1 = some (x, y)) ∧
      ((system x y width height).Reachable t → ∀ l : List Region, l.Perm t.allocated →
        freeAll l t = .ok (new x y width height)) := by
  obtain ⟨hm, hr⟩ := calls_merged h
  refine ⟨hm, fun ha => ?_, fun hs l hl => ?_⟩
  · have hnew : t = new x y width height := by
      rw [hm.eq_new ha, hr]
      rfl
    rw [hnew]
    exact ⟨rfl, fun s => alloc_new x y width height s⟩
  · obtain ⟨ht, -⟩ := reachable_valid hw hh hs
    rw [freeAll_new ht hl, hr]
    rfl

theorem freed_merged_two :
    ((TreeCall.free 0 0).run ((TreeCall.alloc 1 1 none ()).run (new 0 0 2 2)).2).2 =
      new 0 0 2 2 := by
  have h0 : (calls 0 0 2 2).Reachable (new 0 0 2 2) := .start rfl
  have h1 := h0.next (i := .alloc 1 1 none ()) rfl
  have h2 := h1.next (i := .free 0 0) rfl
  exact ((freed_merged (by decide) (by decide) h2).2.1 (by decide)).1

end SpallocServer.PackTree
