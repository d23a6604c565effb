import SpallocServer.Foundation.System
import SpallocServer.PackTree.Spec

namespace SpallocServer

open Foundation

/-- One call on a tree. Each call brings its own filter and its filter's own state. -/
inductive TreeCall : Type 1 where
  | alloc {σ : Type} (width height : ℤ) (candidateFilter : Option (Filter σ)) (state : σ)
  | allocArea {σ : Type} (area : ℤ) (minRatio : Option ℚ) (candidateFilter : Option (Filter σ))
      (state : σ)
  | request (x y : ℤ)
  | free (x y : ℤ)

/-- Answers of a search come with the state the filter was left in. -/
inductive TreeAnswer : Type 1 where
  | nothing
  | corner {σ : Type} (x y : ℤ) (state : σ)
  | rectangle {σ : Type} (r : Region) (state : σ)
  | cell (x y : ℤ)
  | done
  | raised (e : Error)

namespace TreeCall

/-- Sizes are at least one. -/
def Sized : TreeCall → Prop
  | .alloc width height _ _ => 1 ≤ width ∧ 1 ≤ height
  | .allocArea area _ _ _ => 1 ≤ area
  | .request _ _ => True
  | .free _ _ => True

def run : TreeCall → PackTree → TreeAnswer × PackTree
  | .alloc w h f s, t =>
    match t.alloc f w h s with
    | (some (x, y), t, s) => (.corner x y s, t)
    | (none, t, _) => (.nothing, t)
  | .allocArea area minRatio f s, t =>
    match t.allocArea f area minRatio s with
    | (.ok (some (x, y, w, h)), t, s) => (.rectangle ⟨x, y, w, h⟩ s, t)
    | (.ok none, t, _) => (.nothing, t)
    | (.error e, t, _) => (.raised e, t)
  | .request x y, t =>
    match t.request x y with
    | (some (x, y), t) => (.cell x y, t)
    | (none, t) => (.nothing, t)
  | .free x y, t =>
    match t.free x y with
    | .ok t => (.done, t)
    | .error e => (.raised e, t)

end TreeCall

namespace TreeAnswer

def Failed : TreeAnswer → Prop
  | .nothing => True
  | .raised _ => True
  | _ => False

end TreeAnswer

structure Packing where
  rectangles : Set Region
  apart : ∀ p ∈ rectangles, ∀ q ∈ rectangles, p ≠ q → Apart Region.cells p q

namespace Packing

/-- `T` is `S` with one more rectangle, apart from those of `S`. -/
def Gains (S : Packing) (r : Region) (T : Packing) : Prop :=
  T.rectangles = insert r S.rectangles ∧ ∀ q ∈ S.rectangles, Apart Region.cells r q

def Loses (S : Packing) (r : Region) (T : Packing) : Prop :=
  r ∈ S.rectangles ∧ T.rectangles = S.rectangles \ {r}

/-- The meaning of a call on a set of disjoint rectangles inside `root`. -/
inductive Step (root : Region) (S : Packing) : TreeCall → TreeAnswer → Packing → Prop where
  | alloc {σ : Type} {w h x y : ℤ} {f : Option (Filter σ)} {s₀ s : σ} {T : Packing} :
    S.Gains ⟨x, y, w, h⟩ T → PackTree.Accepted f x y w h s₀ s →
    Step root S (.alloc w h f s₀) (.corner x y s) T
  | noAlloc {σ : Type} {w h : ℤ} {f : Option (Filter σ)} {s₀ : σ} :
    Step root S (.alloc w h f s₀) .nothing S
  | allocArea {σ : Type} {area : ℤ} {minRatio : Option ℚ} {r : Region} {f : Option (Filter σ)}
      {s₀ s : σ} {T : Packing} :
    S.Gains r T → area ≤ r.area → PackTree.Accepted f r.x r.y r.width r.height s₀ s →
    Step root S (.allocArea area minRatio f s₀) (.rectangle r s) T
  | noArea {σ : Type} {area : ℤ} {minRatio : Option ℚ} {f : Option (Filter σ)} {s₀ : σ} :
    Step root S (.allocArea area minRatio f s₀) .nothing S
  | badArea {σ : Type} {area : ℤ} {minRatio : Option ℚ} {f : Option (Filter σ)} {s₀ : σ}
      {e : Error} :
    Step root S (.allocArea area minRatio f s₀) (.raised e) S
  | request {x y : ℤ} {T : Packing} :
    S.Gains ⟨x, y, 1, 1⟩ T → Step root S (.request x y) (.cell x y) T
  | noRequest {x y : ℤ} :
    ((x, y) ∈ root.cells → ∃ r ∈ S.rectangles, (x, y) ∈ r.cells) →
    Step root S (.request x y) .nothing S
  | free {r : Region} {T : Packing} :
    S.Loses r T → Step root S (.free r.x r.y) .done T
  | noFree {x y : ℤ} {m : String} :
    (∀ r ∈ S.rectangles, ¬(r.x = x ∧ r.y = y)) →
    Step root S (.free x y) (.raised (.freeError m)) S

end Packing

namespace PackTree

variable {t t' : PackTree} {r : Region}

/-- No internal node is marked as allocated. -/
def LeavesOnly : PackTree → Prop
  | .leaf _ _ => True
  | .node _ allocated a b => allocated = false ∧ a.LeavesOnly ∧ b.LeavesOnly

theorem Valid.leavesOnly (h : t.Valid) : t.LeavesOnly := by
  induction t with
  | leaf r allocated => trivial
  | node r allocated a b iha ihb =>
    obtain ⟨hal, -, -, ha, hb⟩ := h
    exact ⟨hal, iha ha, ihb hb⟩

/-- The rectangles given out, with the proof that they are disjoint. -/
def packing (t : PackTree) (h : t.Valid) : Packing where
  rectangles := {r | r ∈ t.allocated}
  apart _ hp _ hq hne _ hcp hcq := hne (h.allocated_unique hp hq hcp hcq)

theorem Adds.gains {h : t.Valid} (hA : Adds t r t') : (t.packing h).Gains r (t'.packing hA.valid) :=
  ⟨Set.ext hA.mem, hA.fresh⟩

theorem Removes.loses {h : t.Valid} (hr : r ∈ t.allocated) (hR : Removes t r t') :
    (t.packing h).Loses r (t'.packing hR.valid) :=
  ⟨hr, Set.ext fun q => by simpa [packing] using hR.mem q⟩

theorem Valid.covered (h : t.Valid) {x y : ℤ} (hn : ∀ r, (r, false) ∈ t.leaves → (x, y) ∉ r.cells)
    (hc : (x, y) ∈ t.region.cells) : ∃ r ∈ t.allocated, (x, y) ∈ r.cells := by
  obtain ⟨r, hr, hcr⟩ := (h.tiles.cover _).mp hc
  obtain ⟨⟨r', al⟩, hm, rfl⟩ := List.mem_map.mp hr
  cases al with
  | true => exact ⟨r', mem_allocated.mpr hm, hcr⟩
  | false => exact absurd hcr (hn r' hm)

structure Refines (root : Region) (t : PackTree) (ht : t.Valid) (c : TreeCall)
    (ans : TreeAnswer) (t' : PackTree) : Prop where
  region : t'.region = t.region
  failed : ans.Failed → t' = t
  step : ∃ ht' : t'.Valid, (t.packing ht).Step root c ans (t'.packing ht')

theorem Refines.unchanged {root : Region} {ht : t.Valid} {c : TreeCall} {ans : TreeAnswer}
    (h : (t.packing ht).Step root c ans (t.packing ht)) : Refines root t ht c ans t :=
  ⟨rfl, fun _ => rfl, ht, h⟩

theorem alloc_refines {σ : Type} (ht : t.Valid) {w h : ℤ} (hw : 1 ≤ w) (hh : 1 ≤ h)
    (f : Option (Filter σ)) (s : σ) :
    Refines t.region t ht (.alloc w h f s) ((TreeCall.alloc w h f s).run t).1
      ((TreeCall.alloc w h f s).run t).2 := by
  have hA := alloc_spec f (by omega : 0 < w) (by omega : 0 < h) ht s
  simp only [TreeCall.run]
  generalize t.alloc f w h s = res at hA ⊢
  obtain ⟨_ | ⟨x, y⟩, t', s'⟩ := res
  · obtain ⟨rfl, -⟩ := hA.none rfl
    exact .unchanged .noAlloc
  · obtain ⟨hadd, hacc⟩ := hA.some x y rfl
    exact ⟨hadd.region, False.elim, hadd.valid, .alloc hadd.gains hacc⟩

theorem allocArea_refines {σ : Type} (ht : t.Valid) (area : ℤ) (minRatio : Option ℚ)
    (f : Option (Filter σ)) (s : σ) :
    Refines t.region t ht (.allocArea area minRatio f s)
      ((TreeCall.allocArea area minRatio f s).run t).1
      ((TreeCall.allocArea area minRatio f s).run t).2 := by
  have hA := allocArea_spec f area minRatio ht s
  simp only [TreeCall.run]
  generalize t.allocArea f area minRatio s = res at hA ⊢
  obtain ⟨e | _ | ⟨x, y, w, h⟩, t', s'⟩ := res
  · obtain ⟨rfl, -⟩ := hA.error e rfl
    exact .unchanged .badArea
  · obtain ⟨rfl, -⟩ := hA.none rfl
    exact .unchanged .noArea
  · obtain ⟨harea, hadd, hacc⟩ := hA.some x y w h rfl
    exact ⟨hadd.region, False.elim, hadd.valid, .allocArea hadd.gains harea hacc⟩

theorem request_refines (ht : t.Valid) (x y : ℤ) :
    Refines t.region t ht (.request x y) ((TreeCall.request x y).run t).1
      ((TreeCall.request x y).run t).2 := by
  have hR := request_spec x y ht
  simp only [TreeCall.run]
  generalize t.request x y = res at hR ⊢
  obtain ⟨_ | xy, t'⟩ := res
  · obtain ⟨rfl, hn⟩ := hR.none rfl
    exact .unchanged (.noRequest (ht.covered hn))
  · obtain ⟨rfl, hadd⟩ := hR.some xy rfl
    exact ⟨hadd.region, False.elim, hadd.valid, .request hadd.gains⟩

theorem free_refines (ht : t.Valid) (x y : ℤ) :
    Refines t.region t ht (.free x y) ((TreeCall.free x y).run t).1
      ((TreeCall.free x y).run t).2 := by
  have hF := free_spec x y ht
  simp only [TreeCall.run]
  generalize t.free x y = res at hF ⊢
  obtain e | t' := res
  · obtain ⟨⟨m, rfl⟩, hno⟩ := hF.error e rfl
    exact .unchanged (.noFree hno)
  · obtain ⟨r, hr, rfl, rfl, hrem⟩ := hF.ok t' rfl
    exact ⟨hrem.region, False.elim, hrem.valid, .free (hrem.loses hr)⟩

theorem run_refines (ht : t.Valid) {c : TreeCall} (hc : c.Sized) :
    Refines t.region t ht c (c.run t).1 (c.run t).2 := by
  cases c with
  | alloc w h f s => exact alloc_refines ht hc.1 hc.2 f s
  | allocArea area minRatio f s => exact allocArea_refines ht area minRatio f s
  | request x y => exact request_refines ht x y
  | free x y => exact free_refines ht x y

/-- Any sequence of calls on a new tree. -/
def system (x y width height : ℤ) : System PackTree TreeCall where
  init t := t = new x y width height
  step t c t' := c.Sized ∧ t' = (c.run t).2

def packingSystem (root : Region) : System Packing TreeCall where
  init S := S.rectangles = ∅
  step S c T := ∃ ans, S.Step root c ans T

theorem reachable_valid {x y width height : ℤ} (hw : 1 ≤ width) (hh : 1 ≤ height)
    (h : (system x y width height).Reachable t) : t.Valid ∧ t.region = ⟨x, y, width, height⟩ := by
  refine h.invariant (I := fun t => t.Valid ∧ t.region = ⟨x, y, width, height⟩) ?_ ?_
  · rintro t rfl
    exact ⟨⟨by dsimp only; omega, by dsimp only; omega⟩, rfl⟩
  · rintro t c t' - ⟨ht, hr⟩ ⟨hc, rfl⟩
    obtain ⟨hreg, -, ht', -⟩ := run_refines ht hc
    exact ⟨ht', hreg.trans hr⟩

theorem packing_reachable {x y width height : ℤ} (hw : 1 ≤ width) (hh : 1 ≤ height)
    (h : (system x y width height).Reachable t) :
    ∃ ht : t.Valid, (packingSystem ⟨x, y, width, height⟩).Reachable (t.packing ht) := by
  let R (t : PackTree) (S : Packing) : Prop := ∃ ht : t.Valid, S = t.packing ht
  have h0 (t : PackTree) (ht : (system x y width height).init t) :
      ∃ S, (packingSystem ⟨x, y, width, height⟩).init S ∧ R t S := by
    obtain ⟨hv, -⟩ := reachable_valid hw hh (.start ht)
    subst ht
    exact ⟨_, by simp [packingSystem, packing, new], hv, rfl⟩
  have h1 (t : PackTree) (c : TreeCall) (t' : PackTree) (S : Packing)
      (hr : (system x y width height).Reachable t)
      (_ : (packingSystem ⟨x, y, width, height⟩).Reachable S) (hS : R t S)
      (hs : (system x y width height).step t c t') : ∃ S', Relation.ReflTransGen
        (fun u v => ∃ k, (packingSystem ⟨x, y, width, height⟩).step u k v) S S' ∧ R t' S' := by
    obtain ⟨ht, rfl⟩ := hS
    obtain ⟨hc, rfl⟩ := hs
    obtain ⟨-, -, ht', hstep⟩ := run_refines ht hc
    obtain ⟨-, hreg⟩ := reachable_valid hw hh hr
    rw [hreg] at hstep
    exact ⟨_, .single ⟨c, _, hstep⟩, ht', rfl⟩
  obtain ⟨S, hS, ht, rfl⟩ := h.simulation h0 h1
  exact ⟨ht, hS⟩

/-- In every reachable state the leaves tile the root, only leaves are allocated, and every
call does to the set of allocated rectangles what it should. -/
theorem refines_packing {x y width height : ℤ} (hw : 1 ≤ width) (hh : 1 ≤ height)
    (h : (system x y width height).Reachable t) :
    Tiles Region.cells (t.leaves.map (·.1)) ⟨x, y, width, height⟩ ∧
      (∀ p ∈ t.leaves, 0 < p.1.width ∧ 0 < p.1.height) ∧ t.LeavesOnly ∧
      ∃ ht : t.Valid, ∀ c : TreeCall, c.Sized →
        ((c.run t).1.Failed → (c.run t).2 = t) ∧
        ∃ ht' : (c.run t).2.Valid,
          (t.packing ht).Step ⟨x, y, width, height⟩ c (c.run t).1 ((c.run t).2.packing ht') := by
  obtain ⟨ht, hr⟩ := reachable_valid hw hh h
  refine ⟨hr ▸ ht.tiles, ht.leaf_positive, ht.leavesOnly, ht, fun c hc => ?_⟩
  obtain ⟨-, hfail, ht', hstep⟩ := run_refines ht hc
  exact ⟨hfail, ht', hr ▸ hstep⟩

theorem refines_packing_four :
    Tiles Region.cells
        ((((TreeCall.request 0 1).run
          ((TreeCall.alloc 2 1 none ()).run (new 0 0 4 4)).2).2).leaves.map (·.1)) ⟨0, 0, 4, 4⟩ ∧
      ((TreeCall.request 0 1).run ((TreeCall.alloc 2 1 none ()).run (new 0 0 4 4)).2).2.allocated =
        [⟨0, 0, 2, 1⟩, ⟨0, 1, 1, 1⟩] := by
  have h0 : (system 0 0 4 4).Reachable (new 0 0 4 4) := .start rfl
  have h1 := h0.next (i := .alloc 2 1 none ()) ⟨by simp [TreeCall.Sized], rfl⟩
  have h2 := h1.next (i := .request 0 1) ⟨by simp [TreeCall.Sized], rfl⟩
  exact ⟨(refines_packing (by decide) (by decide) h2).1, by decide⟩

end PackTree

end SpallocServer
