import Mathlib.Order.Interval.Finset.Basic
import Mathlib.Data.Int.Interval
import SpallocServer.Foundation.Search
import SpallocServer.Coordinates
import SpallocServer.PackTree

namespace SpallocServer

open Foundation

/-- A link with the board it leaves. -/
abbrev BoardLink := Board × Links

structure CandidateFilter where
  width : ℤ
  height : ℤ
  deadBoards : Finset Board
  deadLinks : Finset BoardLink
  maxDeadBoards : Option ℤ
  maxDeadLinks : Option ℤ
  requireTorus : Bool
  expectedBoards : Option ℤ

/-- What the filter keeps of the last accepted candidate. -/
structure Candidate where
  boards : Finset Board
  periphery : Finset BoardLink
  torus : WrapAround

/-- The links that `_classify_links` tells apart. -/
structure LinkClasses where
  alive : Finset BoardLink
  wrap : Finset BoardLink
  dead : Finset BoardLink
  deadWrap : Finset BoardLink
  periphery : Finset BoardLink
  wrapAroundType : WrapAround

namespace CandidateFilter

open Coordinates

def inRange (x y width height : ℤ) (b : Board) : Bool :=
  decide (x ≤ b.1 ∧ b.1 < x + width ∧ y ≤ b.2.1 ∧ b.2.1 < y + height)

def visitable (f : CandidateFilter) (x y width height : ℤ) (b : Board) : List Board :=
  ((Links.all.filter fun link => (b, link) ∉ f.deadLinks).map fun link =>
    neighbour b link f.width f.height).filter (inRange x y width height)

/-- Each of the `3 * width * height` boards in range appends six boards at most. -/
def enumerateBoards (f : CandidateFilter) (x y width height : ℤ) : Finset Board :=
  explore (fun b => b ∉ f.deadBoards) (f.visitable x y width height)
    ((18 * width * height).toNat + 2) [(x, y, 0)] ∅

def far (f : CandidateFilter) (l : BoardLink) : Board × WrapAround :=
  boardDownLink l.1 l.2 f.width f.height

def classifyLinks (f : CandidateFilter) (boards : Finset Board) : LinkClasses :=
  let links := boards ×ˢ Finset.univ
  let inner := links.filter fun l => (f.far l).1 ∈ boards
  let wrapped := inner.filter fun l => (f.far l).2 ≠ .none
  let unwrapped := inner.filter fun l => (f.far l).2 = .none
  { alive := unwrapped.filter fun l => l ∉ f.deadLinks
    wrap := wrapped.filter fun l => l ∉ f.deadLinks
    dead := unwrapped.filter fun l => l ∈ f.deadLinks
    deadWrap := wrapped.filter fun l => l ∈ f.deadLinks
    periphery := links.filter fun l => (f.far l).1 ∉ boards
    wrapAroundType :=
      ⟨decide (∃ l ∈ inner, (f.far l).2.x), decide (∃ l ∈ inner, (f.far l).2.y)⟩ }

def deadBoardsExceeded (f : CandidateFilter) (width height : ℤ) (boards : Finset Board) : Bool :=
  match f.maxDeadBoards with
  | some maxDeadBoards =>
    let expected := f.expectedBoards.getD (width * height * 3)
    decide (boards.card = 0 ∨ expected - boards.card > maxDeadBoards)
  | none => decide (boards = ∅)

def deadLinksExceeded (f : CandidateFilter) (classes : LinkClasses) : Bool :=
  match f.maxDeadLinks with
  | some maxDeadLinks =>
    let deadLinks :=
      if f.requireTorus then classes.dead.card + classes.deadWrap.card else classes.dead.card
    decide ((deadLinks : ℤ) > maxDeadLinks)
  | none => false

/-- `__call__`. The state is the last accepted candidate. -/
def call (f : CandidateFilter) : Filter (Option Candidate) := fun x y width height last =>
  let boards := f.enumerateBoards x y width height
  if f.deadBoardsExceeded width height boards then (false, last)
  else
    let classes := f.classifyLinks boards
    if f.requireTorus ∧ classes.wrapAroundType = .none then (false, last)
    else if f.deadLinksExceeded classes then (false, last)
    else (true, some ⟨boards, classes.periphery, classes.wrapAroundType⟩)

noncomputable def regionBoards (x y width height : ℤ) : Finset Board :=
  Finset.Ico x (x + width) ×ˢ Finset.Ico y (y + height) ×ˢ Finset.Ico 0 3

variable {f : CandidateFilter} {x y width height : ℤ}

theorem inRange_iff {b : Board} :
    inRange x y width height b ↔
      x ≤ b.1 ∧ b.1 < x + width ∧ y ≤ b.2.1 ∧ b.2.1 < y + height := by
  rw [inRange, decide_eq_true_eq]

theorem mem_regionBoards {b : Board} :
    b ∈ regionBoards x y width height ↔
      inRange x y width height b ∧ 0 ≤ b.2.2 ∧ b.2.2 < 3 := by
  simp only [regionBoards, Finset.mem_product, Finset.mem_Ico, inRange, decide_eq_true_eq]
  tauto

theorem origin_mem_regionBoards (hw : 0 < width) (hh : 0 < height) :
    (x, y, 0) ∈ regionBoards x y width height := by
  rw [mem_regionBoards]
  simp only [inRange, decide_eq_true_eq]
  omega

theorem card_regionBoards (hw : 0 < width) (hh : 0 < height) :
    ((regionBoards x y width height).card : ℤ) = width * (height * 3) := by
  simp only [regionBoards, Finset.card_product, Int.card_Ico]
  push_cast
  rw [Int.toNat_of_nonneg (by omega), Int.toNat_of_nonneg (by omega)]
  simp

/-- The boards that are appended when the links of each board are tried in this order. -/
def visitableIn (f : CandidateFilter) (order : Board → List Links) (x y width height : ℤ)
    (b : Board) : List Board :=
  (((order b).filter fun link => (b, link) ∉ f.deadLinks).map fun link =>
    neighbour b link f.width f.height).filter (inRange x y width height)

variable {order : Board → List Links}

theorem visitable_subset (order : Board → List Links) {a b : Board}
    (ha : a ∈ regionBoards x y width height) (hb : b ∈ f.visitableIn order x y width height a) :
    b ∈ regionBoards x y width height := by
  obtain ⟨hb, hr⟩ := List.mem_filter.mp hb
  obtain ⟨link, -, rfl⟩ := List.mem_map.mp hb
  exact mem_regionBoards.mpr ⟨hr, neighbour_z (mem_regionBoards.mp ha).2 link⟩

theorem visitable_length (horder : ∀ b, (order b).Perm Links.all) (a : Board) :
    (f.visitableIn order x y width height a).length ≤ 6 := by
  refine (List.length_filter_le _ _).trans ?_
  rw [List.length_map]
  exact (List.length_filter_le _ _).trans_eq (horder a).length_eq

theorem mem_enumerateBoards (hw : 0 < width) (hh : 0 < height) {b : Board}
    (hb : b ∈ f.enumerateBoards x y width height) :
    b ∈ regionBoards x y width height ∧ b ∉ f.deadBoards := by
  have h := explore_sound (P := fun b => b ∈ regionBoards x y width height)
    (fun a ha _ b hb => visitable_subset (fun _ => Links.all) ha hb)
    (by simpa using origin_mem_regionBoards hw hh) (by simp) hb
  exact h.imp_right of_decide_eq_true

def Joined (f : CandidateFilter) (x y width height : ℤ) (a b : Board) : Prop :=
  ∃ link, (a, link) ∉ f.deadLinks ∧ (boardDownLink a link f.width f.height).1 = b ∧
    inRange x y width height b ∧ b ∉ f.deadBoards

/-- The board can be reached from the first one, which works. -/
def Reachable (f : CandidateFilter) (x y width height : ℤ) (b : Board) : Prop :=
  (x, y, 0) ∉ f.deadBoards ∧ Relation.ReflTransGen (f.Joined x y width height) (x, y, 0) b

theorem mem_visitableIn (horder : ∀ b, (order b).Perm Links.all) {a b : Board} :
    b ∈ f.visitableIn order x y width height a ∧ decide (b ∉ f.deadBoards) ↔
      f.Joined x y width height a b := by
  simp only [visitableIn, Joined, List.mem_filter, List.mem_map, (horder a).mem_iff,
    decide_eq_true_eq]
  constructor
  · intro h
    obtain ⟨⟨⟨link, ⟨-, hlink⟩, rfl⟩, hrange⟩, hb⟩ := h
    exact ⟨link, hlink, rfl, hrange, hb⟩
  · intro h
    obtain ⟨link, hlink, rfl, hrange, hb⟩ := h
    refine ⟨⟨⟨link, ⟨?_, hlink⟩, rfl⟩, hrange⟩, hb⟩
    cases link <;> decide

theorem explores_visitableIn (order : Board → List Links)
    (horder : ∀ b, (order b).Perm Links.all) (hw : 0 < width) (hh : 0 < height) : Explores (fun b => decide (b ∉ f.deadBoards))
      (f.visitableIn order x y width height) [(x, y, 0)] ∅
      (explore (fun b => b ∉ f.deadBoards) (f.visitableIn order x y width height)
        ((18 * width * height).toNat + 2) [(x, y, 0)] ∅) := by
  have hc := card_regionBoards (x := x) (y := y) hw hh
  apply explores_explore _ _ (visitable_length horder) fun a ha b hb =>
    visitable_subset order ha hb
  · simpa using origin_mem_regionBoards hw hh
  · have he : 18 * width * height = 6 * (width * (height * 3)) := by ring
    rw [Finset.sdiff_empty, List.length_singleton, he, ← hc]
    omega

theorem explores_enumerateBoards (hw : 0 < width) (hh : 0 < height) :
    Explores (fun b => decide (b ∉ f.deadBoards)) (f.visitable x y width height) [(x, y, 0)] ∅
      (f.enumerateBoards x y width height) :=
  explores_visitableIn (fun _ => Links.all) (fun _ => .refl _) hw hh

theorem explores_reachable (order : Board → List Links) {boards : Finset Board}
    (horder : ∀ b, (order b).Perm Links.all)
    (h : Explores (fun b => decide (b ∉ f.deadBoards)) (f.visitableIn order x y width height)
      [(x, y, 0)] ∅ boards) (b : Board) : b ∈ boards ↔ f.Reachable x y width height b := by
  have hjoined : (fun a b => b ∈ f.visitableIn order x y width height a ∧
      decide (b ∉ f.deadBoards) = true) = f.Joined x y width height := by
    funext a b
    exact propext (mem_visitableIn horder)
  rw [h.mem_iff, hjoined, decide_eq_true_eq, Reachable]

/-- `_enumerate_boards` comes to its end, with the boards that can be reached from the first one,
whatever the order in which the links of each board are tried. -/
theorem enumerateBoards_reachable (hw : 0 < width) (hh : 0 < height) :
    (∀ b, b ∈ f.enumerateBoards x y width height ↔ f.Reachable x y width height b) ∧
      ((x, y, 0) ∈ f.deadBoards → f.enumerateBoards x y width height = ∅) ∧
      ∀ order : Board → List Links, (∀ b, (order b).Perm Links.all) → ∀ boards,
        Explores (fun b => decide (b ∉ f.deadBoards)) (f.visitableIn order x y width height)
          [(x, y, 0)] ∅ boards ↔ boards = f.enumerateBoards x y width height := by
  have hmem : ∀ b, b ∈ f.enumerateBoards x y width height ↔ f.Reachable x y width height b :=
    explores_reachable (fun _ => Links.all) (fun _ => .refl _)
      (explores_enumerateBoards hw hh)
  refine ⟨hmem, fun hdead => ?_, fun order horder boards => ?_⟩
  · apply Finset.eq_empty_of_forall_notMem
    intro b hb
    exact ((hmem b).mp hb).1 hdead
  · have hends := explores_visitableIn (f := f) (x := x) (y := y) order horder hw hh
    have hsame {boards : Finset Board}
        (h : Explores (fun b => decide (b ∉ f.deadBoards))
          (f.visitableIn order x y width height) [(x, y, 0)] ∅ boards) :
        boards = f.enumerateBoards x y width height := by
      ext b
      rw [explores_reachable order horder h, hmem]
    constructor
    · exact hsame
    · rintro rfl
      rwa [hsame hends] at hends

def patchy : CandidateFilter where
  width := 10
  height := 9
  deadBoards := {(0, 0, 1)}
  deadLinks := {((0, 0, 0), .north), ((1, 2, 0), .north)}
  maxDeadBoards := some 0
  maxDeadLinks := some 0
  requireTorus := false
  expectedBoards := none

theorem enumerateBoards_reachable_patchy :
    patchy.enumerateBoards 0 0 3 4 = {(0, 0, 0)} ∧
      ∀ b, b ∈ patchy.enumerateBoards 0 0 3 4 ↔ patchy.Reachable 0 0 3 4 b :=
  ⟨by decide, (enumerateBoards_reachable (by decide) (by decide)).1⟩

theorem mem_periphery {boards : Finset Board} {l : BoardLink} :
    l ∈ (f.classifyLinks boards).periphery ↔
      l.1 ∈ boards ∧ neighbour l.1 l.2 f.width f.height ∉ boards := by
  unfold classifyLinks far neighbour
  dsimp only
  rw [Finset.mem_filter, Finset.mem_product]
  simp

theorem call_spec {s s' : Option Candidate} (h : f.call x y width height s = (true, s')) :
    ∃ torus, s' = some ⟨f.enumerateBoards x y width height,
        (f.classifyLinks (f.enumerateBoards x y width height)).periphery, torus⟩ ∧
      (f.enumerateBoards x y width height).Nonempty := by
  have hne : f.deadBoardsExceeded width height (f.enumerateBoards x y width height) = false →
      (f.enumerateBoards x y width height).Nonempty := by
    unfold deadBoardsExceeded
    rw [Finset.nonempty_iff_ne_empty]
    split
    · next m _ =>
      intro hd he
      simp [he] at hd
    · exact of_decide_eq_false
  unfold call at h
  dsimp only at h
  split at h
  · cases h
  next hd =>
  split at h
  · cases h
  split at h
  · cases h
  obtain rfl := (Prod.mk.inj h).2
  exact ⟨_, rfl, hne (by simpa using hd)⟩

end CandidateFilter

end SpallocServer
