import Mathlib.Tactic.Ring
import SpallocServer.Allocator.Exclusive

namespace SpallocServer

open Foundation Prog Coordinates

namespace CandidateFilter

variable {f : CandidateFilter} {x y w v : ℤ}

/-- The dead links that count: those between two boards of the candidate, the ones that wrap
around only if a torus is required. -/
def deadLinksOf (width height : ℤ) (deadLinks : Finset BoardLink) (torus : Bool)
    (boards : Finset Board) : Finset BoardLink :=
  deadLinks.filter fun l => l.1 ∈ boards ∧ neighbour l.1 l.2 width height ∈ boards ∧
    (torus = true ∨ (boardDownLink l.1 l.2 width height).2 = .none)

theorem mem_dead {boards : Finset Board} {l : BoardLink} :
    l ∈ (f.classifyLinks boards).dead ↔
      l ∈ f.deadLinks ∧ l.1 ∈ boards ∧ (f.far l).1 ∈ boards ∧ (f.far l).2 = .none := by
  unfold classifyLinks
  dsimp only
  rw [Finset.mem_filter, Finset.mem_filter, Finset.mem_filter, Finset.mem_product]
  simp only [Finset.mem_univ, and_true]
  tauto

theorem mem_deadWrap {boards : Finset Board} {l : BoardLink} :
    l ∈ (f.classifyLinks boards).deadWrap ↔
      l ∈ f.deadLinks ∧ l.1 ∈ boards ∧ (f.far l).1 ∈ boards ∧ (f.far l).2 ≠ .none := by
  unfold classifyLinks
  dsimp only
  rw [Finset.mem_filter, Finset.mem_filter, Finset.mem_filter, Finset.mem_product]
  simp only [Finset.mem_univ, and_true]
  tauto

theorem mem_deadLinksOf {boards : Finset Board} {torus : Bool} {l : BoardLink} :
    l ∈ deadLinksOf f.width f.height f.deadLinks torus boards ↔
      l ∈ f.deadLinks ∧ l.1 ∈ boards ∧ (f.far l).1 ∈ boards ∧
        (torus = true ∨ (f.far l).2 = .none) := Finset.mem_filter

theorem card_deadLinksOf (f : CandidateFilter) (boards : Finset Board) :
    (deadLinksOf f.width f.height f.deadLinks f.requireTorus boards).card =
      if f.requireTorus then
        (f.classifyLinks boards).dead.card + (f.classifyLinks boards).deadWrap.card
      else (f.classifyLinks boards).dead.card := by
  split
  · next ht =>
    have hapart : Disjoint (f.classifyLinks boards).dead (f.classifyLinks boards).deadWrap := by
      rw [Finset.disjoint_left]
      intro l hl hw
      exact (mem_deadWrap.mp hw).2.2.2 (mem_dead.mp hl).2.2.2
    rw [← Finset.card_union_of_disjoint hapart]
    congr 1
    ext l
    rw [Finset.mem_union, mem_dead, mem_deadWrap, mem_deadLinksOf]
    tauto
  · next ht =>
    congr 1
    ext l
    rw [mem_dead, mem_deadLinksOf]
    tauto

structure Accepts (f : CandidateFilter) (w v : ℤ) (c : Candidate) : Prop where
  dead : ∀ k, f.maxDeadBoards = some k →
    f.expectedBoards.getD (w * v * 3) - k ≤ c.boards.card
  links : ∀ m, f.maxDeadLinks = some m →
    ((deadLinksOf f.width f.height f.deadLinks f.requireTorus c.boards).card : ℤ) ≤ m
  torus : f.requireTorus = true → c.torus ≠ .none

theorem call_accepts {s s' : Option Candidate} (h : f.call x y w v s = (true, s')) :
    ∃ c, s' = some c ∧ c.boards = f.enumerateBoards x y w v ∧ c.boards.Nonempty ∧
      f.Accepts w v c := by
  have hlinks (boards : Finset Board) (hno : ¬f.deadLinksExceeded (f.classifyLinks boards) = true)
      (m : ℤ) (hm : f.maxDeadLinks = some m) :
      ((deadLinksOf f.width f.height f.deadLinks f.requireTorus boards).card : ℤ) ≤ m := by
    rw [card_deadLinksOf]
    simpa [deadLinksExceeded, hm] using hno
  obtain ⟨torus, hs, hne⟩ := call_spec h
  refine ⟨_, hs, rfl, hne, ?_⟩
  unfold call at h
  dsimp only at h
  split at h
  · cases h
  next hd =>
  split at h
  · cases h
  next ht =>
  split at h
  · cases h
  next hl =>
  obtain ⟨-, he⟩ := Prod.mk.inj h
  rw [hs] at he
  obtain ⟨-, -, rfl⟩ := Candidate.mk.inj (Option.some.inj he)
  refine ⟨fun k hk => ?_, hlinks _ hl, fun hr he => ht ⟨hr, he⟩⟩
  simp only [deadBoardsExceeded, hk, decide_eq_true_eq, not_or, not_lt] at hd
  dsimp only
  omega

theorem corner_mem_enumerateBoards (h : (f.enumerateBoards x y w v).Nonempty) :
    (x, y, 0) ∈ f.enumerateBoards x y w v := first_mem_explore h

end CandidateFilter

/-- A width and a height in triads, or a number of boards other than one. -/
def Request.Multiple (r : Request) : Prop :=
  (∃ w v, r.args = .two (.int w) (.int v)) ∨ ∃ n, n ≠ 1 ∧ r.args = .one (.int n)

/-- The rectangle has the size asked for, or room for the boards asked for, and this many
boards are expected in it. -/
def Request.Expects (r : Request) (rect : Region) (boards : ℤ) : Prop :=
  (r.args = .two (.int rect.width) (.int rect.height) ∧
      boards = 3 * rect.width * rect.height) ∨
    (r.args = .one (.int boards) ∧ AreaToRect.ceilDiv boards 3 ≤ rect.area)

namespace Allocator

variable {a a' b : Allocator} {r : Request} {c : Constraints}

structure Delivers (a : Allocator) (c : Constraints) (expected : ℤ) (rect : Region)
    (al : Allocation) : Prop where
  inside : (0 ≤ rect.x ∧ rect.x + rect.width ≤ a.width) ∧
    0 ≤ rect.y ∧ rect.y + rect.height ≤ a.height
  boards : ∀ b ∈ al.boards, (b.1, b.2.1) ∈ rect.cells ∧ 0 ≤ b.2.2 ∧ b.2.2 < 3
  corner : (rect.x, rect.y, 0) ∈ al.boards
  alive : ∀ b ∈ al.boards, b ∉ a.deadBoards
  dead : ∀ k, c.maxDeadBoards = some k → expected - k ≤ al.boards.card
  links : ∀ m, c.maxDeadLinks = some m → ((CandidateFilter.deadLinksOf a.width a.height
    a.deadLinks c.requireTorus al.boards).card : ℤ) ≤ m
  torus : c.requireTorus = true → rect = ⟨0, 0, a.width, a.height⟩ ∧ al.torus ≠ .none

structure Rooted (a : Allocator) : Prop where
  tree : a.packTree.Valid
  region : a.packTree.region = ⟨0, 0, a.width, a.height⟩

theorem cells_inside {rect root : Region} (hpos : rect.Positive)
    (hsub : ∀ c ∈ rect.cells, c ∈ root.cells) :
    (root.x ≤ rect.x ∧ rect.x + rect.width ≤ root.x + root.width) ∧
      root.y ≤ rect.y ∧ rect.y + rect.height ≤ root.y + root.height := by
  obtain ⟨hw, hh⟩ := hpos
  have hfirst := hsub (rect.x, rect.y) (by rw [Region.mem_cells]; dsimp only; omega)
  have hlast := hsub (rect.x + rect.width - 1, rect.y + rect.height - 1)
    (by rw [Region.mem_cells]; dsimp only; omega)
  rw [Region.mem_cells] at hfirst hlast
  dsimp only at hfirst hlast
  omega

theorem Rooted.inside (h : Rooted a) {rect : Region} {tree : PackTree}
    (hadd : a.packTree.Adds rect tree) : rect.Positive ∧
      (0 ≤ rect.x ∧ rect.x + rect.width ≤ a.width) ∧
      0 ≤ rect.y ∧ rect.y + rect.height ≤ a.height := by
  have hmem : rect ∈ tree.allocated := (hadd.mem rect).mpr (.inl rfl)
  have hpos := hadd.valid.allocated_positive hmem
  have hin := cells_inside hpos fun c hc => hadd.valid.allocated_subset hmem hc
  rw [hadd.region, h.region] at hin
  simp only [zero_add] at hin
  exact ⟨hpos, hin⟩

theorem Rooted.delivers (h : Rooted a) (rect : Region) {expected : Option ℤ} {tree : PackTree}
    {last : Option Candidate} (hadd : a.packTree.Adds rect tree)
    (hacc : PackTree.Accepted (some (a.candidateFilter c expected).call) rect.x rect.y rect.width
      rect.height none last)
    (htorus : c.requireTorus = true → rect = ⟨0, 0, a.width, a.height⟩) :
    wp (allocated (rect.x, rect.y) last)
      (fun res a' => ∃ al, res = some al ∧ a'.packTree = tree ∧
        Delivers a c (expected.getD (rect.width * rect.height * 3)) rect al)
      (fun _ _ => False) { a with packTree := tree } := by
  obtain ⟨⟨hw, hh⟩, hin⟩ := h.inside hadd
  obtain ⟨s₁, -, hcall⟩ := hacc
  obtain ⟨cand, rfl, hboards, hne, haccepts⟩ := CandidateFilter.call_accepts hcall
  simp only [allocated, register, wp_bind, wp_state, wp_update, wp_pure]
  refine ⟨_, rfl, rfl, hin, fun b hb => ?_, ?_, fun b hb => ?_, haccepts.dead, haccepts.links,
    fun ht => ⟨htorus ht, haccepts.torus ht⟩⟩
  · rw [hboards] at hb
    obtain ⟨hreg, -⟩ := CandidateFilter.mem_enumerateBoards hw hh hb
    obtain ⟨hrange, hz⟩ := CandidateFilter.mem_regionBoards.mp hreg
    exact ⟨Region.mem_cells.mpr (CandidateFilter.inRange_iff.mp hrange), hz⟩
  · rw [hboards] at hne ⊢
    exact CandidateFilter.corner_mem_enumerateBoards hne
  · rw [hboards] at hb
    exact (CandidateFilter.mem_enumerateBoards hw hh hb).2

/-- What `alloc` does for a block, once the expired entries are freed. -/
def Meets (a : Allocator) (r : Request) (res : Option Allocation) (a' : Allocator) : Prop :=
  match res with
  | none => a' = a
  | some al => ∃ rect expected, r.Expects rect expected ∧ a.packTree.Adds rect a'.packTree ∧
      Delivers a r.constraints expected rect al

theorem Rooted.allocTriads_meets (h : Rooted a) {w v : ℤ}
    (hargs : r.args = .two (.int w) (.int v)) :
    wp (allocTriads (.int w) (.int v) r.constraints) (Meets a r) (fun _ _ => True) a := by
  simp only [allocTriads, wp_bind, wp_state]
  split
  · rfl
  next htorus =>
  simp only [Value.against, Value.num, wp_bind, wp_ofExcept_ok]
  split
  · rfl
  next hw =>
  simp only [wp_bind, wp_ofExcept_ok]
  split
  · rfl
  next hv =>
  have hA := PackTree.alloc_spec (some (a.candidateFilter r.constraints none).call)
    (not_le.mp hw) (not_le.mp hv) h.tree none
  generalize a.packTree.alloc (some (a.candidateFilter r.constraints none).call) w v none = res
    at hA ⊢
  obtain ⟨_ | ⟨x, y⟩, tree, last⟩ := res
  · obtain ⟨rfl, -⟩ := hA.none rfl
    rfl
  · obtain ⟨hadd, hacc⟩ := hA.some x y rfl
    obtain ⟨-, hin⟩ := h.inside hadd
    have hwhole : r.constraints.requireTorus = true →
        (⟨x, y, w, v⟩ : Region) = ⟨0, 0, a.width, a.height⟩ := by
      intro ht
      have hsize : w = a.width ∧ v = a.height := by
        by_contra hne
        rw [not_and_or] at hne
        exact htorus ⟨ht, hne.imp (fun h he => h (Value.int.inj he)) fun h he =>
          h (Value.int.inj he)⟩
      obtain ⟨rfl, rfl⟩ := hsize
      dsimp only at hin
      rw [Region.mk.injEq]
      omega
    simp only [wp_bind, wp_update]
    apply (h.delivers ⟨x, y, w, v⟩ hadd hacc hwhole).mono
    · intro res a' hpost
      obtain ⟨al, hres, htree, hdel⟩ := hpost
      rw [hres, Meets, htree]
      refine ⟨_, _, .inl ⟨hargs, ?_⟩, hadd, hdel⟩
      simp only [Option.getD_none]
      ring
    · exact fun _ _ he => he.elim

theorem whole_of_area {rect : Region} {width height : ℤ} (hpos : rect.Positive)
    (hx : 0 ≤ rect.x ∧ rect.x + rect.width ≤ width)
    (hy : 0 ≤ rect.y ∧ rect.y + rect.height ≤ height) (harea : width * height ≤ rect.area) :
    rect = ⟨0, 0, width, height⟩ := by
  obtain ⟨hw, hh⟩ := hpos
  unfold Region.area at harea
  have hwidth : rect.width = width := by
    by_contra hne
    have hlt : rect.width + 1 ≤ width := by omega
    nlinarith
  have hheight : rect.height = height := by
    by_contra hne
    have hlt : rect.height + 1 ≤ height := by omega
    nlinarith
  obtain ⟨x, y, w, v⟩ := rect
  rw [Region.mk.injEq]
  dsimp only at *
  omega

theorem Rooted.allocBoards_meets (h : Rooted a) {n : ℤ} (hargs : r.args = .one (.int n)) :
    wp (allocBoards (.int n) r.constraints) (Meets a r) (fun _ _ => True) a := by
  simp only [allocBoards, wp_bind, wp_state]
  by_cases hlimit : floatLimit ≤ n.natAbs
  · rw [triadsFor_overflow hlimit]
    trivial
  rw [triadsFor_int (not_le.mp hlimit), wp_ofExcept_ok]
  dsimp only
  split
  · rfl
  split
  · rfl
  next htorus =>
  have hA := PackTree.allocArea_spec (some (a.candidateFilter r.constraints (some n)).call)
    (AreaToRect.ceilDiv n 3) r.constraints.minRatio h.tree none
  generalize a.packTree.allocArea (some (a.candidateFilter r.constraints (some n)).call)
    (AreaToRect.ceilDiv n 3) r.constraints.minRatio none = res at hA ⊢
  obtain ⟨e | _ | ⟨x, y, w, v⟩, tree, last⟩ := res
  · trivial
  · obtain ⟨rfl, -⟩ := hA.none rfl
    rfl
  · obtain ⟨harea, hadd, hacc⟩ := hA.some x y w v rfl
    obtain ⟨hpos, hin⟩ := h.inside hadd
    have hwhole : r.constraints.requireTorus = true →
        (⟨x, y, w, v⟩ : Region) = ⟨0, 0, a.width, a.height⟩ := by
      intro ht
      have htriads : AreaToRect.ceilDiv n 3 = a.width * a.height := by
        by_contra hne
        exact htorus ⟨ht, hne⟩
      apply whole_of_area hpos hin.1 hin.2
      rw [← htriads]
      exact harea
    simp only [wp_bind, wp_update, wp_ofExcept_ok]
    apply (h.delivers ⟨x, y, w, v⟩ hadd hacc hwhole).mono
    · intro res a' hpost
      obtain ⟨al, hres, htree, hdel⟩ := hpost
      rw [hres, Meets, htree]
      exact ⟨⟨x, y, w, v⟩, n, .inr ⟨hargs, harea⟩, hadd, hdel⟩
    · exact fun _ _ he => he.elim

theorem Rooted.allocate_meets (h : Rooted a) (hr : r.Multiple) :
    wp (allocate r) (Meets a r) (fun _ _ => True) a := by
  unfold allocate
  rw [wp_bind]
  obtain ⟨w, v, hargs⟩ | ⟨n, hn, hargs⟩ := hr
  · have htype : r.allocType = .ok .triads := by
      simp [Request.allocType, Request.bindType, Request.type, Request.x, Request.y, Request.z,
        hargs, bind, Except.bind, Except.mapError]
    have hbind : r.bindTriads = .ok (.int w, .int v, r.constraints) := by
      simp [Request.bindTriads, Request.x, Request.y, hargs]
    rw [htype, hbind, wp_ofExcept_ok]
    simp only [Except.mapError, wp_bind, wp_ofExcept_ok]
    exact h.allocTriads_meets hargs
  · have htype : r.allocType = .ok .boards := by
      simp [Request.allocType, Request.bindType, Request.type, Request.x, Request.y, hargs, hn,
        bind, Except.bind, Except.mapError]
    have hbind : r.bindBoards = .ok (.int n, r.constraints) := by
      simp [Request.bindBoards, Request.x, hargs]
    rw [htype, hbind, wp_ofExcept_ok]
    simp only [Except.mapError, wp_bind, wp_ofExcept_ok]
    exact h.allocBoards_meets hargs

structure Whole (a : Allocator) (b : Allocator) : Prop extends Rooted b where
  setup : SameSetup a b

theorem Whole.congr (h : Whole a b) (htree : a'.packTree = b.packTree) (hs : SameSetup b a') :
    Whole a a' := by
  refine ⟨⟨?_, ?_⟩, h.setup.trans hs⟩
  · rw [htree]
    exact h.tree
  · rw [htree, hs.width, hs.height]
    exact h.region

theorem Whole.tree_changed (h : Whole a b) {tree : PackTree} (hv : tree.Valid)
    (hr : tree.region = b.packTree.region) : Whole a { b with packTree := tree } :=
  ⟨⟨hv, hr.trans h.region⟩, h.setup.trans ⟨rfl, rfl, rfl, rfl, rfl, rfl⟩⟩

theorem Whole.freeTriads (h : Whole a b) (x y : ℤ) :
    wp (freeTriads x y) (fun _ => Whole a) (fun _ => Whole a) b := by
  have hfree := PackTree.free_spec x y h.tree
  simp only [Allocator.freeTriads, wp_bind, wp_state]
  apply wp_ofExcept
  · intro tree htree
    obtain ⟨_, _, _, _, hrem⟩ := hfree.ok tree htree
    exact h.tree_changed hrem.valid hrem.region
  · exact fun _ _ => h

theorem Whole.returnBoard (h : Whole a b) (xy : ℤ × ℤ) (z : ℤ) :
    wp (returnBoard xy z) (fun _ => Whole a) (fun _ => Whole a) b := by
  have hreopened : Whole a (b.reopened xy) := h.congr rfl ⟨rfl, rfl, rfl, rfl, rfl, rfl⟩
  simp only [Allocator.returnBoard, wp_bind, wp_state, wp_update]
  split
  · exact hreopened
  · exact hreopened.congr rfl ⟨rfl, rfl, rfl, rfl, rfl, rfl⟩

theorem Whole.freeNext (h : Whole a b) : wp freeNext (fun _ => Whole a) (fun _ => Whole a) b := by
  simp only [Allocator.freeNext, wp_bind, wp_state]
  split
  · exact h
  next entry rest _ =>
  have hrest : Whole a { b with toFree := rest } := h.congr rfl ⟨rfl, rfl, rfl, rfl, rfl, rfl⟩
  simp only [wp_bind, wp_update]
  split
  · exact hrest.freeTriads _ _
  · rw [wp_bind]
    apply (hrest.returnBoard _ _).mono
    · intro free b' h'
      split
      · rw [wp_bind, wp_update]
        have hclosed (xy : ℤ × ℤ) : Whole a (b'.closed xy) :=
          h'.congr rfl ⟨rfl, rfl, rfl, rfl, rfl, rfl⟩
        exact (hclosed _).freeTriads _ _
      · exact h'
    · exact fun _ _ he => he
  · exact hrest

theorem Whole.checkFreeLoop (h : Whole a b) (changed : Bool) (n : ℕ) :
    wp (checkFreeLoop changed n) (fun _ => Whole a) (fun _ => Whole a) b := by
  induction n generalizing b changed with
  | zero => exact h
  | succ n ih =>
    unfold Allocator.checkFreeLoop
    simp only [wp_bind, wp_state]
    split
    · exact h
    · have hread : Whole a { b with reads := b.reads + 1 } :=
        h.congr rfl ⟨rfl, rfl, rfl, rfl, rfl, rfl⟩
      simp only [now, wp_bind, wp_state, wp_update, wp_pure]
      split
      · exact hread
      · rw [wp_bind]
        exact hread.freeNext.mono (fun _ _ h' => ih h' true) fun _ _ he => he

theorem Whole.checkFree (h : Whole a b) : wp checkFree (fun _ => Whole a) (fun _ => Whole a) b := by
  simp only [Allocator.checkFree, wp_bind, wp_state]
  exact h.checkFreeLoop false _

theorem Whole.outcome (h : Whole a b) {res : Except Error (Option Allocation)}
    (ho : Outcome b r res a') : Whole a a' := by
  have hs := ho.sameSetup
  cases ho with
  | refused _ _ => exact h
  | starved _ => exact h
  | nothing => exact h
  | triads _ _ _ _ hadd _ _ =>
    exact (h.tree_changed hadd.valid hadd.region).congr rfl ⟨rfl, rfl, rfl, rfl, rfl, rfl⟩
  | spare _ _ => exact h.congr rfl hs
  | fresh hadd _ _ =>
    exact (h.tree_changed hadd.valid hadd.region).congr rfl ⟨rfl, rfl, rfl, rfl, rfl, rfl⟩
  | leaked hadd _ _ _ =>
    exact (h.tree_changed hadd.valid hadd.region).congr rfl ⟨rfl, rfl, rfl, rfl, rfl, rfl⟩

theorem Whole.alloc (h : Whole a b) (r : Request) :
    wp (alloc r) (fun _ => Whole a) (fun _ => Whole a) b := by
  rw [alloc_eq, wp_bind]
  apply h.checkFree.mono
  · intro _ b' h'
    exact (allocate_spec h'.tree r).mono (fun _ _ ho => h'.outcome ho) fun _ _ ho => h'.outcome ho
  · exact fun _ _ he => he

theorem Whole.free (h : Whole a b) (id : ℕ) :
    wp (free id) (fun _ => Whole a) (fun _ => Whole a) b := by
  simp only [Allocator.free, wp_bind, wp_state]
  split
  · exact h
  simp only [wp_bind, wp_update]
  split
  · exact h.congr rfl ⟨rfl, rfl, rfl, rfl, rfl, rfl⟩
  · simp only [now, wp_bind, wp_state, wp_update, wp_pure]
    exact h.congr rfl ⟨rfl, rfl, rfl, rfl, rfl, rfl⟩

end Allocator

namespace Session

open Allocator

variable {s : Session} {c : Setup}

/-- Any sequence of calls of `alloc`, `free` and `check_free`. -/
def history (c : Setup) : System Session AllocatorCall :=
  (system c).restrict fun _ call => ∀ deadBoards, call ≠ .setDeadBoards deadBoards

theorem history_whole (h : (history c).Reachable s) : Whole c.start.allocator s.allocator := by
  refine h.invariant (I := fun s => Whole c.start.allocator s.allocator) ?_ ?_
  · intro s hs
    rw [show s = c.start from hs]
    exact ⟨⟨⟨Int.add_one_le_iff.mp c.width_pos, Int.add_one_le_iff.mp c.height_pos⟩, rfl⟩, .refl _⟩
  · intro s call s' _ hk ⟨hsteady, hstep⟩
    rw [show s' = (s.run call).2 from hstep]
    cases call with
    | alloc r =>
      have h' := wp_same (hk.alloc r)
      simp only [Session.run]
      generalize (Allocator.alloc r).run s.allocator = res at h' ⊢
      obtain ⟨e | _ | al, a⟩ := res <;> exact h'
    | free id =>
      have h' := wp_same (hk.free id)
      simp only [Session.run]
      generalize (Allocator.free id).run s.allocator = res at h' ⊢
      obtain ⟨e | u, a⟩ := res <;> exact h'
    | checkFree =>
      have h' := wp_same hk.checkFree
      simp only [Session.run]
      generalize Allocator.checkFree.run s.allocator = res at h' ⊢
      obtain ⟨e | u, a⟩ := res <;> exact h'
    | setDeadBoards d => exact absurd rfl (hsteady d)

/-- An allocation of a block that succeeds meets its request, in a rectangle that was free once
the expired entries were freed. One that fails does nothing else. -/
theorem alloc_delivers (c : Setup) (h : (history c).Reachable s) {r : Request}
    (hr : r.Multiple) :
    (∀ al a', (Allocator.alloc r).run s.allocator = (.ok (some al), a') →
      ∃ changed b rect expected, Allocator.checkFree.run s.allocator = (.ok changed, b) ∧
        r.Expects rect expected ∧ b.packTree.Adds rect a'.packTree ∧
        ((0 ≤ rect.x ∧ rect.x + rect.width ≤ c.width) ∧
          0 ≤ rect.y ∧ rect.y + rect.height ≤ c.height) ∧
        (∀ b ∈ al.boards, (b.1, b.2.1) ∈ rect.cells ∧ 0 ≤ b.2.2 ∧ b.2.2 < 3) ∧
        (rect.x, rect.y, 0) ∈ al.boards ∧ (∀ b ∈ al.boards, b ∉ c.deadBoards) ∧
        (∀ k, r.maxDeadBoards.getD none = some k → expected - k ≤ al.boards.card) ∧
        (∀ m, r.maxDeadLinks.getD none = some m → ((CandidateFilter.deadLinksOf c.width c.height
          c.deadLinks r.torus.holds al.boards).card : ℤ) ≤ m) ∧
        (r.torus.holds = true → rect = ⟨0, 0, c.width, c.height⟩ ∧ al.torus ≠ .none)) ∧
    ∀ a', (Allocator.alloc r).run s.allocator = (.ok none, a') →
      ∃ changed, Allocator.checkFree.run s.allocator = (.ok changed, a') := by
  have hwhole := history_whole h
  have hmeets : wp (Allocator.alloc r) (fun res a' => ∃ changed b,
      Allocator.checkFree.run s.allocator = (.ok changed, b) ∧ Whole c.start.allocator b ∧
        Meets b r res a') (fun _ _ => True) s.allocator := by
    rw [alloc_eq, wp_bind]
    have hcheck := hwhole.checkFree
    unfold wp at hcheck
    rcases hrun : Allocator.checkFree.run s.allocator with ⟨e | changed, b⟩
    · exact wp_intro_error hrun trivial
    · rw [hrun] at hcheck
      refine wp_intro_ok hrun ?_
      exact (hcheck.allocate_meets hr).mono (fun _ _ hm => ⟨changed, b, rfl, hcheck, hm⟩)
        fun _ _ _ => trivial
  constructor
  · intro al a' hrun
    obtain ⟨changed, b, hcheck, hb, rect, expected, hexpects, hadd, hdel⟩ :=
      wp_of_eq_ok hmeets hrun
    have hwidth : b.width = c.width := hb.setup.width
    have hheight : b.height = c.height := hb.setup.height
    have hboards : b.deadBoards = c.deadBoards := hb.setup.deadBoards
    have hlinks : b.deadLinks = c.deadLinks := hb.setup.deadLinks
    rw [← hwidth, ← hheight, ← hboards, ← hlinks]
    exact ⟨changed, b, rect, expected, hcheck, hexpects, hadd, hdel.inside, hdel.boards,
      hdel.corner, hdel.alive, hdel.dead, hdel.links, hdel.torus⟩
  · intro a' hrun
    obtain ⟨changed, b, hcheck, -, hsame⟩ := wp_of_eq_ok hmeets hrun
    rw [show a' = b from hsame]
    exact ⟨changed, hcheck⟩

theorem alloc_delivers_oneTriad : ∃ al a',
    (Allocator.alloc { args := .two (.int 1) (.int 1), maxDeadBoards := some (some 0) }).run
      oneTriad.start.allocator = (.ok (some al), a') ∧ (3 : ℤ) ≤ al.boards.card := by
  have hrun : ∃ al a', (Allocator.alloc
      { args := .two (.int 1) (.int 1), maxDeadBoards := some (some 0) }).run
        oneTriad.start.allocator = (.ok (some al), a') := ⟨_, _, rfl⟩
  obtain ⟨al, a', hrun⟩ := hrun
  obtain ⟨-, -, rect, expected, -, hexpects, -, -, -, -, -, hdead, -⟩ :=
    (alloc_delivers oneTriad (.start rfl) (.inl ⟨1, 1, rfl⟩)).1 al a' hrun
  have hcard := hdead 0 rfl
  obtain ⟨hargs, rfl⟩ | ⟨hargs, -⟩ := hexpects
  · obtain ⟨hw, hh⟩ := Args.two.inj hargs
    rw [← Value.int.inj hw, ← Value.int.inj hh] at hcard
    exact ⟨al, a', hrun, by omega⟩
  · cases hargs

end Session

end SpallocServer
