import SpallocServer.AreaToRect.Ratio
import SpallocServer.PackTree.Completeness
import SpallocServer.Allocator.Session

namespace SpallocServer

open Foundation Prog

namespace CandidateFilter

def acceptable (f : CandidateFilter) (x y width height : ℤ) : Bool :=
  (f.call x y width height none).1

theorem call_decides (f : CandidateFilter) : PackTree.Decides (some f.call) f.acceptable := by
  intro x y w h s
  simp only [PackTree.accepts, acceptable, call]
  split
  · rfl
  split
  · rfl
  split <;> rfl

end CandidateFilter

namespace Allocator

variable {a : Allocator} {r : Request}

structure Idle (a : Allocator) : Prop where
  width : 1 ≤ a.width
  height : 1 ≤ a.height
  tree : a.packTree = PackTree.new 0 0 a.width a.height
  toFree : a.toFree = []
  triads : a.singleBoardTriads = Dict.empty

theorem idle_new {width height : ℤ} (hw : 1 ≤ width) (hh : 1 ≤ height) (deadBoards : Finset Board)
    (deadLinks : Finset BoardLink) (nextId : ℕ) (secondsBeforeFree : ℤ) (clock : ℕ → ℤ)
    (setPop : SetPop) :
    Idle (new width height deadBoards deadLinks nextId secondsBeforeFree clock setPop) :=
  ⟨hw, hh, rfl, rfl, rfl⟩

theorem Idle.valid (h : Idle a) : a.packTree.Valid := by
  rw [h.tree]
  exact ⟨Int.add_one_le_iff.mp h.width, Int.add_one_le_iff.mp h.height⟩

theorem Idle.alloc_run (h : Idle a) (r : Request) : (alloc r).run a = (allocate r).run a := by
  rw [alloc_eq, run_bind]
  have hcheck : checkFree.run a = (.ok false, a) := by
    unfold checkFree
    rw [run_bind]
    change (checkFreeLoop false a.toFree.length).run a = _
    rw [h.toFree]
    rfl
  rw [hcheck]

theorem Idle.offers (h : Idle a) {p : ℤ → ℤ → ℤ → ℤ → Bool} {w v : ℤ} :
    PackTree.Offers p w v a.packTree ↔ w ≤ a.width ∧ v ≤ a.height ∧
      ∃ x ∈ [0, a.width - w], ∃ y ∈ [0, a.height - v], p x y w v = true := by
  rw [h.tree, PackTree.new, PackTree.offers_leaf]
  simp [PackTree.corners, or_assoc]

theorem cornerAccepted_iff (a : Allocator) (f : CandidateFilter) (w v : ℤ) :
    a.cornerAccepted f w v = true ↔
      ∃ x ∈ [0, a.width - w], ∃ y ∈ [0, a.height - v], f.acceptable x y w v = true := by
  simp only [cornerAccepted, CandidateFilter.acceptable, List.any_cons, List.any_nil,
    Bool.or_false, Bool.or_eq_true, List.mem_cons, List.not_mem_nil, or_false, exists_eq_or_imp,
    exists_eq_left]
  tauto

/-- What the allocation of a block needs on an idle machine. -/
structure Fits (a : Allocator) (c : Constraints) (f : CandidateFilter) (w v : ℤ) : Prop where
  width : 0 < w ∧ w ≤ a.width
  height : 0 < v ∧ v ≤ a.height
  torus : c.requireTorus = true → w = a.width ∧ v = a.height
  corner : a.cornerAccepted f w v = true

theorem allocTriadsPossible_int (a : Allocator) (w v : ℤ) (c : Constraints) :
    a.allocTriadsPossible (.int w) (.int v) c =
      if w > a.width then .ok false
      else if v > a.height then .ok false
      else if w ≤ 0 ∨ v ≤ 0 then .ok false
      else if c.requireTorus ∧ (w ≠ a.width ∨ v ≠ a.height) then .ok false
      else .ok (a.cornerAccepted (a.candidateFilter c none) w v) := rfl

theorem allocTriadsPossible_fits (a : Allocator) (w v : ℤ) (c : Constraints) :
    ∃ possible, a.allocTriadsPossible (.int w) (.int v) c = .ok possible ∧
      (possible = true ↔ Fits a c (a.candidateFilter c none) w v) := by
  rw [allocTriadsPossible_int]
  split
  · next hbig => exact ⟨false, rfl, iff_of_false nofun fun hf => hbig.not_ge hf.width.2⟩
  split
  · next hbig => exact ⟨false, rfl, iff_of_false nofun fun hf => hbig.not_ge hf.height.2⟩
  split
  · next hnone =>
    refine ⟨false, rfl, iff_of_false nofun fun hf => ?_⟩
    have hw := hf.width.1
    have hv := hf.height.1
    omega
  split
  · next htorus =>
    refine ⟨false, rfl, iff_of_false nofun fun hf => ?_⟩
    obtain ⟨hw, hv⟩ := hf.torus htorus.1
    exact htorus.2.elim (fun h => h hw) fun h => h hv
  · next htorus =>
    refine ⟨_, rfl, fun hc => ⟨by omega, by omega, fun ht => ?_, hc⟩, Fits.corner⟩
    by_contra hne
    exact htorus ⟨ht, not_and_or.mp hne⟩

theorem allocated_wp {f : CandidateFilter} {xy : ℤ × ℤ} {x y w v : ℤ} {last : Option Candidate}
    (hacc : PackTree.Accepted (some f.call) x y w v none last) :
    wp (allocated xy last) (fun res _ => res.isSome) (fun _ _ => False) a := by
  obtain ⟨s₁, -, hcall⟩ := hacc
  obtain ⟨torus, rfl, -⟩ := CandidateFilter.call_spec hcall
  simp only [allocated, register, wp_bind, wp_state, wp_update, wp_pure, Option.isSome_some]

theorem Idle.alloc_tree (h : Idle a) (f : CandidateFilter) (w v : ℤ) :
    (a.packTree.alloc (some f.call) w v none).1 ≠ none ↔
      w ≤ a.width ∧ v ≤ a.height ∧ a.cornerAccepted f w v = true := by
  rw [ne_eq, PackTree.alloc_none_iff f.call_decides h.valid, not_not, h.offers,
    cornerAccepted_iff]

theorem Idle.allocTriads_fits (h : Idle a) (w v : ℤ) (c : Constraints) :
    wp (allocTriads (.int w) (.int v) c)
      (fun res _ => res.isSome ↔ Fits a c (a.candidateFilter c none) w v)
      (fun _ _ => False) a := by
  simp only [allocTriads, wp_bind, wp_state]
  split
  · next htorus =>
    refine iff_of_false (by simp) fun hf => ?_
    obtain ⟨rfl, rfl⟩ := hf.torus htorus.1
    exact htorus.2.elim (fun h => h rfl) fun h => h rfl
  next htorus =>
  simp only [Value.against, Value.num, wp_bind, wp_ofExcept_ok]
  split
  · next hw => exact iff_of_false (by simp) fun hf => hw.not_gt hf.width.1
  next hw =>
  simp only [wp_bind, wp_ofExcept_ok]
  split
  · next hv => exact iff_of_false (by simp) fun hf => hv.not_gt hf.height.1
  next hv =>
  have htree := h.alloc_tree (a.candidateFilter c none) w v
  have hA := PackTree.alloc_spec (some (a.candidateFilter c none).call) (not_le.mp hw)
    (not_le.mp hv) h.valid none
  generalize a.packTree.alloc (some (a.candidateFilter c none).call) w v none = res at htree hA ⊢
  obtain ⟨_ | ⟨x, y⟩, tree, last⟩ := res
  · refine iff_of_false (by simp) fun hf => ?_
    exact htree.mpr ⟨hf.width.2, hf.height.2, hf.corner⟩ rfl
  · obtain ⟨hfw, hfv, hcorner⟩ := htree.mp (by simp)
    obtain ⟨-, hacc⟩ := hA.some x y rfl
    have hfits : Fits a c (a.candidateFilter c none) w v := by
      refine ⟨⟨not_le.mp hw, hfw⟩, ⟨not_le.mp hv, hfv⟩, fun ht => ?_, hcorner⟩
      by_contra hne
      rw [not_and_or] at hne
      exact htorus ⟨ht, hne.imp (fun h he => h (Value.int.inj he)) fun h he =>
        h (Value.int.inj he)⟩
    simp only [wp_bind, wp_update]
    exact (allocated_wp hacc).mono (fun _ _ hsome => iff_of_true hsome hfits) fun _ _ => id

def FitsBoards (a : Allocator) (c : Constraints) (n : ℤ) : Prop :=
  0 < AreaToRect.ceilDiv n 3 ∧
    (c.requireTorus = true → AreaToRect.ceilDiv n 3 = a.width * a.height) ∧
    ∃ w v, AreaToRect.areaToRect (AreaToRect.ceilDiv n 3) a.width a.height c.minRatio =
        .ok (some (w, v)) ∧ a.cornerAccepted (a.candidateFilter c (some n)) w v = true

theorem allocBoardsPossible_int (a : Allocator) {n : ℤ} (hn : n.natAbs < floatLimit)
    (c : Constraints) :
    a.allocBoardsPossible (.int n) c =
      if AreaToRect.ceilDiv n 3 ≤ 0 then .ok false
      else if c.requireTorus ∧ AreaToRect.ceilDiv n 3 ≠ a.width * a.height then .ok false
      else
        match AreaToRect.areaToRect (AreaToRect.ceilDiv n 3) a.width a.height c.minRatio with
        | .error e => .error e
        | .ok none => .ok false
        | .ok (some (w, v)) => .ok (a.cornerAccepted (a.candidateFilter c (some n)) w v) := by
  unfold allocBoardsPossible
  rw [triadsFor_int hn]
  change (if _ then _ else if _ then _ else _) = _
  congr 2
  rcases AreaToRect.areaToRect (AreaToRect.ceilDiv n 3) a.width a.height c.minRatio with
    e | _ | wv <;> rfl

theorem Idle.allocBoardsPossible_fits (h : Idle a) {n : ℤ} (hlimit : n.natAbs < floatLimit)
    {c : Constraints} {q : ℚ} (hq : c.minRatio = some q) (hq0 : 0 ≤ q) :
    ∃ possible, a.allocBoardsPossible (.int n) c = .ok possible ∧
      (possible = true ↔ FitsBoards a c n) := by
  rw [a.allocBoardsPossible_int hlimit]
  split
  · next hn => exact ⟨false, rfl, iff_of_false nofun fun hf => hn.not_gt hf.1⟩
  next hn =>
  split
  · next htorus =>
    exact ⟨false, rfl, iff_of_false nofun fun hf => htorus.2 (hf.2.1 htorus.1)⟩
  next htorus =>
  have htorus' : c.requireTorus = true → AreaToRect.ceilDiv n 3 = a.width * a.height := by
    intro ht
    by_contra hne
    exact htorus ⟨ht, hne⟩
  obtain ⟨rect, hrect⟩ := AreaToRect.areaToRect_ok (not_le.mp hn) h.width h.height hq0
  unfold FitsBoards
  rw [hq, hrect]
  obtain _ | ⟨w, v⟩ := rect
  · refine ⟨false, rfl, iff_of_false nofun ?_⟩
    intro ⟨_, _, w, v, he, _⟩
    cases he
  · refine ⟨_, rfl, fun hcorner => ⟨not_le.mp hn, htorus', w, v, rfl, hcorner⟩, ?_⟩
    intro ⟨_, _, w', v', he, hcorner⟩
    cases he
    exact hcorner

theorem allocArea_leaf {σ : Type} (f : Option (Filter σ)) (rect : Region) {area : ℤ}
    {ratio : Option ℚ} (hfit : area ≤ rect.width * rect.height) {wv : Option (ℤ × ℤ)}
    (hwv : AreaToRect.areaToRect area rect.width rect.height ratio = .ok wv) (s : σ) :
    (PackTree.allocArea f area ratio (.leaf rect false) s).1 = .ok (wv.bind fun wv =>
      (PackTree.alloc f wv.1 wv.2 (.leaf rect false) s).1.map
        fun xy => (xy.1, xy.2, wv.1, wv.2)) := by
  unfold PackTree.allocArea
  rw [if_neg Bool.false_ne_true, if_neg (not_lt.mpr hfit), hwv]
  obtain _ | ⟨w, v⟩ := wv
  · rfl
  · simp only [Option.bind_some]
    generalize PackTree.alloc f w v (.leaf rect false) s = res
    obtain ⟨_ | xy, t, s'⟩ := res <;> rfl

/-- On an idle machine the tree finds room for an area exactly if there is a rectangle for it
that is acceptable in a corner. -/
theorem Idle.allocArea_tree (h : Idle a) (f : CandidateFilter) {area : ℤ} (ha : 0 < area) {q : ℚ}
    (hq : 0 ≤ q) : ∃ found, (a.packTree.allocArea (some f.call) area (some q) none).1 = .ok found ∧
      (found ≠ none ↔ ∃ w v, AreaToRect.areaToRect area a.width a.height (some q) =
        .ok (some (w, v)) ∧ a.cornerAccepted f w v = true) := by
  obtain ⟨wv, hwv⟩ := AreaToRect.areaToRect_ok ha h.width h.height hq
  have hleaf : a.packTree = .leaf ⟨0, 0, a.width, a.height⟩ false := h.tree
  have hfits (w v : ℤ) (he : wv = some (w, v)) : w ≤ a.width ∧ v ≤ a.height := by
    rw [he] at hwv
    exact AreaToRect.areaToRect_fits ha h.width h.height hq hwv
  by_cases hbig : area > a.width * a.height
  · have hnone : wv = none := by
      by_contra hne
      obtain ⟨⟨w, v⟩, rfl⟩ := Option.ne_none_iff_exists'.mp hne
      obtain ⟨hw, hv⟩ := hfits w v rfl
      have hcovers := AreaToRect.areaToRect_covers hwv
      have harea := hcovers.area
      have hpos := hcovers.width
      dsimp only at harea hpos
      nlinarith [h.height, h.width]
    refine ⟨none, ?_, iff_of_false (fun hn => hn rfl) ?_⟩
    · rw [hleaf]
      unfold PackTree.allocArea
      rw [if_neg Bool.false_ne_true, if_pos hbig]
    · intro hpost
      obtain ⟨w, v, he, _⟩ := hpost
      rw [hwv, hnone] at he
      cases he
  · have hrun := allocArea_leaf (some f.call) ⟨0, 0, a.width, a.height⟩
      (not_lt.mp hbig) hwv none
    rw [← hleaf] at hrun
    refine ⟨_, hrun, ?_⟩
    rw [hwv]
    obtain _ | ⟨w, v⟩ := wv
    · refine iff_of_false (fun hn => hn rfl) ?_
      intro hpost
      obtain ⟨w, v, he, _⟩ := hpost
      cases he
    · rw [Option.bind_some, ne_eq, Option.map_eq_none_iff, ← ne_eq, h.alloc_tree]
      constructor
      · intro hpost
        obtain ⟨_, _, hcorner⟩ := hpost
        exact ⟨w, v, rfl, hcorner⟩
      · intro hpost
        obtain ⟨w', v', he, hcorner⟩ := hpost
        cases he
        obtain ⟨hw, hv⟩ := hfits w v rfl
        exact ⟨hw, hv, hcorner⟩

theorem Idle.allocBoards_fits (h : Idle a) {n : ℤ} (hlimit : n.natAbs < floatLimit)
    {c : Constraints} {q : ℚ} (hq : c.minRatio = some q) (hq0 : 0 ≤ q) :
    wp (allocBoards (.int n) c) (fun res _ => res.isSome ↔ FitsBoards a c n)
      (fun _ _ => False) a := by
  simp only [allocBoards, wp_bind, wp_state]
  rw [triadsFor_int hlimit, wp_ofExcept_ok]
  dsimp only
  split
  · next hn => exact iff_of_false (by simp) fun hf => hn.not_gt hf.1
  next hn =>
  split
  · next htorus => exact iff_of_false (by simp) fun hf => htorus.2 (hf.2.1 htorus.1)
  next htorus =>
  have htorus' : c.requireTorus = true → AreaToRect.ceilDiv n 3 = a.width * a.height := by
    intro ht
    by_contra hne
    exact htorus ⟨ht, hne⟩
  obtain ⟨found, hfound, hiff⟩ :=
    h.allocArea_tree (a.candidateFilter c (some n)) (not_le.mp hn) hq0
  have hA := PackTree.allocArea_spec (some (a.candidateFilter c (some n)).call)
    (AreaToRect.ceilDiv n 3) (some q) h.valid none
  unfold FitsBoards
  rw [hq, ← hiff]
  generalize a.packTree.allocArea (some (a.candidateFilter c (some n)).call)
    (AreaToRect.ceilDiv n 3) (some q) none = res at hfound hA ⊢
  obtain ⟨xywh, tree, last⟩ := res
  obtain rfl : xywh = .ok found := hfound
  simp only [wp_bind, wp_update, wp_ofExcept_ok]
  obtain _ | ⟨x, y, w, v⟩ := found
  · exact iff_of_false (by simp) fun hf => hf.2.2 rfl
  · obtain ⟨-, -, hacc⟩ := hA.some x y w v rfl
    exact (allocated_wp hacc).mono
      (fun _ _ hsome => iff_of_true hsome ⟨not_le.mp hn, htorus', by simp⟩) fun _ _ => id

end Allocator

/-- A number of boards other than one with a ratio that is not negative, or a width and a
height in triads, with any limits. -/
def Request.Rectangular (r : Request) : Prop :=
  (∃ n, r.args = .one (.int n) ∧ n ≠ 1 ∧ ∃ q, r.minRatio.getD (some 0) = some q ∧ 0 ≤ q) ∨
    ∃ w v, r.args = .two (.int w) (.int v)

namespace Allocator

variable {a : Allocator} {r : Request}

/-- On an idle machine the test whether a request is possible and the allocation agree, or
both raise. -/
theorem Idle.possible_iff (h : Idle a) (hr : r.Rectangular) :
    (∃ possible, a.allocPossible r = .ok possible ∧
      wp (allocate r) (fun res _ => res.isSome ↔ possible = true) (fun _ _ => False) a) ∨
    ∃ e, a.allocPossible r = .error e ∧ ((allocate r).run a).1 = .error e := by
  obtain ⟨n, hargs, hn, q, hq, hq0⟩ | ⟨w, v, hargs⟩ := hr
  · have htype : r.allocType = .ok .boards := by
      simp [Request.allocType, Request.bindType, Request.type, Request.x, Request.y, hargs, hn]
      rfl
    have hbind : r.bindBoards = .ok (.int n, r.constraints) := by
      simp [Request.bindBoards, Request.x, hargs]
    by_cases hlimit : floatLimit ≤ n.natAbs
    · refine .inr ⟨.overflowError "int too large to convert to float", ?_, ?_⟩
      · simp only [allocPossible, htype, hbind, bind, Except.bind, Except.mapError,
          allocBoardsPossible, triadsFor_overflow hlimit]
      · have hraises : wp (allocate r) (fun _ _ => False)
            (fun e _ => e = .overflowError "int too large to convert to float") a := by
          unfold allocate
          rw [htype, hbind, wp_bind, wp_ofExcept_ok]
          simp only [Except.mapError, wp_bind, wp_ofExcept_ok, allocBoards, wp_state,
            triadsFor_overflow hlimit, wp_ofExcept_error]
        obtain ⟨_, _, hrun, rfl⟩ := wp_raises hraises
        rw [hrun]
    obtain ⟨possible, hpossible, hiff⟩ :=
      h.allocBoardsPossible_fits (c := r.constraints) (not_le.mp hlimit) hq hq0
    refine .inl ⟨possible, ?_, ?_⟩
    · simp only [allocPossible, htype, hbind, bind, Except.bind, Except.mapError, hpossible]
    · unfold allocate
      rw [htype, hbind, wp_bind, wp_ofExcept_ok, hiff]
      simp only [Except.mapError, wp_bind, wp_ofExcept_ok]
      exact h.allocBoards_fits (c := r.constraints) (not_le.mp hlimit) hq hq0
  · have htype : r.allocType = .ok .triads := by
      simp [Request.allocType, Request.bindType, Request.type, Request.x, Request.y, Request.z,
        hargs]
      rfl
    have hbind : r.bindTriads = .ok (.int w, .int v, r.constraints) := by
      simp [Request.bindTriads, Request.x, Request.y, hargs]
    obtain ⟨possible, hpossible, hiff⟩ := a.allocTriadsPossible_fits w v r.constraints
    refine .inl ⟨possible, ?_, ?_⟩
    · simp only [allocPossible, htype, hbind, bind, Except.bind, Except.mapError, hpossible]
    · unfold allocate
      rw [htype, hbind, wp_bind, wp_ofExcept_ok, hiff]
      simp only [Except.mapError, wp_bind, wp_ofExcept_ok]
      exact h.allocTriads_fits w v r.constraints

/-- A rectangle is declared possible exactly if the idle machine gives it. -/
theorem allocPossible_exact {width height : ℤ} (hw : 1 ≤ width) (hh : 1 ≤ height)
    (deadBoards : Finset Board) (deadLinks : Finset BoardLink) (nextId : ℕ)
    (secondsBeforeFree : ℤ) (clock : ℕ → ℤ) (setPop : SetPop) (r : Request)
    (hr : r.Rectangular) :
    (new width height deadBoards deadLinks nextId secondsBeforeFree clock setPop).allocPossible r =
        .ok true ↔
      ∃ allocation, ((alloc r).run (new width height deadBoards deadLinks nextId
        secondsBeforeFree clock setPop)).1 = .ok (some allocation) := by
  have hidle := idle_new hw hh deadBoards deadLinks nextId secondsBeforeFree clock setPop
  obtain ⟨possible, hpossible, hwp⟩ | ⟨e, hpossible, hraises⟩ := hidle.possible_iff hr
  swap
  · rw [hidle.alloc_run, hraises, hpossible]
    exact iff_of_false (by simp) (by simp)
  obtain ⟨res, a', hrun, hiff⟩ := wp_returns hwp
  rw [hidle.alloc_run, hrun, hpossible]
  cases res with
  | none => simpa using hiff
  | some allocation => simpa using hiff

theorem allocPossible_exact_two : ∃ allocation,
    ((alloc { args := .two (.int 1) (.int 2), maxDeadBoards := some (some 0) }).run
      (new 2 2 {(0, 1, 2)} ∅ 1 0 (fun _ => 0) .least)).1 = .ok (some allocation) :=
  (allocPossible_exact (by decide) (by decide) {(0, 1, 2)} ∅ 1 0 (fun _ => 0) .least _
    (.inr ⟨1, 2, rfl⟩)).mp (by decide +kernel)

end Allocator

end SpallocServer
