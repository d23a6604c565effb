import SpallocServer.Configuration
import SpallocServer.Allocator.Idle

namespace SpallocServer

open Foundation Prog Coordinates

/-- Any board, one board, or a board that is named, and no torus. -/
structure Request.Single (r : Request) : Prop where
  args : r.args = .nil ∨ r.args = .one (.int 1) ∨
    ∃ x y z, r.args = .three (.int x) (.int y) (.int z)
  torus : r.requireTorus = none ∨ r.requireTorus = some .false

namespace Request.Single

variable {r : Request}

theorem torus_eq (hr : r.Single) : r.torus = .false := by
  have htorus : r.requireTorus.getD .false = .false := by
    obtain ht | ht := hr.torus <;> simp [ht]
  obtain hargs | hargs | ⟨x, y, z, hargs⟩ := hr.args <;> simpa [Request.torus, hargs] using htorus

theorem allocType_eq (hr : r.Single) : r.allocType = .ok .board := by
  have htorus := hr.torus_eq
  obtain hargs | hargs | ⟨x, y, z, hargs⟩ := hr.args <;>
    simp [Request.allocType, Request.bindType, Request.type, Request.x, Request.y, Request.z,
      Flag.holds, hargs, htorus, bind, Except.bind, Except.mapError]

theorem boardArgs_eq (hr : r.Single) : Allocator.boardArgs r.x r.y r.z = true := by
  obtain hargs | hargs | ⟨x, y, z, hargs⟩ := hr.args <;>
    simp [Allocator.boardArgs, Request.x, Request.y, Request.z, hargs]

theorem named (hr : r.Single) : r.y = .none ∨ ∃ x y z, r.x = .int x ∧ r.y = .int y ∧
    r.z = .int z := by
  obtain hargs | hargs | ⟨x, y, z, hargs⟩ := hr.args
  · exact .inl (by simp [Request.y, hargs])
  · exact .inl (by simp [Request.y, hargs])
  · exact .inr ⟨x, y, z, by simp [Request.x, Request.y, Request.z, hargs]⟩

end Request.Single

namespace Allocator

variable {a : Allocator} {r : Request}

def CornerWorks (a : Allocator) : Prop :=
  ∃ x ∈ [0, a.width - 1], ∃ y ∈ [0, a.height - 1], (a.working (x, y)).Nonempty

theorem hasAtLeastOneWorkingBoard_iff (x y w v : ℤ) :
    (a.hasAtLeastOneWorkingBoard x y w v ()).1 = true ↔ (a.working (x, y)).Nonempty := by
  simp only [hasAtLeastOneWorkingBoard, decide_eq_true_eq, Finset.Nonempty, mem_working]
  constructor
  · intro hlt
    by_contra hno
    have hdead (z : ℤ) (hz : 0 ≤ z ∧ z < 3) : (x, y, z) ∈ a.deadBoards := by
      by_contra hd
      exact hno ⟨z, hz, hd⟩
    simp [hdead 0 (by omega), hdead 1 (by omega), hdead 2 (by omega)] at hlt
  · intro hpost
    obtain ⟨z, hz, hd⟩ := hpost
    have hmem : z ∈ ([0, 1, 2] : List ℤ) := by
      simp only [List.mem_cons, List.not_mem_nil, or_false]
      omega
    exact (List.length_filter_lt_length_iff_exists).mpr ⟨z, hmem, by simpa using hd⟩

theorem Idle.allocTriad_iff (h : Idle a) :
    wp allocTriad (fun res _ => res = none ↔ ¬a.CornerWorks) (fun _ _ => False) a := by
  simp only [allocTriad, wp_bind, wp_state, wp_update, wp_pure]
  have hdecides : PackTree.Decides (some a.hasAtLeastOneWorkingBoard)
      fun x y w v => (a.hasAtLeastOneWorkingBoard x y w v ()).1 := fun _ _ _ _ _ => rfl
  rw [PackTree.alloc_none_iff hdecides h.valid, h.offers]
  simp only [hasAtLeastOneWorkingBoard_iff, h.width, h.height, true_and]
  exact Iff.rfl

theorem Idle.spare_none (h : Idle a) (x y z : Value) : a.spare x y z = none := by
  unfold spare
  rw [h.triads]
  split
  · rfl
  · split
    · next b _ => simp [available, h.triads]
    · rfl

theorem allocBoard_takes (hc : Checked a r) {x y z : ℤ} {tree : PackTree}
    (hs : (a.opened (x, y) tree).spare r.x r.y r.z = some (x, y, z))
    (hz : z ∈ a.working (x, y)) :
    wp (allocBoard r.x r.y r.z r.torus 1)
      (fun res _ => res = some (.ofBoard a.nextId (x, y, z))) (fun _ _ => False)
      (a.opened (x, y) tree) := by
  have hc' : Checked (a.opened (x, y) tree) r := ⟨hc.torus, hc.args, hc.alive⟩
  unfold wp
  rw [allocBoard_succ hc', hs]
  change wp (some <$> take (x, y, z)) _ _ _
  rw [wp_map]
  exact take_wp (by simpa using hz) rfl

theorem Idle.allocBoard_any (h : Idle a) (hc : Checked a r) (hy : r.y = .none) :
    wp (allocBoard r.x r.y r.z r.torus 2)
      (fun res _ => (∃ b, res = some (.ofBoard a.nextId b)) ↔ a.CornerWorks)
      (fun _ _ => False) a := by
  unfold wp
  rw [allocBoard_succ hc, h.spare_none]
  change wp _ _ _ a
  rw [if_neg (not_not.mpr hy), wp_bind]
  refine ((allocTriad_spec h.valid).and h.allocTriad_iff).mono ?_ fun _ _ he => he.2
  intro res a' ⟨hopen, hcorner⟩
  obtain ⟨rfl, rfl⟩ | ⟨x, y, tree, rfl, -, hne, rfl⟩ := hopen
  · exact iff_of_false nofun (hcorner.mp rfl)
  · have hworks : a.CornerWorks := by
      by_contra hno
      cases hcorner.mpr hno
    have hnil : a.singleBoardTriads.keys = [] := by
      rw [h.triads]
      rfl
    have hkeys : (a.opened (x, y) tree).singleBoardTriads.keys = [(x, y)] :=
      Dict.keys_set_of_nil hnil _ _
    have hspare : (a.opened (x, y) tree).spare r.x r.y r.z =
        some (x, y, a.setPop.pick a.nextId (a.working (x, y))) := by
      unfold spare
      rw [if_pos hy, hkeys]
      dsimp only
      rw [available_opened_self]
      rfl
    simp only [wp_bind, wp_update]
    exact (allocBoard_takes hc hspare (a.setPop.mem _ _ hne)).mono
      (fun _ _ he => iff_of_true ⟨_, he⟩ hworks) fun _ _ => id

theorem Idle.allocBoard_named (h : Idle a) (hc : Checked a r) {x y z : ℤ} (hx : r.x = .int x)
    (hy : r.y = .int y) (hz : r.z = .int z) (hin : InMachine a.width a.height (x, y, z))
    (hlive : (x, y, z) ∉ a.deadBoards) :
    wp (allocBoard r.x r.y r.z r.torus 2)
      (fun res _ => res = some (.ofBoard a.nextId (x, y, z))) (fun _ _ => False) a := by
  have hyn : r.y ≠ .none := by simp [hy]
  have hzw : z ∈ a.working (x, y) := mem_working.mpr ⟨hin.z, hlive⟩
  have hregion : a.packTree.region = ⟨0, 0, a.width, a.height⟩ := by rw [h.tree]; rfl
  have hrequest : (a.packTree.request x y).1 = some (x, y) := by
    rw [PackTree.request_some x y h.valid, PackTree.Uncovered, hregion, h.tree]
    refine ⟨?_, fun q hq => ?_⟩
    · have hxin := hin.x
      have hyin := hin.y
      rw [Region.mem_cells]
      dsimp only at hxin hyin ⊢
      omega
    · cases hq
  unfold wp
  rw [allocBoard_succ hc, h.spare_none]
  change wp _ _ _ a
  rw [if_pos hyn, wp_bind]
  have hxin : a.packTree.region.x ≤ x ∧ x < a.packTree.region.x + a.packTree.region.width := by
    rw [hregion, zero_add]
    exact hin.x
  simp only [request, wp_bind, wp_state, hx, Value.above, Value.num, wp_ofExcept_ok,
    not_not.mpr hxin, if_false, hy, wp_update, wp_pure, hrequest]
  have hspare : (a.opened (x, y) (a.packTree.request x y).2).spare r.x r.y r.z =
      some (x, y, z) := by
    unfold spare
    rw [if_neg hyn]
    simp [toBoard, hx, hy, hz, hzw]
  have htakes := allocBoard_takes hc hspare hzw
  rw [hx, hy] at htakes
  exact htakes

theorem all_dead_iff {width height : ℤ} (hw : 1 ≤ width) (hh : 1 ≤ height)
    {deadBoards : Finset Board} (hdead : ∀ b ∈ deadBoards, InMachine width height b) :
    width * height * 3 ≤ deadBoards.card ↔ ∀ b, InMachine width height b → b ∈ deadBoards := by
  have hmem (b : Board) : b ∈ CandidateFilter.regionBoards 0 0 width height ↔
      InMachine width height b := by
    rw [CandidateFilter.mem_regionBoards, CandidateFilter.inRange_iff]
    constructor
    · intro ⟨hxy, hz⟩
      exact ⟨by omega, by omega, hz⟩
    · intro h
      have hx := h.x
      have hy := h.y
      exact ⟨by omega, h.z⟩
  have hcard := CandidateFilter.card_regionBoards (x := 0) (y := 0) (by omega : 0 < width)
    (by omega : 0 < height)
  have hsub : deadBoards ⊆ CandidateFilter.regionBoards 0 0 width height :=
    fun b hb => (hmem b).mpr (hdead b hb)
  rw [mul_assoc, ← hcard, Nat.cast_le]
  constructor
  · intro hle b hb
    rw [Finset.eq_of_subset_of_card_le hsub hle]
    exact (hmem b).mpr hb
  · intro hall
    exact Finset.card_le_card fun b hb => hall b ((hmem b).mp hb)

theorem allocBoardPossible_any {x z : Value} (hargs : boardArgs x .none z = true) :
    a.allocBoardPossible x .none z .false =
      .ok (decide ((a.deadBoards.card : ℤ) < a.width * a.height * 3)) := by
  unfold allocBoardPossible
  rw [hargs]
  rfl

theorem allocBoardPossible_named (a : Allocator) (x y z : ℤ) :
    a.allocBoardPossible (.int x) (.int y) (.int z) .false =
      if ¬(0 ≤ x ∧ x < a.width) then .ok false
      else if ¬(0 ≤ y ∧ y < a.height) then .ok false
      else if ¬(0 ≤ z ∧ z < 3) then .ok false
      else if (x, y, z) ∈ a.deadBoards then .ok false
      else .ok (decide ((a.deadBoards.card : ℤ) < a.width * a.height * 3)) := rfl

theorem allocPossible_any (hr : r.Single) (hy : r.y = .none) :
    a.allocPossible r = .ok true ↔ (a.deadBoards.card : ℤ) < a.width * a.height * 3 := by
  have hargs := hr.boardArgs_eq
  rw [hy] at hargs
  simp only [allocPossible, hr.allocType_eq, bind, Except.bind, hr.torus_eq, hy,
    allocBoardPossible_any hargs, Except.ok.injEq, decide_eq_true_eq]

theorem allocPossible_named (hr : r.Single) {x y z : ℤ} (hx : r.x = .int x) (hy : r.y = .int y)
    (hz : r.z = .int z) (h : a.allocPossible r = .ok true) :
    InMachine a.width a.height (x, y, z) ∧ (x, y, z) ∉ a.deadBoards := by
  simp only [allocPossible, hr.allocType_eq, bind, Except.bind, hr.torus_eq, hx, hy, hz,
    allocBoardPossible_named] at h
  split at h
  · cases h
  next hx =>
  split at h
  · cases h
  next hy =>
  split at h
  · cases h
  next hz =>
  split at h
  · cases h
  next hlive => exact ⟨⟨not_not.mp hx, not_not.mp hy, not_not.mp hz⟩, hlive⟩

theorem checked_single (hr : r.Single) (hlive : r.y ≠ .none → a.isDead r.x r.y r.z = false) :
    Checked a r := ⟨hr.torus_eq, hr.boardArgs_eq, hlive⟩

def Gives (a : Allocator) (r : Request) : Prop :=
  ∃ b, ((alloc r).run a).1 = .ok (some (.ofBoard a.nextId b))

theorem Idle.gives_any (h : Idle a) (hr : r.Single) (hy : r.y = .none) :
    a.Gives r ↔ a.CornerWorks := by
  have hc : Checked a r := checked_single hr fun hn => absurd hy hn
  obtain ⟨res, a', hrun, hiff⟩ := wp_returns (h.allocBoard_any hc hy)
  have halloc : (allocate r).run a = (.ok res, a') := by
    rw [← hrun]
    unfold allocate
    rw [run_bind, hr.allocType_eq]
    rfl
  rw [Gives, h.alloc_run, halloc]
  simpa using hiff

theorem Idle.gives_named (h : Idle a) (hr : r.Single) {x y z : ℤ} (hx : r.x = .int x)
    (hy : r.y = .int y) (hz : r.z = .int z) (hin : InMachine a.width a.height (x, y, z))
    (hlive : (x, y, z) ∉ a.deadBoards) : a.Gives r := by
  have hc : Checked a r := checked_single hr fun _ => by simp [isDead, toBoard, hx, hy, hz, hlive]
  obtain ⟨res, a', hrun, rfl⟩ := wp_returns (h.allocBoard_named hc hx hy hz hin hlive)
  refine ⟨(x, y, z), ?_⟩
  have halloc : (allocate r).run a = (allocBoard r.x r.y r.z r.torus 2).run a := by
    unfold allocate
    rw [run_bind, hr.allocType_eq]
    rfl
  rw [h.alloc_run, halloc, hrun]

theorem Idle.possible_gives_iff (h : Idle a)
    (hdead : ∀ b ∈ a.deadBoards, InMachine a.width a.height b) (hr : r.Single) :
    (a.allocPossible r = .ok true → a.Gives r) ↔
      r.y ≠ .none ∨ a.CornerWorks ∨ ∀ b, InMachine a.width a.height b → b ∈ a.deadBoards := by
  obtain hy | ⟨x, y, z, hx, hy, hz⟩ := hr.named
  · rw [allocPossible_any hr hy, h.gives_any hr hy, ← all_dead_iff h.width h.height hdead]
    constructor
    · intro hgives
      by_cases hlt : (a.deadBoards.card : ℤ) < a.width * a.height * 3
      · exact .inr (.inl (hgives hlt))
      · exact .inr (.inr (not_lt.mp hlt))
    · intro hcond hlt
      obtain hn | hcorner | hall := hcond
      · exact absurd hy hn
      · exact hcorner
      · exact absurd hlt (not_lt.mpr hall)
  · refine iff_of_true (fun hpossible => ?_) (.inl (by simp [hy]))
    obtain ⟨hin, hlive⟩ := allocPossible_named hr hx hy hz hpossible
    exact h.gives_named hr hx hy hz hin hlive

/-- A single board that is declared possible can be had on the idle machine exactly if it is
named, or a triad in a corner has a board that works, or no board does. -/
theorem possible_given_iff {width height : ℤ} (hw : 1 ≤ width) (hh : 1 ≤ height)
    {deadBoards : Finset Board} (hdead : ∀ b ∈ deadBoards, InMachine width height b)
    (deadLinks : Finset BoardLink) (nextId : ℕ) (secondsBeforeFree : ℤ) (clock : ℕ → ℤ)
    (setPop : SetPop) {r : Request} (hr : r.Single) :
    ((new width height deadBoards deadLinks nextId secondsBeforeFree clock setPop).allocPossible r =
        .ok true →
      ∃ b, ((alloc r).run (new width height deadBoards deadLinks nextId secondsBeforeFree clock
        setPop)).1 = .ok (some (.ofBoard nextId b))) ↔
      r.y ≠ .none ∨
        (∃ x ∈ [0, width - 1], ∃ y ∈ [0, height - 1], ∃ z, (0 ≤ z ∧ z < 3) ∧
          (x, y, z) ∉ deadBoards) ∨
        ∀ b, InMachine width height b → b ∈ deadBoards := by
  have hidle := idle_new hw hh deadBoards deadLinks nextId secondsBeforeFree clock setPop
  have hiff := hidle.possible_gives_iff hdead hr
  simp only [CornerWorks, Finset.Nonempty, mem_working] at hiff
  exact hiff

def deadEnds : Finset Board :=
  {(0, 0, 0), (0, 0, 1), (0, 0, 2), (2, 0, 0), (2, 0, 1), (2, 0, 2)}

theorem possible_given_iff_three : ∃ b,
    ((alloc { args := .three (.int 1) (.int 0) (.int 2) }).run
      (new 3 1 deadEnds ∅ 1 0 (fun _ => 0) .least)).1 = .ok (some (.ofBoard 1 b)) := by
  have hdead : ∀ b ∈ deadEnds, InMachine 3 1 b := by decide
  have hr : Request.Single { args := .three (.int 1) (.int 0) (.int 2) } :=
    ⟨.inr (.inr ⟨1, 0, 2, rfl⟩), .inl rfl⟩
  exact (possible_given_iff (by decide) (by decide) hdead ∅ 1 0 (fun _ => 0) .least hr).mpr
    (.inl (by decide)) (by decide +kernel)

/-- The triad in the middle works, and is never tried. -/
theorem possible_not_given : ¬∀ (width height : ℤ) (deadBoards : Finset Board) (r : Request),
    1 ≤ width → 1 ≤ height → (∀ b ∈ deadBoards, InMachine width height b) → r.Single →
    (new width height deadBoards ∅ 1 0 (fun _ => 0) .least).allocPossible r = .ok true →
    ∃ b, ((alloc r).run (new width height deadBoards ∅ 1 0 (fun _ => 0) .least)).1 =
      .ok (some (.ofBoard 1 b)) := by
  intro h
  obtain ⟨b, hb⟩ := h 3 1 deadEnds { args := .nil } (by decide) (by decide) (by decide)
    ⟨.inl rfl, .inl rfl⟩ (by decide +kernel)
  have hnone : ((alloc { args := .nil }).run
      (new 3 1 deadEnds ∅ 1 0 (fun _ => 0) .least)).1 = .ok none := rfl
  rw [hnone] at hb
  cases hb

end Allocator

end SpallocServer
