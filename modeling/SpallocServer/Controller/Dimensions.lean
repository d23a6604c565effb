import SpallocServer.Allocator.Spec
import SpallocServer.Controller.Rules

namespace SpallocServer

open Foundation Prog Coordinates

/-- No board is below or to the left of the corner, which is a bottom board unless it is the only
one. -/
structure Cornered (boards : Finset Board) (o : Board) : Prop where
  mem : o ∈ boards
  x : ∀ b ∈ boards, o.1 ≤ b.1
  y : ∀ b ∈ boards, o.2.1 ≤ b.2.1
  z : ∀ b ∈ boards, o.2.2 ≤ b.2.2 ∧ b.2.2 < o.2.2 + 3
  bottom : 1 < boards.card → o.2.2 = 0

theorem cornered_singleton (b : Board) : Cornered {b} b := by
  refine ⟨Finset.mem_singleton_self b, fun c hc => ?_, fun c hc => ?_, fun c hc => ?_, fun h => ?_⟩
  · rw [Finset.mem_singleton.mp hc]
  · rw [Finset.mem_singleton.mp hc]
  · rw [Finset.mem_singleton.mp hc]
    omega
  · rw [Finset.card_singleton] at h
    exact absurd h (lt_irrefl 1)

theorem CandidateFilter.cornered_enumerateBoards {f : CandidateFilter} {x y w h : ℤ}
    (hne : (f.enumerateBoards x y w h).Nonempty) :
    Cornered (f.enumerateBoards x y w h) (x, y, 0) := by
  have hsound (b : Board) (hb : b ∈ f.enumerateBoards x y w h) :
      (x ≤ b.1 ∧ y ≤ b.2.1) ∧ 0 ≤ b.2.2 ∧ b.2.2 < 3 := by
    apply (explore_sound (P := fun b : Board => (x ≤ b.1 ∧ y ≤ b.2.1) ∧ 0 ≤ b.2.2 ∧ b.2.2 < 3)
      (fun a ha _ b hb => ?_) (by simp) (by simp) hb).1
    obtain ⟨hb, hr⟩ := List.mem_filter.mp hb
    obtain ⟨link, -, rfl⟩ := List.mem_map.mp hb
    obtain ⟨h1, -, h2, -⟩ := of_decide_eq_true hr
    exact ⟨⟨h1, h2⟩, neighbour_z ha.2 link⟩
  exact ⟨first_mem_explore hne, fun b hb => (hsound b hb).1.1, fun b hb => (hsound b hb).1.2,
    fun b hb => by have := (hsound b hb).2; dsimp only; omega, fun _ => rfl⟩

namespace Allocator

variable {a : Allocator} {r : Request}

def Remembered (last : Option Candidate) : Prop :=
  ∀ c, last = some c → ∃ o, Cornered c.boards o

theorem remembered_none : Remembered none := by
  intro c hc
  cases hc

theorem call_keeps (f : CandidateFilter) (x y w h : ℤ) {s : Option Candidate} (hs : Remembered s) :
    Remembered (f.call x y w h s).2 := by
  have hspec (s' : Option Candidate) (hc : f.call x y w h s = (true, s')) : Remembered s' := by
    obtain ⟨torus, rfl, hne⟩ := CandidateFilter.call_spec hc
    intro c hc
    cases hc
    exact ⟨_, CandidateFilter.cornered_enumerateBoards hne⟩
  have hrejected : (f.call x y w h s).1 = false → (f.call x y w h s).2 = s := by
    unfold CandidateFilter.call
    dsimp only
    split
    · exact fun _ => rfl
    split
    · exact fun _ => rfl
    split
    · exact fun _ => rfl
    · nofun
  cases hc : (f.call x y w h s).1 with
  | true => exact hspec _ (Prod.ext hc rfl)
  | false =>
    rw [hrejected hc]
    exact hs

/-- What `alloc` returns has a corner. -/
def ReturnsCornered (m : Prog Error Allocator (Option Allocation)) : Prop :=
  ∀ a, wp m (fun res _ => ∀ al, res = some al → ∃ o, Cornered al.boards o) (fun _ _ => True) a

theorem allocated_cornered {xy : ℤ × ℤ} {last : Option Candidate} (h : Remembered last) :
    ReturnsCornered (allocated xy last) := by
  intro a
  cases last with
  | none => trivial
  | some c =>
    intro al hal
    cases hal
    exact h c rfl

theorem allocTriads_cornered (width height : Value) (c : Constraints) :
    ReturnsCornered (allocTriads width height c) := by
  intro a
  simp only [allocTriads, wp_bind, wp_state]
  split
  · simp
  rw [wp_bind]
  apply wp_ofExcept _ fun _ _ => trivial
  intro w _
  split
  · simp
  rw [wp_bind]
  apply wp_ofExcept _ fun _ _ => trivial
  intro h _
  split
  · simp
  have hlast := PackTree.alloc_keeps (call_keeps (a.candidateFilter c none)) w h a.packTree
    remembered_none
  generalize a.packTree.alloc (some (a.candidateFilter c none).call) w h none = res at hlast
  obtain ⟨_ | xy, tree, last⟩ := res
  · simp
  · exact allocated_cornered hlast _

theorem allocBoards_cornered (boards : Value) (c : Constraints) :
    ReturnsCornered (allocBoards boards c) := by
  intro a
  simp only [allocBoards, wp_bind, wp_state]
  apply wp_ofExcept _ fun _ _ => trivial
  intro counts _
  obtain ⟨n, triads⟩ := counts
  dsimp only
  split
  · simp
  split
  · simp
  rw [wp_bind, wp_update, wp_bind]
  have hlast := PackTree.allocArea_keeps (call_keeps (a.candidateFilter c (some n))) triads
    c.minRatio a.packTree remembered_none
  generalize a.packTree.allocArea (some (a.candidateFilter c (some n)).call) triads c.minRatio none =
    res at hlast
  obtain ⟨_ | _ | ⟨x, y, w, h⟩, tree, last⟩ := res
  · trivial
  · simp
  · exact allocated_cornered hlast _

theorem allocBoard_cornered (x y z : Value) (torus : Flag) (n : ℕ) :
    ReturnsCornered (allocBoard x y z torus n) := by
  intro a
  induction n generalizing a with
  | zero => nofun
  | succ n ih =>
    simp only [allocBoard, wp_bind, wp_state]
    split
    · trivial
    split
    · trivial
    split
    · nofun
    split
    · next b _ =>
      rw [wp_map]
      simp only [take, wp_bind, wp_state]
      split
      · trivial
      · intro al hal
        cases hal
        exact ⟨b, cornered_singleton b⟩
    · rw [wp_bind]
      apply (wp_trivial _).mono _ fun _ _ _ => trivial
      intro xy a' _
      cases xy with
      | none => nofun
      | some xy => exact ih _

theorem alloc_cornered (r : Request) : ReturnsCornered (alloc r) := by
  intro a
  rw [alloc_eq, wp_bind]
  apply (wp_trivial _).mono _ fun _ _ _ => trivial
  intro _ a _
  unfold allocate
  rw [wp_bind]
  apply wp_ofExcept _ fun _ _ => trivial
  intro type _
  cases type with
  | board => exact allocBoard_cornered _ _ _ _ _ a
  | boards =>
    rw [wp_bind]
    apply wp_ofExcept _ fun _ _ => trivial
    exact fun (boards, c) _ => allocBoards_cornered boards c a
  | triads =>
    rw [wp_bind]
    apply wp_ofExcept _ fun _ _ => trivial
    exact fun (width, height, c) _ => allocTriads_cornered width height c a

end Allocator

namespace Controller

variable {c c' : Controller} {id : ℕ} {boards : Finset Board} {o top : Board}

theorem leastBoard_spec (h : leastBoard boards = .ok o) :
    o ∈ boards ∧ ∀ b ∈ boards, Board.key o ≤ Board.key b := by
  unfold leastBoard at h
  split at h
  · next hne =>
    obtain rfl := Except.ok.inj h
    obtain ⟨b, hb, hk⟩ := Finset.mem_map.mp (Finset.min'_mem _ hne)
    change Board.key b = _ at hk
    rw [← hk, Equiv.symm_apply_apply]
    refine ⟨hb, fun d hd => ?_⟩
    rw [hk]
    exact Finset.min'_le _ _ (Finset.mem_map_of_mem Board.key.toEmbedding hd)
  · cases h

theorem greatestBoard_spec (h : greatestBoard boards = .ok top) :
    top ∈ boards ∧ ∀ b ∈ boards, Board.key b ≤ Board.key top := by
  unfold greatestBoard at h
  split at h
  · next hne =>
    obtain rfl := Except.ok.inj h
    obtain ⟨b, hb, hk⟩ := Finset.mem_map.mp (Finset.max'_mem _ hne)
    change Board.key b = _ at hk
    rw [← hk, Equiv.symm_apply_apply]
    refine ⟨hb, fun d hd => ?_⟩
    rw [hk]
    exact Finset.le_max' _ _ (Finset.mem_map_of_mem Board.key.toEmbedding hd)
  · cases h

theorem key_le {b d : Board} : Board.key b ≤ Board.key d ↔
    b.1 < d.1 ∨ b.1 = d.1 ∧ (b.2.1 < d.2.1 ∨ b.2.1 = d.2.1 ∧ b.2.2 ≤ d.2.2) := by
  change toLex (b.1, toLex b.2) ≤ toLex (d.1, toLex d.2) ↔ _
  rw [Prod.Lex.toLex_le_toLex, Prod.Lex.toLex_le_toLex]

theorem least_eq (h : Cornered boards o) {origin : Board}
    (hl : leastBoard boards = .ok origin) : origin = o := by
  obtain ⟨hmem, hmin⟩ := leastBoard_spec hl
  have hle := key_le.mp (hmin o h.mem)
  have hx := h.x origin hmem
  have hy := h.y origin hmem
  have hz := h.z origin hmem
  obtain ⟨x, y, z⟩ := o
  obtain ⟨x', y', z'⟩ := origin
  simp only [Prod.mk.injEq] at hle hx hy hz ⊢
  omega

/-- As high as a board in the column that is farthest to the right, or one bottom board higher,
where the boards do not wrap around. -/
def Fits (boards : Finset Board) (torus : WrapAround) : Prop :=
  ∃ t ∈ boards, (∀ b ∈ boards, b.1 ≤ t.1) ∧
    ∀ b ∈ boards, b.2.1 ≤ t.2.1 ∨ b.2.1 = t.2.1 + 1 ∧ b.2.2 = 0 ∧ torus.y = false

instance (boards : Finset Board) (torus : WrapAround) : Decidable (Fits boards torus) :=
  inferInstanceAs (Decidable (∃ t ∈ boards, _))

def Within (size chip : ℤ × ℤ) : Prop :=
  (0 ≤ chip.1 ∧ chip.1 < size.1) ∧ 0 ≤ chip.2 ∧ chip.2 < size.2

theorem chip_cases {b : Board} (h : 0 ≤ b.2.2 - o.2.2 ∧ b.2.2 - o.2.2 < 3) :
    b.2.2 = o.2.2 ∧ chip o b = ((b.1 - o.1) * 12, (b.2.1 - o.2.1) * 12) ∨
      b.2.2 = o.2.2 + 1 ∧ chip o b = ((b.1 - o.1) * 12 + 8, (b.2.1 - o.2.1) * 12 + 4) ∨
      b.2.2 = o.2.2 + 2 ∧ chip o b = ((b.1 - o.1) * 12 + 4, (b.2.1 - o.2.1) * 12 + 8) := by
  unfold chip boardToChip
  obtain hz | hz | hz := z_cases h <;> rw [hz]
  · exact .inl ⟨by omega, rfl⟩
  · exact .inr (.inl ⟨by omega, rfl⟩)
  · exact .inr (.inr ⟨by omega, rfl⟩)

theorem fits_iff (htop : greatestBoard boards = .ok top) {torus : WrapAround} :
    Fits boards torus ↔
      ∀ b ∈ boards, b.2.1 ≤ top.2.1 ∨ b.2.1 = top.2.1 + 1 ∧ b.2.2 = 0 ∧ torus.y = false := by
  obtain ⟨hmem, hmax⟩ := greatestBoard_spec htop
  have hlast (b : Board) (hb : b ∈ boards) := key_le.mp (hmax b hb)
  constructor
  · intro ⟨t, ht, hcolumn, hfits⟩ b hb
    have hright := hcolumn top hmem
    have hhigh := hlast t ht
    obtain hle | ⟨heq, hbottom⟩ := hfits b hb
    · left
      omega
    · by_cases ht : t.2.1 = top.2.1
      · exact .inr ⟨by omega, hbottom⟩
      · left
        omega
  · intro h
    refine ⟨top, hmem, fun b hb => ?_, h⟩
    have := hlast b hb
    omega

theorem within_iff_fits (h : Cornered boards o) (htop : greatestBoard boards = .ok top)
    (torus : WrapAround) :
    (∀ b ∈ boards, Within (dimensions o top boards torus) (chip o b)) ↔ Fits boards torus := by
  obtain ⟨hmem, hmax⟩ := greatestBoard_spec htop
  rw [fits_iff htop]
  apply forall₂_congr
  intro b hb
  have hx := h.x b hb
  have hy := h.y b hb
  have hz := h.z b hb
  have hlast := key_le.mp (hmax b hb)
  have hchip := chip_cases (o := o) (b := b) (by omega)
  unfold Within dimensions
  by_cases hcard : 1 < boards.card
  · have hbottom := h.bottom hcard
    rw [if_pos hcard]
    simp only [triadDimensionsToChips]
    obtain ⟨hz', hc⟩ | ⟨hz', hc⟩ | ⟨hz', hc⟩ := hchip <;> rw [hc] <;>
      cases torus.x <;> cases torus.y <;> simp <;> omega
  · have hone : ∀ d ∈ boards, d = o := fun d hd =>
      Finset.card_le_one.mp (not_lt.mp hcard) d hd o h.mem
    obtain rfl := hone b hb
    obtain rfl := hone top hmem
    rw [if_neg hcard]
    obtain ⟨hz', hc⟩ | ⟨hz', hc⟩ | ⟨hz', hc⟩ := hchip
    · rw [hc]
      simp
    · omega
    · omega

theorem mem_connect {machine : Configuration.Machine} {l : List Board}
    {connections connections' : Dict (ℤ × ℤ) String} {p : ℤ × ℤ}
    (h : connect machine o connections l = .ok connections') :
    p ∈ connections'.keys ↔ p ∈ connections.keys ∨ ∃ b ∈ l, chip o b = p := by
  induction l generalizing connections with
  | nil =>
    cases h
    simp
  | cons b l ih =>
    unfold connect at h
    split at h
    · cases h
    · rw [ih h, Dict.mem_keys_set]
      simp only [List.mem_cons, exists_eq_or_imp]
      tauto

/-- The connections of a job are in its rectangle. -/
def Contained (job : Job) : Prop :=
  ∃ width height connections, job.width = some width ∧ job.height = some height ∧
    job.connections = some connections ∧ ∀ p ∈ connections.keys, Within (width, height) p

theorem contained_of_size {job : Job} {machine : Configuration.Machine} {size : ℤ × ℤ}
    {connections : Dict (ℤ × ℤ) String} {l : List Board} (hw : job.width = some size.1)
    (hh : job.height = some size.2) (hc : job.connections = some connections)
    (hconnect : connect machine o Dict.empty l = .ok connections) :
    Contained job ↔ ∀ b ∈ l, Within size (chip o b) := by
  constructor
  · intro ⟨width, height, connections', hw', hh', hc', hall⟩ b hb
    rw [hw] at hw'
    rw [hh] at hh'
    rw [hc] at hc'
    cases hw'
    cases hh'
    cases hc'
    exact hall _ ((mem_connect hconnect).mpr (.inr ⟨b, hb, rfl⟩))
  · intro hall
    refine ⟨size.1, size.2, connections, hw, hh, hc, fun p hp => ?_⟩
    obtain hp | ⟨b, hb, rfl⟩ := (mem_connect hconnect).mp hp
    · exact absurd hp List.not_mem_nil
    · exact hall b hb

/-- The width and height of a job contain its connections if and only if its boards are no higher
than the last of them. -/
theorem contained_iff_fits {a a' : Allocator} {r : Request} {al : Allocation} {name : String}
    (halloc : (Allocator.alloc r).run a = (.ok (some al), a'))
    (hrun : (onAllocate id name al.boards al.periphery al.torus).run c = (.ok (), c')) :
    Contained (c'.job id) ↔ Fits al.boards al.torus := by
  obtain ⟨o, ho⟩ := wp_of_eq_ok (Allocator.alloc_cornered r a) halloc al rfl
  have hallocate : wp (onAllocate id name al.boards al.periphery al.torus)
      (fun _ c' => Contained (c'.job id) ↔ Fits al.boards al.torus) (fun _ _ => True) c := by
    apply onAllocate_wp
    · exact fun _ => trivial
    · exact fun _ => trivial
    · exact fun _ _ _ _ _ => trivial
    · exact fun _ _ _ _ _ => trivial
    · exact fun _ _ _ _ _ _ _ _ _ => trivial
    intro machine origin top connections c' hlooked hassigned
    obtain rfl := least_eq ho hlooked.least
    have hjob (power : Bool) (l : List (ℕ × AtomicRequests)) :
        Contained ((c'.commanded id power l).job id) ↔ Fits al.boards al.torus := by
      rw [job_commanded, if_pos rfl, contained_of_size (by exact hassigned.size.1)
        (by exact hassigned.size.2) (by exact hassigned.connections) hlooked.connected,
        ← within_iff_fits ho hlooked.greatest]
      simp only [c.boardOrder.mem]
    apply setJobPowerAndLinks_wp
    · exact fun commands _ => hjob true commands.entries
    · exact fun _ _ => trivial
    · exact fun _ _ _ _ _ => trivial
  have hcontained := wp_of_eq_ok hallocate hrun
  exact hcontained

def gapped : Configuration.Machine :=
  (Configuration.Machine.new "m" {"default"} (some 2) (some 2)
    {(1, 1, 0), (1, 1, 1), (1, 1, 2)} ∅
    ⟨(Configuration.Machine.boardsOf 2 2).map fun b => (b, (0, 0, b.1 * 6 + b.2.1 * 3 + b.2.2)),
      by decide +kernel⟩
    (Dict.empty.set (0, 0) "bmp")
    ⟨(Configuration.Machine.boardsOf 2 2).map fun b => (b, "board"), by decide +kernel⟩
    (.sorted Board.key) (.sorted BoardLink.key) (.sorted toLex)).toOption.getD (.ofBoard "" ∅ "" "")

/-- All of that machine. -/
def wholeMachine : Request := { args := .two (.int 2) (.int 2) }

def gappedMachines : Machines where
  dict := Dict.empty.set "m" gapped
  named name machine h := by
    rw [Dict.get?_set] at h
    split at h
    · next hn =>
      cases h
      rw [← hn]
      decide +kernel
    · cases h

theorem contained_iff_fits_gapped :
    ∃ al a' c', (Allocator.alloc wholeMachine).run
        (.new 2 2 gapped.deadBoards ∅ 1 0 (fun _ => 0) .least) = (.ok (some al), a') ∧
      (onAllocate 1 "m" al.boards al.periphery al.torus).run
        ((runs Setup.quiet.start [.setMachines gappedMachines]).2.createdJob 1 "owner" none none) =
          (.ok (), c') ∧
      ¬Contained (c'.job 1) := by
  have halloc : (((Allocator.alloc wholeMachine).run
      (.new 2 2 gapped.deadBoards ∅ 1 0 (fun _ => 0) .least)).1.toOption.join.any fun al =>
        ((onAllocate 1 "m" al.boards al.periphery al.torus).run
          ((runs Setup.quiet.start [.setMachines gappedMachines]).2.createdJob 1 "owner" none
            none)).1.isOk && !decide (Fits al.boards al.torus)) = true := by
    decide +kernel
  generalize hres : (Allocator.alloc wholeMachine).run
    (.new 2 2 gapped.deadBoards ∅ 1 0 (fun _ => 0) .least) = res at halloc
  obtain ⟨_ | _ | al, a'⟩ := res
  · cases halloc
  · cases halloc
  · obtain ⟨hok, hhigh⟩ := Bool.and_eq_true_iff.mp halloc
    obtain ⟨c', hrun⟩ := run_of_isOk hok
    refine ⟨al, a', c', rfl, hrun, fun hin => ?_⟩
    have hfits := (contained_iff_fits hres hrun).mp hin
    simp [hfits] at hhigh

/-- A job is created on all of that machine. -/
def tooHigh : List Operation :=
  [.setMachines gappedMachines, .createJob none (some "owner") (some none) none none wholeMachine]

/-- A board of the first column is above the rectangle of the job. -/
theorem not_contained_tooHigh :
    (runs Setup.quiet.start tooHigh).2.jobs = [1] ∧ wholeMachine.type ≠ .board ∧
      ¬Contained ((runs Setup.quiet.start tooHigh).2.job 1) := by
  have hsize : ((runs Setup.quiet.start tooHigh).2.job 1).height = some 12 := by decide +kernel
  have hboard : (((runs Setup.quiet.start tooHigh).2.job 1).connections.any fun connections =>
      decide ((0, 12) ∈ connections.keys)) = true := by
    decide +kernel
  refine ⟨by decide +kernel, by decide, fun ⟨width, height, connections, _, hh, hc, hall⟩ => ?_⟩
  rw [hsize] at hh
  rw [hc] at hboard
  cases hh
  have hin := hall (0, 12) (of_decide_eq_true hboard)
  exact lt_irrefl _ hin.2.2

end Controller

end SpallocServer
