import SpallocServer.Allocator.Session

namespace SpallocServer

open Foundation Allocator Ledger Coordinates

def AllocatorCall.Steady : AllocatorCall → Prop
  | .alloc r => r.Sane
  | .free _ => True
  | .checkFree => True
  | .setDeadBoards _ => False

namespace Session

variable {s s' : Session} {c : Setup} {call : AllocatorCall}

theorem Inv.claims_nodup (h : s.Inv) : (s.held.map Lease.claim).Nodup := by
  have hids := h.ids
  rw [held, List.map_append] at hids ⊢
  have hlive := List.Nodup.of_append_left hids
  rw [List.nodup_append]
  refine ⟨hlive.of_map.map_on fun l hl m hm he => ?_, ?_, ?_⟩
  · have hl' := (h.live _ _).mpr ⟨l, hl, rfl, rfl⟩
    have hm' := (h.live _ _).mpr ⟨m, hm, rfl, rfl⟩
    exact List.inj_on_of_nodup_map hlive hl hm (h.allocator.books.live _ _ _ hl' (he ▸ hm'))
  · rw [h.freeing]
    exact h.allocator.books.queue
  · rintro _ hc d hd rfl
    obtain ⟨l, hl, rfl⟩ := List.mem_map.mp hc
    rw [h.freeing] at hd
    exact h.allocator.books.apart _ _ ((h.live _ _).mpr ⟨l, hl, rfl, rfl⟩) hd

theorem Inv.claim_eq (h : s.Inv) {l m : Lease} (hl : l ∈ s.held) (hm : m ∈ s.held) {b : Board}
    (hbl : b ∈ l.boards) (hbm : b ∈ m.boards) : l.claim = m.claim := by
  have hs := h.allocator.sound
  have hr : l.rectangle = m.rectangle :=
    hs.apart _ (h.leaves l hl) _ (h.leaves m hm) _ ((h.formed l hl).inside b hbl).1
      ((h.formed m hm).inside b hbm).1
  have hcl : l.claim ∈ s.allocator.ledger.claims := h.claim_outstanding hl
  have hcm : m.claim ∈ s.allocator.ledger.claims := h.claim_outstanding hm
  rcases (h.formed l hl).kind with hkl | ⟨p, z, hkl, hrl, hbp⟩ <;>
    rcases (h.formed m hm).kind with hkm | ⟨q, z', hkm, hrm, hbq⟩
  · rw [hkl, hkm, hr]
  · -- a block of triads cannot start at a triad that is opened
    rw [hkm] at hcm
    rw [hkl] at hcl
    refine absurd (hs.board q z' hcm).1 ?_
    have hno := (hs.block_leaf hcl).1
    rwa [hr, hrm] at hno
  · rw [hkl] at hcl
    rw [hkm] at hcm
    refine absurd (hs.board p z hcl).1 ?_
    have hno := (hs.block_leaf hcm).1
    rwa [← hr, hrl] at hno
  · rw [hbp, Finset.mem_singleton] at hbl
    rw [hbq, Finset.mem_singleton, hbl] at hbm
    simp only [Prod.mk.injEq] at hbm
    rw [hkl, hkm, single, single, hbm.1, hbm.2.1, hbm.2.2]

theorem Inv.exclusive (h : s.Inv) :
    s.held.Pairwise fun l m => l.id ≠ m.id ∧ Disjoint l.boards m.boards := by
  refine h.ids.of_map.pairwise_of_forall_ne fun l hl m hm hne => ⟨fun hid => ?_, ?_⟩
  · exact hne (List.inj_on_of_nodup_map h.ids hl hm hid)
  · rw [Finset.disjoint_left]
    intro b hbl hbm
    exact hne (List.inj_on_of_nodup_map h.claims_nodup hl hm (h.claim_eq hl hm hbl hbm))

theorem Inv.inMachine (h : s.Inv) {l : Lease} (hl : l ∈ s.held) {b : Board} (hb : b ∈ l.boards) :
    InMachine s.allocator.width s.allocator.height b := by
  obtain ⟨hcell, hz⟩ := (h.formed l hl).inside b hb
  have hin := h.allocator.tree.allocated_subset (h.leaves l hl) hcell
  rw [h.allocator.root, Region.mem_cells] at hin
  dsimp only at hin
  exact ⟨by omega, by omega, hz⟩

structure Stable (c : Setup) (s : Session) : Prop where
  inv : s.Inv
  settled : s.allocator.Settled
  setup : SameSetup c.start.allocator s.allocator
  alive : ∀ l ∈ s.held, ∀ b ∈ l.boards, b ∉ c.deadBoards
  late : ∀ e t, (e, t) ∈ s.released → c.secondsBeforeFree * 1000000 ≤ t - e.time

theorem Stable.proper (h : Stable c s) (hc : call.Steady) : s.Proper call := by
  have hcareful := careful_of_resilient h.inv.allocator h.settled.exact.resilient
    s.allocator.toFree.length
  cases call with
  | alloc r => exact ⟨hcareful, .inl hc⟩
  | free id => trivial
  | checkFree => exact hcareful
  | setDeadBoards d => trivial

theorem outcome_alive {a a' : Allocator} {r : Request} {al : Allocation} (h : a.Inv)
    (hs : a.Settled) (ho : Outcome a r (.ok (some al)) a') :
    ∀ b ∈ al.boards, b ∉ a.deadBoards := by
  cases ho with
  | @triads f rect tree torus hw hh hd _ hadd boards hb _ =>
    intro b hm
    subst hb
    have hpos := hadd.valid.allocated_positive ((hadd.mem rect).mpr (.inl rfl))
    rw [← hd]
    exact (CandidateFilter.mem_enumerateBoards hpos.1 hpos.2 hm).2
  | @spare x y z hz _ =>
    intro b hm
    obtain rfl := Finset.mem_singleton.mp hm
    have ho : (x, y) ∈ a.ledger.opened := h.sound.opened_of_free hz
    exact (mem_working.mp ((hs.exact _ ho z).mp (.inl hz))).2
  | fresh _ hz _ =>
    intro b hm
    obtain rfl := Finset.mem_singleton.mp hm
    exact (mem_working.mp hz).2

theorem Stable.swept (h : Stable c s) {k : ℕ} {b : Allocator} (hs : Swept s.allocator k b)
    (hb : b.Inv) : Stable c (s.swept b) := by
  have hi := h.inv.swept hs hb
  have hst := (hs.settled h.inv.allocator h.settled).2
  rw [swept_eq hs] at hi ⊢
  refine ⟨hi, hst, h.setup.trans hs.sameSetup, fun l hl => ?_, fun e t he => ?_⟩
  · refine h.alive l ?_
    exact ((List.Sublist.refl s.live).append (List.drop_sublist k s.freeing)).subset hl
  · rcases List.mem_append.mp he with he | he
    · exact h.late e t he
    · obtain ⟨⟨e', i⟩, hm, heq⟩ := List.mem_map.mp he
      obtain ⟨rfl, rfl⟩ := Prod.mk.inj heq
      have hi := List.mem_zipIdx_iff_getElem?.mp hm
      rw [List.getElem?_take] at hi
      split at hi
      · next hik =>
        have htime := hs.queue.2.2 i e' hik hi
        rwa [h.setup.secondsBeforeFree] at htime
      · cases hi

theorem Ran.stable {res : Except Error Unit} (h : Stable c s) (hc : call.Steady)
    (hr : Ran s call res s') : Stable c s' := by
  have hi := hr.inv h.inv (h.proper hc)
  cases hr with
  | @granted r k b a al l hs hb ho hg =>
    have hsw := h.swept hs hb
    refine ⟨hi, ho.settled hb hc hsw.settled, hsw.setup.trans ho.sameSetup, fun m hm => ?_,
      hsw.late⟩
    have hm' : m = l ∨ m ∈ (s.swept b).held := by
      simp only [held, List.mem_append, List.mem_singleton] at hm ⊢
      tauto
    obtain rfl | hm' := hm'
    · have hal : m.allocation = al := congrArg Lease.allocation hg.lease.symm
      have hlive := outcome_alive hb hsw.settled ho
      have hdead : b.deadBoards = c.deadBoards := hsw.setup.deadBoards
      rwa [Lease.boards, hal, ← hdead]
    · exact hsw.alive m hm'
  | nothing hs hb ho hn =>
    have hsw := h.swept hs hb
    exact ⟨hi, ho.settled hb hc hsw.settled, hsw.setup.trans ho.sameSetup, hsw.alive, hsw.late⟩
  | freed hl =>
    have hc' := (h.inv.live _ _).mpr ⟨_, hl, rfl, rfl⟩
    refine ⟨hi, ⟨?_, ?_⟩, h.setup.trans ⟨rfl, rfl, rfl, rfl, rfl, rfl⟩, fun m hm => ?_, h.late⟩
    · rw [ledger_freed hc']
      exact h.settled.exact
    · rw [ledger_freed hc']
      exact h.settled.occupied
    · refine h.alive m ?_
      simp only [held, List.mem_append, List.mem_filter] at hm ⊢
      tauto
  | unknown _ => exact h
  | checkFree hs hb => exact h.swept hs hb
  | setDeadBoards d => exact hc.elim

/-- Any sequence of calls that leaves the dead boards as they were. -/
def steadySystem (c : Setup) : System Session AllocatorCall :=
  (system c).restrict fun _ call => call.Steady

theorem reachable_stable (h : (steadySystem c).Reachable s) : Stable c s := by
  refine h.invariant ?_ ?_
  · rintro s rfl
    refine ⟨inv_start c, settled_new _ _ _ _ _ _ _ _, .refl _, ?_, ?_⟩
    · simp [held, Setup.start]
    · simp [Setup.start]
  · rintro s call s' - hi ⟨hc, rfl⟩
    exact (run_spec hi.inv (hi.proper hc)).stable hi hc

/-- No board is held twice, held boards exist and work, and none comes back too early. -/
theorem held_exclusive (c : Setup) (h : (steadySystem c).Reachable s) :
    s.held.Pairwise (fun l m => l.id ≠ m.id ∧ Disjoint l.boards m.boards) ∧
      (∀ l ∈ s.held, ∀ b ∈ l.boards, InMachine c.width c.height b ∧ b ∉ c.deadBoards) ∧
      ∀ e t, (e, t) ∈ s.released → c.secondsBeforeFree * 1000000 ≤ t - e.time := by
  have hs := reachable_stable h
  refine ⟨hs.inv.exclusive, fun l hl b hb => ⟨?_, hs.alive l hl b hb⟩, hs.late⟩
  have hin := hs.inv.inMachine hl hb
  rwa [hs.setup.width, hs.setup.height] at hin

/-- A machine of a single triad. -/
def oneTriad : Setup where
  width := 1
  height := 1
  width_pos := le_rfl
  height_pos := le_rfl
  deadBoards := ∅
  deadLinks := ∅
  nextId := 1
  secondsBeforeFree := 0
  clock _ := 0
  setPop := .least

def twoBoards : List AllocatorCall :=
  [.alloc { args := .nil }, .alloc { args := .one (.int 1) }, .free 1]

theorem reachable_twoBoards : (steadySystem oneTriad).Reachable (oneTriad.start.runs twoBoards) := by
  refine reachable_runs (.start rfl) ?_
  simp [twoBoards, AllocatorCall.Steady, Request.Sane, Request.z]

theorem held_exclusive_twoBoards :
    (oneTriad.start.runs twoBoards).held.map (·.boards) = [{(0, 0, 1)}, {(0, 0, 0)}] ∧
      (oneTriad.start.runs twoBoards).held.Pairwise fun l m =>
        l.id ≠ m.id ∧ Disjoint l.boards m.boards :=
  ⟨by decide +kernel, (held_exclusive oneTriad reachable_twoBoards).1⟩

/-- The periphery of an allocation is all that leaves it, so a link that joins two allocations
is on the periphery of both. -/
theorem held_isolated (c : Setup) (h : (steadySystem c).Reachable s) :
    (∀ l ∈ s.held, ∀ b link, (b, link) ∈ l.periphery ↔
      b ∈ l.boards ∧ neighbour b link c.width c.height ∉ l.boards) ∧
    ∀ l ∈ s.held, ∀ m ∈ s.held, l.id ≠ m.id → ∀ b ∈ l.boards, ∀ link,
      neighbour b link c.width c.height ∈ m.boards →
        (b, link) ∈ l.periphery ∧
          (neighbour b link c.width c.height, link.opposite) ∈ m.periphery := by
  have hs := reachable_stable h
  have hper : ∀ l ∈ s.held, ∀ b link, (b, link) ∈ l.periphery ↔
      b ∈ l.boards ∧ neighbour b link c.width c.height ∉ l.boards := by
    intro l hl
    have hf := (hs.inv.formed l hl).periphery
    rwa [hs.setup.width, hs.setup.height] at hf
  refine ⟨hper, fun l hl m hm hne b hb link hfar => ?_⟩
  have hdisj : Disjoint l.boards m.boards := by
    have hex := hs.inv.exclusive
    have hlm : l ≠ m := fun he => hne (congrArg Lease.id he)
    have hsymm : Std.Symm fun l m : Lease => l.id ≠ m.id ∧ Disjoint l.boards m.boards :=
      ⟨fun _ _ h => ⟨h.1.symm, h.2.symm⟩⟩
    exact (hex.forall hl hm hlm).2
  rw [Finset.disjoint_left] at hdisj
  have hin := hs.inv.inMachine hl hb
  rw [hs.setup.width, hs.setup.height] at hin
  refine ⟨(hper l hl b link).mpr ⟨hb, fun hf => hdisj hf hfar⟩,
    (hper m hm _ link.opposite).mpr ⟨hfar, ?_⟩⟩
  have hback : neighbour (neighbour b link c.width c.height) link.opposite c.width c.height = b :=
    neighbour_opposite hin link
  rw [hback]
  exact hdisj hb

theorem held_isolated_twoBoards :
    ∃ l ∈ (oneTriad.start.runs twoBoards).held, ∃ m ∈ (oneTriad.start.runs twoBoards).held,
      ((0, 0, 0), .northEast) ∈ l.periphery ∧ ((0, 0, 1), .southWest) ∈ m.periphery := by
  have hex : ∃ l ∈ (oneTriad.start.runs twoBoards).held,
      ∃ m ∈ (oneTriad.start.runs twoBoards).held, l.id ≠ m.id ∧ (0, 0, 0) ∈ l.boards ∧
        neighbour (0, 0, 0) .northEast 1 1 ∈ m.boards := by decide +kernel
  obtain ⟨l, hl, m, hm, hne, hb, hfar⟩ := hex
  obtain ⟨hin, hout⟩ :=
    (held_isolated oneTriad reachable_twoBoards).2 l hl m hm hne (0, 0, 0) hb .northEast hfar
  exact ⟨l, hl, m, hm, hin, hout⟩

end Session

end SpallocServer
