import SpallocServer.Controller.Dimensions
import SpallocServer.Controller.Hardware
import SpallocServer.Controller.WhereIs

namespace SpallocServer.Controller

open Foundation Prog Coordinates JobQueue

variable {g : Geometry} {c : Controller} {name : String} {machine : Configuration.Machine}
  {b : Board} {x y z chipX chipY chipX' chipY' : ℤ} {wanted : Option ℕ} {r : Place}

def Job.Measured (job : Job) : Prop :=
  ∃ boards width height, job.boards = some boards ∧ boards.Nonempty ∧ job.width = some width ∧
    job.height = some height ∧ width ≠ 0 ∧ height ≠ 0

def Measured (c : Controller) : Prop :=
  ∀ id, (c.job id).allocatedMachine ≠ none → (c.job id).Measured

theorem jobForLocation_ok (h : Measured c) (machine : Configuration.Machine) (b : Board)
    (jobs : List ℕ) : ∃ id, jobForLocation c machine b jobs = .ok id ∧
      ∀ k, id = some k → (c.job k).Measured := by
  induction jobs with
  | nil => exact ⟨none, rfl, nofun⟩
  | cons id jobs ih =>
    obtain ⟨res, hres, hmeasured⟩ := ih
    unfold jobForLocation
    split
    · exact ⟨res, hres, hmeasured⟩
    next allocated hallocated =>
    have hsome : (c.job id).allocatedMachine ≠ none := by
      rw [hallocated]
      exact Option.some_ne_none allocated
    obtain ⟨boards, width, height, hboards, hrest⟩ := h id hsome
    rw [hboards]
    split
    · dsimp only
      split
      · refine ⟨some id, rfl, fun k hk => ?_⟩
        cases hk
        exact ⟨boards, width, height, hboards, hrest⟩
      · exact ⟨res, hres, hmeasured⟩
    · exact ⟨res, hres, hmeasured⟩

theorem getJobChip_ok {id : Option ℕ}
    (h : ∀ k, id = some k → (c.job k).Measured) (b : Board) (boardChip : ℤ × ℤ) :
    ∃ chip, getJobChip c id b boardChip = .ok chip := by
  cases id with
  | none => exact ⟨none, rfl⟩
  | some id =>
    obtain ⟨boards, width, height, hboards, hne, hwidth, hheight, hw, hh⟩ := h id rfl
    simp only [getJobChip, jobCorner, hboards, lowest, dif_pos hne, hwidth, hheight, jobModulo,
      modulo, if_neg hw, if_neg hh]
    exact ⟨_, rfl⟩

theorem Job.Measured.congr {job job' : Job} (h : job.Measured)
    (hp : job'.placement = job.placement) (hs : job'.size = job.size) : job'.Measured := by
  obtain ⟨boards, width, height, hboards, hne, hwidth, hheight, hw, hh⟩ := h
  refine ⟨boards, width, height, (boards_of_placement hp).trans hboards, hne, ?_, ?_, hw, hh⟩
  · exact (congrArg Prod.fst hs).trans hwidth
  · exact (congrArg Prod.snd hs).trans hheight

theorem Measured.congr {c' : Controller} (h : Measured c)
    (hp : ∀ k, (c'.job k).placement = (c.job k).placement)
    (hs : ∀ k, (c'.job k).size = (c.job k).size) : Measured c' := by
  intro k hk
  rw [allocatedMachine_of_placement (hp k)] at hk
  exact (h k hk).congr (hp k) (hs k)

theorem Measured.touched {c' : Controller} {id : ℕ} (h : Measured c) (ht : Touches id c c')
    (hid : (c'.job id).Measured) : Measured c' := by
  intro k hk
  by_cases heq : k = id
  · rw [heq]
    exact hid
  · rw [ht.job k heq] at hk ⊢
    exact h k hk

theorem Measured.createdJob {owner : String} {alive : Option Keepalive} {host : Option String}
    {reads : ℕ} (h : Measured c) : Measured (Controller.createdJob
      { c with nextId := c.nextId + 1, reads := reads } c.nextId owner alive host) := by
  intro k hk
  rw [job_createdJob] at hk ⊢
  split at hk
  · exact absurd rfl hk
  · next hne =>
    rw [if_neg hne]
    exact h k hk

theorem dimensions_pos {boards : Finset Board} {o top : Board} (h : Cornered boards o)
    (htop : top ∈ boards) (torus : WrapAround) :
    0 < (dimensions o top boards torus).1 ∧ 0 < (dimensions o top boards torus).2 := by
  have hx := h.x top htop
  have hy := h.y top htop
  unfold dimensions
  split
  · simp only [triadDimensionsToChips]
    constructor <;> split <;> omega
  · decide

theorem onAllocate_measures {id : ℕ} {boards : Finset Board} {periphery : Finset BoardLink}
    {torus : WrapAround} {o : Board} (h : Measured c) (ho : Cornered boards o) :
    wp (onAllocate id name boards periphery torus) (fun _ c' => Measured c')
      (fun _ c' => Measured c') c := by
  have hne : boards.Nonempty := ⟨o, ho.mem⟩
  obtain ⟨least, hleast⟩ := leastBoard_isOk hne
  obtain ⟨greatest, hgreatest⟩ := greatestBoard_isOk hne
  obtain rfl := least_eq ho hleast
  obtain ⟨hw, hh⟩ := dimensions_pos ho (greatestBoard_spec hgreatest).1 torus
  apply onAllocate_wp
  · exact fun _ => h
  · exact fun _ => h
  · intro _ _ _ _ hmin
    rw [hleast] at hmin
    cases hmin
  · intro _ _ _ _ hmax
    rw [hgreatest] at hmax
    cases hmax
  · intro machine origin top _ _ _ hmin hmax _
    obtain rfl := Except.ok.inj (hleast.symm.trans hmin)
    obtain rfl := Except.ok.inj (hgreatest.symm.trans hmax)
    apply h.touched (rewrites_assigned.toTouches.trans (rewrites_setJob _ id _).toTouches)
    rw [job_setJob, if_pos rfl, job_assigned, if_pos rfl]
    exact ⟨boards, _, _, rfl, hne, rfl, rfl, hw.ne', hh.ne'⟩
  · intro machine origin top connections c' hl ha
    obtain rfl := Except.ok.inj (hleast.symm.trans hl.least)
    obtain rfl := Except.ok.inj (hgreatest.symm.trans hl.greatest)
    have hmeasured : Measured c' := h.touched ha.toTouches
      ⟨boards, _, _, ha.boards, hne, ha.size.1, ha.size.2, hw.ne', hh.ne'⟩
    apply (setJobPowerAndLinks_placement.and setJobPowerAndLinks_size).mono
    · exact fun _ _ ⟨hp, hs⟩ => hmeasured.congr hp hs
    · exact fun _ _ ⟨hp, hs⟩ => hmeasured.congr hp hs

theorem measured_rules : KeepRules True (fun _ => True)
    (fun t => Hosting t ∧ Measured t.2) fun t => Measured t.2 where
  agreed _ h := h.1.toAgreed
  numbered q c h := hosting_rules.numbered q c h.1
  view _ _ h hv := h.2.congr hv.placement hv.size
  alloc _ q c m j _ h _ _ := by
    apply (Allocator.alloc_cornered (q.job j).request (q.machine m).allocator).mono _
      fun _ _ _ => h.2
    intro res a hcornered
    cases res with
    | none => exact h.2
    | some al =>
      obtain ⟨o, ho⟩ := hcornered al rfl
      exact onAllocate_measures h.2 ho
  checked _ _ _ _ _ h _ := (wp_trivial _).mono (fun _ _ _ => h.2) fun _ _ _ => h.2
  cancelled _ _ _ _ _ _ h _ := h.2
  retired _ _ _ _ _ _ h _ := h.2
  freed _ _ _ _ _ _ _ _ _ h _ _ _ _ _ := h.2
  enlisted _ _ _ _ _ _ _ _ _ h := h.2.createdJob
  created _ _ _ _ _ _ _ _ _ _ _ h _ := h.2.createdJob
  removed _ _ _ _ h _ _ _ := h.2
  changed _ _ _ _ _ _ _ _ h _ _ _ _ _ := h.2
  added _ _ c name new _ h _ _ _ := by
    intro k hk
    rw [(registered_jobs c name new).2.2.2] at hk ⊢
    exact h.2 k hk

theorem reachable_measured {s : Setup} {t : JobQueue × Controller} (h : (system s).Reachable t) :
    Measured t.2 := by
  have hrules : KeepRules True (fun _ => True) (fun t => Hosting t ∧ Measured t.2)
      fun t => Hosting t ∧ Measured t.2 :=
    (hosting_rules.mono (fun hlost => hlost) (fun _ ha => ha) (fun _ ht => ht.1)
      fun _ ht => ht).and measured_rules
  apply And.right (a := Hosting t)
  apply And.right (a := Roster 0 t)
  apply h.invariant
  · intro t ht
    rw [ht]
    exact ⟨start_roster s, start_hosting s, fun _ hne => absurd rfl hne⟩
  · intro t op t' _ ht hstep
    rw [hstep]
    exact wp_same (hrules.exec (fun _ => trivial) (.of_all fun _ => trivial) ht)

theorem describe_eq (hw : 0 < machine.width) (hh : 0 < machine.height) :
    describe g c name machine chipX chipY wanted =
      (chipToBoard g (chipX % (machine.width * 12)) (chipY % (machine.height * 12))
          (machine.width * 12) (machine.height * 12)).bind fun b =>
        match machine.boardLocations.get? b with
        | none => .ok none
        | some physical =>
          (c.jobForLocation machine b c.jobs).bind fun jobId =>
            if wanted ≠ none ∧ jobId ≠ wanted then .ok none
            else
              (c.getJobChip jobId b (g.getLocalChipCoordinate (chipX % (machine.width * 12))
                (chipY % (machine.height * 12)))).bind fun jobChip =>
                  .ok (some ⟨name, b, physical,
                    (chipX % (machine.width * 12), chipY % (machine.height * 12)),
                    g.getLocalChipCoordinate (chipX % (machine.width * 12))
                      (chipY % (machine.height * 12)), jobId, jobChip⟩) := by
  have hx : modulo chipX (machine.width * 12) = .ok (chipX % (machine.width * 12)) := by
    rw [modulo, if_neg (by omega), Int.fmod_eq_emod_of_nonneg _ (by omega)]
  have hy : modulo chipY (machine.height * 12) = .ok (chipY % (machine.height * 12)) := by
    rw [modulo, if_neg (by omega), Int.fmod_eq_emod_of_nonneg _ (by omega)]
  simp only [describe, triadDimensionsToChips, if_true, Int.add_zero, hx, hy]
  rfl

theorem describe_located (h : describe g c name machine chipX chipY wanted = .ok (some r)) :
    machine.boardLocations.get? r.logical = some r.physical := by
  unfold describe at h
  obtain ⟨x, -, h⟩ := bind_eq_ok.mp h
  obtain ⟨y, -, h⟩ := bind_eq_ok.mp h
  obtain ⟨b, -, h⟩ := bind_eq_ok.mp h
  split at h
  · cases h
  next physical hget =>
  obtain ⟨jobId, -, h⟩ := bind_eq_ok.mp h
  split at h
  · cases h
  obtain ⟨jobChip, -, h⟩ := bind_eq_ok.mp h
  cases h
  exact hget

theorem describe_congr (hw : 0 < machine.width) (hh : 0 < machine.height)
    (hx : chipX ≡ chipX' [ZMOD machine.width * 12])
    (hy : chipY ≡ chipY' [ZMOD machine.height * 12]) :
    describe g c name machine chipX chipY wanted = describe g c name machine chipX' chipY' wanted := by
  rw [describe_eq hw hh, describe_eq hw hh, hx, hy]

theorem describe_corner (name : String) (hg : g.Tiles machine.width machine.height) (hc : Measured c)
    (hb : InMachine machine.width machine.height b) :
    (machine.boardLocations.get? b = none →
        describe g c name machine (corner b).1 (corner b).2 none = .ok none) ∧
      ∀ physical, machine.boardLocations.get? b = some physical → ∃ jobId jobChip,
        describe g c name machine (corner b).1 (corner b).2 none =
          .ok (some ⟨name, b, physical, corner b, (0, 0), jobId, jobChip⟩) := by
  have hw : 0 < machine.width := by have := hb.x; omega
  have hh : 0 < machine.height := by have := hb.y; omega
  obtain ⟨hx, hy⟩ := corner_in hb
  obtain ⟨hboard, hlocal⟩ := hg.corner hb
  rw [describe_eq hw hh, Int.emod_eq_of_lt hx.1 hx.2, Int.emod_eq_of_lt hy.1 hy.2, hboard, hlocal]
  simp only [Except.bind]
  constructor
  · intro hnone
    rw [hnone]
  · intro physical hget
    obtain ⟨jobId, hjob, hmeasured⟩ := jobForLocation_ok hc machine b c.jobs
    obtain ⟨jobChip, hchip⟩ := getJobChip_ok hmeasured b (0, 0)
    refine ⟨jobId, jobChip, ?_⟩
    rw [hget, hjob]
    simp [hchip]

theorem getBoardAtPosition_eq (hm : c.machines.get? name = some machine)
    {physical : Configuration.Location} (hget : machine.boardLocations.get? b = some physical) :
    c.getBoardAtPosition name physical.1 physical.2.1 physical.2.2 = some b := by
  unfold getBoardAtPosition
  rw [hm]
  dsimp only
  have hmem := Dict.get?_eq_some.mp hget
  cases hfind : machine.boardLocations.entries.find? fun p => p.2 = physical with
  | none => exact absurd (List.find?_eq_none.mp hfind _ hmem) (by simp)
  | some p =>
    have hp : p.2 = physical := by simpa using List.find?_some hfind
    have hget' : machine.boardLocations.get? p.1 = some physical :=
      Dict.get?_eq_some.mpr (hp ▸ List.mem_of_find?_eq_some hfind)
    rw [Option.map_some, Configuration.Machine.location_injective hget' hget]

structure Confirmed (g : Geometry) (c : Controller) (name : String)
    (machine : Configuration.Machine) (b : Board) (r : Place) : Prop where
  logical : r.logical = b
  physical : machine.boardLocations.get? b = some r.physical
  boardChip : r.boardChip = (0, 0)
  byPhysical :
    c.whereIs g (.physical name r.physical.1 r.physical.2.1 r.physical.2.2) = .ok (some r)
  byChip : c.whereIs g (.chip name r.chip.1 r.chip.2) = .ok (some r)
  position : c.getBoardPosition name r.logical.1 r.logical.2.1 r.logical.2.2 = some r.physical
  atPosition :
    c.getBoardAtPosition name r.physical.1 r.physical.2.1 r.physical.2.2 = some r.logical

/-- The board at these coordinates, around the edges of the machine, is found if there is one. -/
structure Agree (g : Geometry) (c : Controller) (name : String) (machine : Configuration.Machine)
    (x y z : ℤ) : Prop where
  found : (∃ r, c.whereIs g (.logical name x y z) = .ok (some r)) ↔
    (machine.boardLocations.get? (x % machine.width, y % machine.height, z)).isSome
  confirmed : ∀ r, c.whereIs g (.logical name x y z) = .ok (some r) →
    Confirmed g c name machine (x % machine.width, y % machine.height, z) r

theorem whereIs_logical (hm : c.machines.get? name = some machine) :
    c.whereIs g (.logical name x y z) =
      describe g c name machine (boardToChip x y z).1 (boardToChip x y z).2 none := by
  simp only [whereIs, whereIsByLogicalTriple, hm]

theorem inMachine_of_get {physical : Configuration.Location}
    (hget : machine.boardLocations.get? b = some physical) :
    InMachine machine.width machine.height b :=
  machine.locations_in b (Dict.mem_keys.mpr ⟨physical, hget⟩)

theorem whereIs_logical_mod (hm : c.machines.get? name = some machine) (hw : 0 < machine.width)
    (hh : 0 < machine.height) : c.whereIs g (.logical name x y z) =
      describe g c name machine (corner (x % machine.width, y % machine.height, z)).1
        (corner (x % machine.width, y % machine.height, z)).2 none := by
  rw [whereIs_logical hm]
  apply describe_congr hw hh
  · rw [show (boardToChip x y z).1 = (corner (x, y, z)).1 from rfl, corner_eq, corner_eq]
    exact ((Int.mod_modEq x machine.width).symm.mul_right').add_right _
  · rw [show (boardToChip x y z).2 = (corner (x, y, z)).2 from rfl, corner_eq, corner_eq]
    exact ((Int.mod_modEq y machine.height).symm.mul_right').add_right _

theorem confirmed_of_located (hg : g.Tiles machine.width machine.height) (hc : Measured c)
    (hm : c.machines.get? name = some machine) {physical : Configuration.Location}
    (hget : machine.boardLocations.get? b = some physical) :
    ∃ r, describe g c name machine (corner b).1 (corner b).2 none = .ok (some r) ∧
      Confirmed g c name machine b r := by
  have hb := inMachine_of_get hget
  obtain ⟨jobId, jobChip, hr⟩ := (describe_corner name hg hc hb).2 physical hget
  have hposition := getBoardAtPosition_eq hm hget
  refine ⟨_, hr, rfl, hget, rfl, ?_, ?_, ?_, hposition⟩
  · simp only [whereIs, whereIsByPhysicalTriple, hm, hposition]
    exact hr
  · simp only [whereIs, whereIsByChipCoordinate, hm]
    exact hr
  · simp only [getBoardPosition, hm]
    exact hget

theorem describe_confirmed (hg : g.Tiles machine.width machine.height) (hc : Measured c)
    (hm : c.machines.get? name = some machine) (hb : InMachine machine.width machine.height b) :
    ((∃ r, describe g c name machine (corner b).1 (corner b).2 none = .ok (some r)) ↔
        (machine.boardLocations.get? b).isSome) ∧
      ∀ r, describe g c name machine (corner b).1 (corner b).2 none = .ok (some r) →
        Confirmed g c name machine b r := by
  cases hget : machine.boardLocations.get? b with
  | none =>
    have hno (r : Place) : describe g c name machine (corner b).1 (corner b).2 none ≠
        .ok (some r) := by
      rw [(describe_corner name hg hc hb).1 hget]
      exact nofun
    exact ⟨iff_of_false (fun ⟨r, hr⟩ => hno r hr) Bool.false_ne_true,
      fun r hr => absurd hr (hno r)⟩
  | some physical =>
    obtain ⟨r, hr, hconfirmed⟩ := confirmed_of_located hg hc hm hget
    refine ⟨iff_of_true ⟨r, hr⟩ rfl, fun r' hr' => ?_⟩
    rw [hr] at hr'
    cases hr'
    exact hconfirmed

theorem boardToChip_outside (hz : ¬(0 ≤ z ∧ z < 3)) : boardToChip x y z = boardToChip x y 0 := by
  have h1 : z ≠ 1 := by omega
  have h2 : z ≠ 2 := by omega
  simp [boardToChip, h1, h2]

theorem agree_iff (hg : g.Tiles machine.width machine.height) (hc : Measured c)
    (hm : c.machines.get? name = some machine) : Agree g c name machine x y z ↔
      (0 ≤ z ∧ z < 3) ∨
        machine.boardLocations.get? (x % machine.width, y % machine.height, 0) = none := by
  have hnone (b : Board) (hb : ¬InMachine machine.width machine.height b) :
      machine.boardLocations.get? b = none :=
    Option.eq_none_iff_forall_not_mem.mpr fun _ hget => hb (inMachine_of_get hget)
  by_cases hdims : 0 < machine.width ∧ 0 < machine.height
  · obtain ⟨hw, hh⟩ := hdims
    have hin (z : ℤ) (hz : 0 ≤ z ∧ z < 3) :
        InMachine machine.width machine.height (x % machine.width, y % machine.height, z) :=
      ⟨⟨Int.emod_nonneg _ hw.ne', Int.emod_lt_of_pos _ hw⟩,
        ⟨Int.emod_nonneg _ hh.ne', Int.emod_lt_of_pos _ hh⟩, hz⟩
    by_cases hz : 0 ≤ z ∧ z < 3
    · obtain ⟨hfound, hconfirmed⟩ := describe_confirmed hg hc hm (hin z hz)
      rw [← whereIs_logical_mod hm hw hh] at hfound hconfirmed
      exact iff_of_true ⟨hfound, hconfirmed⟩ (.inl hz)
    · obtain ⟨hfound, -⟩ := describe_confirmed hg hc hm (hin 0 (by decide))
      have hsame : c.whereIs g (.logical name x y z) = c.whereIs g (.logical name x y 0) := by
        rw [whereIs_logical hm, whereIs_logical hm, boardToChip_outside hz]
      have hz' := hnone (x % machine.width, y % machine.height, z) fun hb => hz hb.z
      rw [← whereIs_logical_mod hm hw hh, ← hsame] at hfound
      constructor
      · intro hagree
        right
        rw [← Option.not_isSome_iff_eq_none, ← hfound, hagree.found, hz']
        exact Bool.false_ne_true
      · intro h
        have hzero := h.resolve_left hz
        rw [hzero] at hfound
        have hno : ¬∃ r, c.whereIs g (.logical name x y z) = .ok (some r) :=
          hfound.not.mpr Bool.false_ne_true
        refine ⟨iff_of_false hno ?_, fun r hr => absurd ⟨r, hr⟩ hno⟩
        rw [hz']
        exact Bool.false_ne_true
  · have hempty (b : Board) : machine.boardLocations.get? b = none :=
      hnone b fun hb => hdims ⟨hb.x.1.trans_lt hb.x.2, hb.y.1.trans_lt hb.y.2⟩
    have hno : ¬∃ r, c.whereIs g (.logical name x y z) = .ok (some r) := by
      intro ⟨r, hr⟩
      rw [whereIs_logical hm] at hr
      have hget := describe_located hr
      rw [hempty] at hget
      cases hget
    refine iff_of_true ⟨iff_of_false hno ?_, fun r hr => absurd ⟨r, hr⟩ hno⟩ (.inr (hempty _))
    rw [hempty]
    exact Bool.false_ne_true

/-- Whatever has been done, all queries for a board agree if and only if its z is one that boards
have, or no board is there with z = 0. -/
theorem board_queries_agree_iff {s : Setup} {t : JobQueue × Controller}
    (h : (system s).Reachable t) (hm : t.2.machines.get? name = some machine)
    (hg : g.Tiles machine.width machine.height) (x y z : ℤ) : Agree g t.2 name machine x y z ↔
      (0 ≤ z ∧ z < 3) ∨
        machine.boardLocations.get? (x % machine.width, y % machine.height, 0) = none :=
  agree_iff hg (reachable_measured h) hm

theorem get_oneBoard : ∃ machine,
    (runs Setup.quiet.start [.setMachines oneBoard]).2.machines.get? "m" = some machine ∧
      machine.boardLocations.get? (0 % machine.width, 0 % machine.height, 0) ≠ none := by
  have hfound : ((runs Setup.quiet.start [.setMachines oneBoard]).2.machines.get? "m").any
      (fun machine => decide
        (machine.boardLocations.get? (0 % machine.width, 0 % machine.height, 0) ≠ none)) = true := by
    decide +kernel
  obtain ⟨machine, hmachine, hboard⟩ := (Option.any_eq_true _ _).mp hfound
  exact ⟨machine, hmachine, of_decide_eq_true hboard⟩

theorem board_queries_agree_iff_oneBoard : ∃ machine,
    (runs Setup.quiet.start [.setMachines oneBoard]).2.machines.get? "m" = some machine ∧
      Agree Geometry.spinn5 (runs Setup.quiet.start [.setMachines oneBoard]).2 "m" machine 0 0 0 := by
  obtain ⟨machine, hget, -⟩ := get_oneBoard
  exact ⟨machine, hget, (board_queries_agree_iff (.next (.start rfl) rfl) hget
    (spinn5_tiles _ _) 0 0 0).mpr (.inl (by decide))⟩

/-- A board that does not exist is found. -/
theorem not_agree_oneBoard :
    ¬∀ (g : Geometry) (s : Setup) (t : JobQueue × Controller) (name : String)
      (machine : Configuration.Machine) (x y z : ℤ), (system s).Reachable t →
      t.2.machines.get? name = some machine → g.Tiles machine.width machine.height →
      Agree g t.2 name machine x y z := by
  intro h
  obtain ⟨machine, hget, hboard⟩ := get_oneBoard
  have hagree := h Geometry.spinn5 Setup.quiet _ "m" machine 0 0 5 (.next (.start rfl) rfl) hget
    (spinn5_tiles _ _)
  have hmeasured := reachable_measured (s := Setup.quiet)
    (t := runs Setup.quiet.start [.setMachines oneBoard]) (.next (.start rfl) rfl)
  obtain hz | hnone := (agree_iff (spinn5_tiles _ _) hmeasured hget).mp hagree
  · exact absurd hz (by decide)
  · exact hboard hnone

end SpallocServer.Controller
