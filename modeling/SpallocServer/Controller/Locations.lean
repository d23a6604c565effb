import SpallocServer.Controller.JobChips
import SpallocServer.Controller.Tenants

namespace SpallocServer.Controller

open Foundation Prog Coordinates JobQueue Allocator

variable {q q' : JobQueue} {c c' : Controller} {t t' : JobQueue × Controller} {id j m : ℕ}
  {depth : ℤ} {name : String} {boards : Finset Board} {b : Board} {g : Geometry}
  {machine allocated : Configuration.Machine}

def Current (t : JobQueue × Controller) : Prop :=
  ∀ id ∈ t.2.jobs, ∀ machine, (t.2.job id).allocatedMachine = some machine →
    ∃ current, t.2.machines.get? machine.name = some current ∧ machine.Same current

/-- The new dead boards are tolerated, and no live job is on the machine. -/
structure Undisturbed (new : Configuration.Machine) (t : JobQueue × Controller) : Prop where
  tolerated : Tolerated new t
  unoccupied : ∀ id ∈ t.2.jobs, ∀ machine, (t.2.job id).allocatedMachine = some machine →
    machine.name ≠ new.name

theorem undisturbed_local : Local Undisturbed := by
  intro new t t' h ha
  refine ⟨tolerated_local new t t' h.tolerated ha, fun id hid machine hmachine => ?_⟩
  rw [allocatedMachine_of_placement (ha.placement id)] at hmachine
  exact h.unoccupied id (ha.jobs id hid) machine hmachine

namespace Current

theorem congr (h : Current (q, c)) (hm : ∀ name, c'.machines.get? name = c.machines.get? name)
    (hj : ∀ k ∈ c'.jobs, k ∈ c.jobs) (hp : ∀ k, (c'.job k).placement = (c.job k).placement) :
    Current (q', c') := by
  intro id hid machine hmachine
  dsimp only at hid hmachine ⊢
  rw [allocatedMachine_of_placement (hp id)] at hmachine
  rw [hm]
  exact h id (hj id hid) machine hmachine

theorem placed {connections : Option (Dict (ℤ × ℤ) String)} {periphery : Finset BoardLink}
    (h : Current (q, c)) (hm : c.machines.get? machine.name = some machine) (ht : Touches id c c')
    (hplaced : (c'.job id).placement =
      (some machine, some boards, some periphery, connections)) : Current (q', c') := by
  intro k hk machine' hmachine
  dsimp only at hk hmachine ⊢
  rw [ht.jobs] at hk
  rw [ht.machines]
  by_cases heq : k = id
  · rw [heq, show (c'.job id).allocatedMachine = some machine from congrArg Prod.fst hplaced]
      at hmachine
    cases hmachine
    exact ⟨machine, hm, ⟨.refl machine, rfl, rfl, rfl⟩⟩
  · rw [ht.job k heq] at hmachine
    exact h k hk machine' hmachine

theorem createdJob {owner : String} {alive : Option Keepalive} {host : Option String} {reads : ℕ}
    (h : Current (q, c)) : Current (q', Controller.createdJob
      { c with nextId := c.nextId + 1, reads := reads } c.nextId owner alive host) := by
  intro id hid machine hmachine
  dsimp only at hid hmachine ⊢
  rw [job_createdJob] at hmachine
  split at hmachine
  · cases hmachine
  · next hne =>
    obtain hid | hid := List.mem_append.mp hid
    · exact h id hid machine hmachine
    · exact absurd (List.mem_singleton.mp hid) hne

end Current

theorem current_rules : UpkeepRules True (fun _ => True) Undisturbed
    (fun t => Hosting t ∧ Current t) Current where
  agreed _ h := h.1.toAgreed
  numbered q c h := hosting_rules.numbered q c h.1
  view t t' h hv := Current.congr (q := t.1) (c := t.2) h.2 hv.machines
    (fun k hk => by rwa [hv.jobs] at hk) hv.placement
  alloc depth q c m j hr h hm _ hp := by
    apply (wp_trivial _).mono _ fun _ _ _ => h.2
    intro res a _
    cases res with
    | none => exact h.2
    | some al =>
      obtain ⟨-, machine, hget⟩ := h.1.toAgreed.known hr hm
      have hname : machine.name = (q.machine m).name := h.1.named _ _ hget
      apply onAllocate_placed (hr.pending j hp).1 hget
      intro c' connections ht hplacement
      exact h.2.placed (hname ▸ hget) ht hplacement
  offer _ _ _ _ _ _ h _ _ _ := h.2
  checked _ _ _ _ _ h _ := (wp_trivial _).mono (fun _ _ _ => h.2) fun _ _ _ => h.2
  cancelled _ _ _ _ _ _ h _ :=
    h.2.congr (fun _ => rfl) (fun _ hk => (mem_retired.mp hk).1) fun _ => rfl
  retired _ _ _ _ _ _ h _ :=
    h.2.congr (fun _ => rfl) (fun _ hk => (mem_retired.mp hk).1) fun _ => rfl
  freed _ _ _ _ _ _ _ _ _ h _ _ _ _ _ := h.2
  enlisted _ _ _ _ _ _ _ _ _ h := h.2.createdJob
  created _ _ _ _ _ _ _ _ _ _ _ h _ := h.2.createdJob
  removed q c name m h hm hempty _ := by
    intro id hid machine hmachine
    obtain ⟨i, m', -, hi, him, hq, -⟩ := h.1.hosted id hid machine hmachine
    obtain ⟨current, hcurrent, hsame⟩ := h.2 id hid machine hmachine
    have hne : name ≠ machine.name := by
      intro heq
      subst heq
      obtain rfl := Option.some.inj (hm.symm.trans hq)
      exact hempty i (Dict.mem_values.mpr ⟨id, hi⟩) him
    exact ⟨current, (Dict.get?_erase_ne _ hne).trans hcurrent, hsame⟩
  changed q c name old new m _ h _ _ hname _ _ hp := by
    intro id hid machine hmachine
    obtain ⟨current, hcurrent, hsame⟩ := h.2 id hid machine hmachine
    have hne : name ≠ machine.name := by
      rw [← hname]
      exact (hp.unoccupied id hid machine hmachine).symm
    exact ⟨current, (Dict.get?_set_ne _ hne _).trans hcurrent, hsame⟩
  added q c name new _ h hnone _ _ := by
    obtain ⟨-, hj, -, hjob⟩ := registered_jobs c name new
    intro id hid machine hmachine
    dsimp only at hid hmachine ⊢
    rw [hj] at hid
    rw [hjob] at hmachine
    obtain ⟨current, hcurrent, hsame⟩ := h.2 id hid machine hmachine
    have hne : name ≠ machine.name := by
      intro heq
      dsimp only at hcurrent
      rw [← heq, hnone] at hcurrent
      cases hcurrent
    rw [registered_machines]
    exact ⟨current, (Dict.get?_set_ne _ hne _).trans hcurrent, hsame⟩

theorem on_of_jobForLocation {jobs : List ℕ}
    (h : jobForLocation c machine b jobs = .ok (some id)) :
    ∃ allocated, (c.job id).allocatedMachine = some allocated ∧ allocated.Same machine := by
  induction jobs with
  | nil => cases h
  | cons k jobs ih =>
    unfold jobForLocation at h
    split at h
    · exact ih h
    next allocated hallocated =>
    split at h
    · next hsame =>
      split at h
      · cases h
      · split at h
        · cases h
          exact ⟨allocated, hallocated, hsame⟩
        · exact ih h
    · exact ih h

theorem jobForLocation_same (h : Resident t) (hr : Roster depth t) (hid : id ∈ t.2.jobs)
    (hallocated : (t.2.job id).allocatedMachine = some allocated)
    (hget : t.2.machines.get? allocated.name = some machine) (hsame : allocated.Same machine)
    (hboards : (t.2.job id).boards = some boards) (hb : b ∈ boards) :
    jobForLocation t.2 machine b t.2.jobs = .ok (some id) := by
  obtain ⟨m, current, _, periphery, hm, hcur, -, hhoused⟩ := h.housed hr hid hallocated
  obtain rfl := Option.some.inj (hcur.symm.trans hget)
  obtain rfl := Option.some.inj (hboards.symm.trans hhoused.boards)
  apply jobForLocation_of_apart ⟨hid, allocated, hallocated, hsame⟩ hboards hb _
    (fun _ hk => hk) hid
  intro k hk hne
  obtain ⟨hklive, other, hother, hothersame⟩ := hk
  have hname : other.name = allocated.name := hothersame.name.trans hsame.name.symm
  obtain ⟨m', _, boards', periphery', hm', -, -, hhoused'⟩ := h.housed hr hklive hother
  rw [hname] at hm'
  obtain rfl := Option.some.inj (hm.symm.trans hm')
  have hdisjoint := h.toTenants.disjoint hr hget hm hhoused' hhoused hne
  exact ⟨boards', hhoused'.boards, fun hb' => Finset.disjoint_left.mp hdisjoint hb' hb⟩

theorem describe_owned {wanted : Option ℕ} {chipX chipY : ℤ}
    (hg : g.Tiles machine.width machine.height) (hmeasured : (c.job id).Measured)
    (hlocated : (machine.boardLocations.get? b).isSome)
    (hjob : jobForLocation c machine b c.jobs = .ok (some id))
    (hwanted : wanted = none ∨ wanted = some id) (hx : chipX = (corner b).1)
    (hy : chipY = (corner b).2) :
    ∃ r, describe g c name machine chipX chipY wanted = .ok (some r) ∧ r.logical = b ∧
      r.jobId = some id := by
  obtain ⟨physical, hphysical⟩ := Option.isSome_iff_exists.mp hlocated
  have hin := inMachine_of_get hphysical
  have hw : 0 < machine.width := hin.x.1.trans_lt hin.x.2
  have hh : 0 < machine.height := hin.y.1.trans_lt hin.y.2
  obtain ⟨hcx, hcy⟩ := corner_in hin
  obtain ⟨hboard, hlocal⟩ := hg.corner hin
  have hfound : ∃ jobChip, getJobChip c (some id) b (0, 0) = .ok jobChip :=
    getJobChip_ok (fun k hk => Option.some.inj hk ▸ hmeasured) b (0, 0)
  obtain ⟨jobChip, hchip⟩ := hfound
  have hasked : ¬(wanted ≠ none ∧ some id ≠ wanted) := by
    obtain rfl | rfl := hwanted
    · exact fun hne => hne.1 rfl
    · exact fun hne => hne.2 rfl
  refine ⟨⟨name, b, physical, corner b, (0, 0), some id, jobChip⟩, ?_, rfl, rfl⟩
  rw [hx, hy, describe_eq hw hh, Int.emod_eq_of_lt hcx.1 hcx.2, Int.emod_eq_of_lt hcy.1 hcy.2,
    hboard, hlocal]
  simp only [Except.bind, hphysical, hjob, if_neg hasked, hchip]

/-- The job is found from the board, and the board from the job. -/
structure Locatable (c : Controller) (machine : Configuration.Machine) (id : ℕ) (b : Board) :
    Prop where
  search : c.jobForLocation machine b c.jobs = .ok (some id)
  byBoard : ∀ g : Geometry, g.Tiles machine.width machine.height →
    ∃ r, c.whereIs g (.logical machine.name b.1 b.2.1 b.2.2) = .ok (some r) ∧ r.logical = b ∧
      r.jobId = some id
  byJob : ∀ g : Geometry, g.Tiles machine.width machine.height →
    ∃ chipX chipY r, c.whereIs g (.jobChip id chipX chipY) = .ok (some r) ∧ r.logical = b ∧
      r.jobId = some id

theorem locatable_same (h : Resident t) (hr : Roster depth t) (hmeasured : Measured t.2)
    (hid : id ∈ t.2.jobs) (hallocated : (t.2.job id).allocatedMachine = some allocated)
    (hget : t.2.machines.get? allocated.name = some machine) (hsame : allocated.Same machine)
    (hboards : (t.2.job id).boards = some boards) (hb : b ∈ boards) :
    Locatable t.2 machine id b := by
  have hname : machine.name = allocated.name := h.named _ _ hget
  have hjob := jobForLocation_same h hr hid hallocated hget hsame hboards hb
  have hm : (t.2.job id).Measured := by
    apply hmeasured
    rw [hallocated]
    exact Option.some_ne_none allocated
  obtain ⟨m, current, _, periphery, hm', hcur, -, hhoused⟩ := h.housed hr hid hallocated
  obtain rfl := Option.some.inj (hget.symm.trans hcur)
  obtain rfl := Option.some.inj (hboards.symm.trans hhoused.boards)
  obtain ⟨hne, hequips, -⟩ := h.toTenants.given hget hm' hhoused
  have hlocated := (hequips b hb).located
  refine ⟨hjob, fun g hg => ?_, fun g hg => ?_⟩
  · rw [hname, whereIs_logical hget]
    exact describe_owned hg hm hlocated hjob (.inl rfl) rfl rfl
  · obtain ⟨o, ho⟩ : ∃ o, lowest boards = .ok o := by
      unfold lowest
      rw [dif_pos hne]
      exact ⟨_, rfl⟩
    have hlive : ¬(id ∉ t.2.jobs ∨ some boards = none) := by simp [hid]
    have hfound (chipX chipY : ℤ) : t.2.whereIs g (.jobChip id chipX chipY) =
        t.2.describe g allocated.name machine (chipX + (corner o).1) (chipY + (corner o).2)
          (some id) := by
      simp only [whereIs, whereIsByJobChipCoordinate, hallocated, jobCorner, hboards, ho, hget]
      rw [if_neg hlive]
      rfl
    refine ⟨(corner b).1 - (corner o).1, (corner b).2 - (corner o).2, ?_⟩
    rw [hfound]
    exact describe_owned hg hm hlocated hjob (.inr rfl) (Int.sub_add_cancel ..)
      (Int.sub_add_cancel ..)

theorem locatable_iff (h : Resident t) (hr : Roster depth t) (hmeasured : Measured t.2)
    (hid : id ∈ t.2.jobs) (hallocated : (t.2.job id).allocatedMachine = some allocated) :
    ∃ machine boards, t.2.machines.get? allocated.name = some machine ∧
      (t.2.job id).boards = some boards ∧ boards.Nonempty ∧
      ∀ b ∈ boards, Locatable t.2 machine id b ↔ allocated.Same machine := by
  obtain ⟨m, machine, boards, periphery, hm, hget, -, hhoused⟩ := h.housed hr hid hallocated
  refine ⟨machine, boards, hget, hhoused.boards, (h.toTenants.given hget hm hhoused).1,
    fun b hb => ⟨fun hl => ?_, fun hsame => ?_⟩⟩
  · obtain ⟨allocated', hallocated', hsame⟩ := on_of_jobForLocation hl.search
    obtain rfl := Option.some.inj (hallocated.symm.trans hallocated')
    exact hsame
  · exact locatable_same h hr hmeasured hid hallocated hget hsame hhoused.boards hb

/-- In any run in which machines are not changed while live jobs are on them, also in one of
operations that raise, all boards of live jobs lead to their jobs. -/
theorem jobs_locatable {s : Setup}
    (h : ((system s).restrict fun t op => op.Alters Undisturbed t).Reachable t)
    (hid : id ∈ t.2.jobs) (hallocated : (t.2.job id).allocatedMachine = some allocated) :
    ∃ machine boards, t.2.machines.get? allocated.name = some machine ∧
      (t.2.job id).boards = some boards ∧ boards.Nonempty ∧
      ∀ b ∈ boards, Locatable t.2 machine id b := by
  have hrules : UpkeepRules True (fun _ => True) Undisturbed
      (fun t => Resident t ∧ Current t) fun t => Resident t ∧ Current t :=
    (resident_rules.mono (fun hlost => hlost) (fun _ ha => ha) (fun _ _ _ _ hp => hp.tolerated)
      (fun _ ht => ht.1) fun _ ht => ht).and
        (current_rules.mono (fun hlost => hlost) (fun _ ha => ha) (fun _ _ _ _ hp => hp)
          (fun _ ht => ⟨ht.1.toHosting, ht.2⟩) fun _ ht => ht)
  have hreachable : ((system s).restrict fun t op => (op.Barred → True) ∧
      (op.Assigns fun _ => True) ∧ op.Alters Undisturbed t).Reachable t :=
    h.mono fun _ _ halters => ⟨fun _ => trivial, .of_all fun _ => trivial, halters⟩
  have hstart : Current s.start := fun id hid => absurd hid List.not_mem_nil
  obtain ⟨hr, hresident, hcurrent⟩ :=
    hrules.reachable undisturbed_local ⟨start_resident s, hstart⟩ hreachable
  obtain ⟨machine, boards, hget, hboards, hne, hiff⟩ :=
    locatable_iff hresident hr (reachable_measured h.of_restrict) hid hallocated
  obtain ⟨_, hget', hsame⟩ := hcurrent id hid allocated hallocated
  obtain rfl := Option.some.inj (hget.symm.trans hget')
  exact ⟨machine, boards, hget, hboards, hne, fun b hb => (hiff b hb).mpr hsame⟩

theorem jobs_locatable_poweringOn :
    ∃ allocated : Configuration.Machine, ∃ machine boards,
      (runs Setup.quiet.start poweringOn).2.machines.get? allocated.name = some machine ∧
      ((runs Setup.quiet.start poweringOn).2.job 1).boards = some boards ∧ boards.Nonempty ∧
      ∀ b ∈ boards, Locatable (runs Setup.quiet.start poweringOn).2 machine 1 b := by
  have h : ((system Setup.quiet).restrict fun t op => op.Alters Undisturbed t).Reachable
      (runs Setup.quiet.start poweringOn) := by
    apply reachable_runs (.start rfl)
    refine ⟨fun _ _ _ hold => ?_, trivial, trivial⟩
    cases hold
  have hlive : 1 ∈ (runs Setup.quiet.start poweringOn).2.jobs := by decide +kernel
  have hsome : ((runs Setup.quiet.start poweringOn).2.job 1).allocatedMachine.isSome := by
    decide +kernel
  obtain ⟨allocated, hallocated⟩ := Option.isSome_iff_exists.mp hsome
  exact ⟨allocated, jobs_locatable h hlive hallocated⟩

def retagged : Machines where
  dict := Dict.empty.set "m" (.ofBoard "m" {"other"} "bmp" "board")
  named name machine h := by
    rw [Dict.get?_set] at h
    split at h
    · next hn =>
      cases h
      exact hn
    · cases h

/-- The machine is given another tag while a job is on it. -/
def retagging : List Operation := poweringOn ++ [.setMachines retagged]

/-- The job is live, on the machine that is registered, and is not found there. -/
theorem retagging_not_locatable :
    (system Setup.quiet).Reachable (runs Setup.quiet.start retagging) ∧
      ∃ allocated machine boards b, 1 ∈ (runs Setup.quiet.start retagging).2.jobs ∧
        ((runs Setup.quiet.start retagging).2.job 1).allocatedMachine = some allocated ∧
        (runs Setup.quiet.start retagging).2.machines.get? allocated.name = some machine ∧
        ((runs Setup.quiet.start retagging).2.job 1).boards = some boards ∧ b ∈ boards ∧
        jobForLocation (runs Setup.quiet.start retagging).2 machine b
          (runs Setup.quiet.start retagging).2.jobs = .ok none := by
  have hfound : (((runs Setup.quiet.start retagging).2.job 1).allocatedMachine.any fun allocated =>
      ((runs Setup.quiet.start retagging).2.machines.get? allocated.name).any fun machine =>
        ((runs Setup.quiet.start retagging).2.job 1).boards.any fun boards =>
          decide ((0, 0, 0) ∈ boards ∧ jobForLocation (runs Setup.quiet.start retagging).2 machine
            (0, 0, 0) (runs Setup.quiet.start retagging).2.jobs = .ok none)) = true := by
    decide +kernel
  refine ⟨.next (reachable_poweringOn .quiet) rfl, ?_⟩
  obtain ⟨allocated, hallocated, hfound⟩ := (Option.any_eq_true _ _).mp hfound
  obtain ⟨machine, hget, hfound⟩ := (Option.any_eq_true _ _).mp hfound
  obtain ⟨boards, hboards, hfound⟩ := (Option.any_eq_true _ _).mp hfound
  obtain ⟨hb, hnone⟩ := of_decide_eq_true hfound
  exact ⟨allocated, machine, boards, (0, 0, 0), by decide +kernel, hallocated, hget, hboards, hb,
    hnone⟩

end SpallocServer.Controller
