import SpallocServer.Controller.History

namespace SpallocServer.Controller

open Foundation Prog JobQueue

variable {c c' : Controller} {t : JobQueue × Controller} {id : ℕ}

structure JobStateTuple where
  state : JobState
  power : Option Bool
  keepalive : Option ℚ
  reason : Option String
  startTime : Option ℚ
  keepalivehost : Option String

structure JobMachineInfoTuple where
  width : Option ℤ
  height : Option ℤ
  connections : Option (Dict (ℤ × ℤ) String)
  machineName : Option String
  boards : Option (Finset Board)

/-- The job does not exist, or has no boards yet. -/
def JobMachineInfoTuple.nothing : JobMachineInfoTuple := ⟨none, none, none, none, none⟩

/-- The part of `get_job_state` that reads. -/
def jobState (c : Controller) (id : ℕ) : JobStateTuple :=
  if id ∈ c.jobs then
    ⟨(c.job id).state, (c.job id).power, (c.job id).keepalive.map (·.keepalive), none,
      some (c.job id).startTime, (c.job id).lasthost⟩
  else
    match c.retiredJobs.get? id with
    | some reason => ⟨.destroyed, none, none, reason, none, none⟩
    | none => ⟨.unknown, none, none, none, none, none⟩

def getJobState (clienthost : Option String) (id : ℕ) : Prog Error Controller JobStateTuple := do
  jobKeepalive clienthost id
  let c ← state
  return c.jobState id

/-- The part of `get_job_machine_info` that reads. -/
def jobMachineInfo (c : Controller) (id : ℕ) : Except Error JobMachineInfoTuple :=
  if id ∈ c.jobs ∧ (c.job id).boards ≠ none then
    match (c.job id).allocatedMachine with
    | none => .error .attributeError
    | some machine => .ok ⟨(c.job id).width, (c.job id).height, (c.job id).connections,
        some machine.name, (c.job id).boards⟩
  else .ok .nothing

def getJobMachineInfo (clienthost : Option String) (id : ℕ) :
    Prog Error Controller JobMachineInfoTuple := do
  jobKeepalive clienthost id
  let c ← state
  ofExcept (c.jobMachineInfo id)

theorem jobKeepalive_run (host : Option String) (id : ℕ) (t : JobQueue × Controller) :
    (jobKeepalive host id).run t.2 = (.ok (), (next t (.jobKeepalive host id)).2) := by
  have hreturns : wp (jobKeepalive host id) (fun _ _ => True) (fun _ _ => False) t.2 := by
    simp only [jobKeepalive, wp_bind, wp_state]
    split
    · simp only [updateKeepalive, wp_bind, wp_update, wp_state]
      unfold aliveUntil
      split
      · trivial
      · simp only [timestamp, wp_bind, wp_state, wp_update, wp_pure]
    · trivial
  obtain ⟨_, c', hrun, -⟩ := wp_returns hreturns
  have hnext : (next t (.jobKeepalive host id)).2 = ((jobKeepalive host id).run t.2).2 := rfl
  rw [hnext, hrun]

theorem getJobState_run (host : Option String) (id : ℕ) (t : JobQueue × Controller) :
    (getJobState host id).run t.2 =
      (.ok ((next t (.jobKeepalive host id)).2.jobState id), (next t (.jobKeepalive host id)).2) := by
  unfold getJobState
  rw [run_bind, jobKeepalive_run]
  rfl

theorem getJobMachineInfo_run (host : Option String) (id : ℕ) (t : JobQueue × Controller) :
    (getJobMachineInfo host id).run t.2 =
      ((next t (.jobKeepalive host id)).2.jobMachineInfo id,
        (next t (.jobKeepalive host id)).2) := by
  unfold getJobMachineInfo
  rw [run_bind, jobKeepalive_run]
  rfl

def Working (c : Controller) : Prop :=
  ∀ id, (c.job id).state ≠ .unknown ∧ (c.job id).state ≠ .destroyed

theorem Deed.working {d : Deed} (hd : d.does c c') (h : Working c) : Working c' := by
  intro k
  obtain hturn | ⟨owner, seconds, host, rfl⟩ := Deed.turn hd
  · have hk := h k
    have ht := hturn k
    generalize c.job k = job at hk ht
    generalize c'.job k = job' at ht ⊢
    cases ht with
    | power => simp
    | ready => simp
    | _ => exact hk
  · obtain rfl := hd
    rw [enlisted, job_createdJob]
    split
    · simp [Job.new]
    · exact h k

theorem reachable_working {s : Setup} (h : (system s).Reachable t) : Working t.2 := by
  apply h.invariant
  · rintro _ rfl
    exact fun _ => ⟨nofun, nofun⟩
  · rintro t op _ hr ht rfl
    exact (next_does hr op).invariant ht fun _ _ _ hI _ hd => Deed.working hd hI

theorem jobState_live (hid : id ∈ c.jobs) : c.jobState id =
    ⟨(c.job id).state, (c.job id).power, (c.job id).keepalive.map (·.keepalive), none,
      some (c.job id).startTime, (c.job id).lasthost⟩ := if_pos hid

theorem jobState_destroyed {reason : Option String} (hid : id ∉ c.jobs)
    (hr : c.retiredJobs.get? id = some reason) :
    c.jobState id = ⟨.destroyed, none, none, reason, none, none⟩ := by
  unfold jobState
  rw [if_neg hid, hr]

theorem jobState_unknown (hid : id ∉ c.jobs) (hr : c.retiredJobs.get? id = none) :
    c.jobState id = ⟨.unknown, none, none, none, none, none⟩ := by
  unfold jobState
  rw [if_neg hid, hr]

theorem jobState_gone (hid : id ∉ c.jobs) :
    (c.jobState id).state = .destroyed ∨ (c.jobState id).state = .unknown := by
  cases hr : c.retiredJobs.get? id with
  | none =>
    rw [jobState_unknown hid hr]
    exact .inr rfl
  | some reason =>
    rw [jobState_destroyed hid hr]
    exact .inl rfl

/-- What is told later, about a job whose id has been given or not. -/
structure Later (given : Prop) (v v' : JobStateTuple) : Prop where
  destroyed : v.state = .destroyed → v' = v ∨ v'.state = .unknown
  unknown : given → v.state = .unknown → v' = v
  started : v.state = .power ∨ v.state = .ready → v'.state ≠ .queued
  patience : v.state ≠ .unknown → v.state ≠ .destroyed → v'.state ≠ .unknown →
    v'.state ≠ .destroyed → v'.startTime = v.startTime ∧ v'.keepalive = v.keepalive ∧
      (v.power ≠ none → v'.power ≠ none)

theorem Later.of_gone {given : Prop} {v v' : JobStateTuple}
    (hv : v.state = .unknown ∨ v.state = .destroyed)
    (hd : v.state = .destroyed → v' = v ∨ v'.state = .unknown)
    (hu : given → v.state = .unknown → v' = v) : Later given v v' := by
  refine ⟨hd, hu, fun hs => ?_, fun hnu hnd => ?_⟩
  · obtain hv | hv := hv <;> obtain hs | hs := hs <;> rw [hv] at hs <;> cases hs
  · obtain hv | hv := hv
    · exact absurd hv hnu
    · exact absurd hv hnd

theorem reachable_ran {s : Setup} (h : (system s).Reachable t) (ops : List Operation) :
    (system s).Reachable (runs t ops) := by
  induction ops generalizing t with
  | nil => exact h
  | cons op ops ih => exact ih (.next h rfl)

theorem retired_before {s : Setup} (h : (system s).Reachable t) (ops : List Operation)
    {reason : Option String} (hid : id < t.2.nextId) (hgone : id ∉ t.2.jobs)
    (hr : (runs t ops).2.retiredJobs.get? id = some reason) :
    t.2.retiredJobs.get? id = some reason := by
  obtain ⟨events, helapses, -⟩ := runs_elapses h ops
  obtain ⟨hordered, l, hl⟩ := reachable_ordered h
  obtain ⟨-, hentries⟩ := helapses.keeping l hl
  have hsuffix := (l.after_suffix events).subset
  have hin : (id, reason) ∈ (l.after events).entries := by
    rw [← hentries]
    exact Dict.get?_eq_some.mp hr
  obtain hold | hnew := List.mem_append.mp (hsuffix hin)
  · rw [← hl.2] at hold
    exact Dict.get?_eq_some.mpr hold
  · have hended : id ∈ (runs t ops).2.jobs ++ (Journal.recorded events).map Prod.fst :=
      List.mem_append_right _ (List.mem_map_of_mem hnew)
    obtain hlive | hsince := List.mem_append.mp ((helapses.conserved hordered).subset hended)
    · exact absurd hlive hgone
    · have hle := (List.mem_range'_1.mp hsince).1
      omega

theorem jobState_later_live {s : Setup} (h : (system s).Reachable t) (ops : List Operation)
    (hid : id ∈ t.2.jobs) :
    Later (id < t.2.nextId) (t.2.jobState id) ((runs t ops).2.jobState id) := by
  obtain ⟨events, helapses, -⟩ := runs_elapses h ops
  have hworking := reachable_working h id
  have hfollows := helapses.job id ((reachable_ordered h).1.lt hid)
  rw [jobState_live hid]
  refine ⟨fun hd => absurd hd hworking.2, fun _ hu => absurd hu hworking.1, fun hs hq => ?_,
    fun _ _ hu hd => ?_⟩
  · by_cases hid' : id ∈ (runs t ops).2.jobs
    · rw [jobState_live hid'] at hq
      refine hfollows.started (fun hqueued => ?_) hq
      dsimp only at hs
      rw [hqueued] at hs
      obtain hs | hs := hs
      · cases hs
      · cases hs
    · obtain hgone | hgone := jobState_gone hid' <;> rw [hq] at hgone <;> cases hgone
  · by_cases hid' : id ∈ (runs t ops).2.jobs
    · rw [jobState_live hid']
      exact ⟨congrArg some hfollows.startTime, hfollows.patience, hfollows.powered⟩
    · obtain hgone | hgone := jobState_gone hid'
      · exact absurd hgone hd
      · exact absurd hgone hu

theorem jobState_later_gone {s : Setup} (h : (system s).Reachable t) (ops : List Operation)
    (hid : id ∉ t.2.jobs) :
    Later (id < t.2.nextId) (t.2.jobState id) ((runs t ops).2.jobState id) := by
  obtain ⟨events, helapses, -⟩ := runs_elapses h ops
  have hgone (hlt : id < t.2.nextId) : id ∉ (runs t ops).2.jobs := helapses.gone hlt hid
  cases hr : t.2.retiredJobs.get? id with
  | none =>
    rw [jobState_unknown hid hr]
    refine .of_gone (.inl rfl) nofun fun hlt _ => ?_
    apply jobState_unknown (hgone hlt)
    cases hr' : (runs t ops).2.retiredJobs.get? id with
    | none => rfl
    | some reason =>
      have hbefore := retired_before h ops hlt hid hr'
      rw [hr] at hbefore
      cases hbefore
  | some reason =>
    have hlt : id < t.2.nextId := by
      by_contra hge
      have hnone := ((reachable_roster h).fresh id (not_lt.mp hge)).2
      rw [hr] at hnone
      cases hnone
    rw [jobState_destroyed hid hr]
    refine .of_gone (.inr rfl) (fun _ => ?_) nofun
    cases hr' : (runs t ops).2.retiredJobs.get? id with
    | none =>
      rw [jobState_unknown (hgone hlt) hr']
      exact .inr rfl
    | some reason' =>
      have hbefore := retired_before h ops hlt hid hr'
      rw [hr] at hbefore
      rw [jobState_destroyed (hgone hlt) hr', Option.some.inj hbefore]
      exact .inl rfl

theorem jobState_later {s : Setup} (h : (system s).Reachable t) (ops : List Operation) (id : ℕ) :
    Later (id < t.2.nextId) (t.2.jobState id) ((runs t ops).2.jobState id) := by
  by_cases hid : id ∈ t.2.jobs
  · exact jobState_later_live h ops hid
  · exact jobState_later_gone h ops hid

theorem jobMachineInfo_ok {s : Setup} (h : (system s).Reachable t) (id : ℕ) :
    ∃ v, t.2.jobMachineInfo id = .ok v := by
  unfold jobMachineInfo
  split
  · next hplaced =>
    have hmachine : (t.2.job id).allocatedMachine ≠ none := fun hn =>
      hplaced.2 (((reachable_inPlace h).machine id).mpr hn)
    obtain ⟨machine, hmachine⟩ := Option.ne_none_iff_exists'.mp hmachine
    rw [hmachine]
    exact ⟨_, rfl⟩
  · exact ⟨_, rfl⟩

theorem jobMachineInfo_later {s : Setup} (h : (system s).Reachable t) (ops : List Operation)
    {v v' : JobMachineInfoTuple} (hv : t.2.jobMachineInfo id = .ok v)
    (hv' : (runs t ops).2.jobMachineInfo id = .ok v') (hb : v.boards ≠ none) :
    v' = v ∨ v' = .nothing ∧ id ∉ (runs t ops).2.jobs := by
  obtain ⟨events, helapses, -⟩ := runs_elapses h ops
  unfold jobMachineInfo at hv
  split at hv
  · next hplaced =>
    obtain ⟨hid, hboards⟩ := hplaced
    have hfollows := helapses.job id ((reachable_ordered h).1.lt hid)
    have hsize := hfollows.size hboards
    rw [Prod.mk.injEq] at hsize
    unfold jobMachineInfo at hv'
    rw [hfollows.boards hboards, hfollows.machine hboards, hfollows.connections hboards, hsize.1,
      hsize.2] at hv'
    by_cases hid' : id ∈ (runs t ops).2.jobs
    · rw [if_pos ⟨hid', hboards⟩] at hv'
      left
      cases hm : (t.2.job id).allocatedMachine with
      | none =>
        rw [hm] at hv
        cases hv
      | some machine =>
        rw [hm] at hv hv'
        cases hv
        cases hv'
        rfl
    · rw [if_neg fun hplaced => hid' hplaced.1] at hv'
      cases hv'
      exact .inr ⟨rfl, hid'⟩
  · cases hv
    exact absurd rfl hb

/-- A client that asks for a job twice, with any run in between, is answered both times. The
state goes forward: what is started is not queued again, what is destroyed keeps its reason until
it is forgotten, and what is forgotten is not known again. The machine, the boards and the size of
a job do not change while it is there. -/
theorem polls_advance {s : Setup} (h : (system s).Reachable t) (ops : List Operation)
    (host host' : Option String) (id : ℕ) :
    let asked := next t (.jobKeepalive host id)
    let later := runs asked ops
    ∃ v v' w w', ((getJobState host id).run t.2).1 = .ok v ∧
      ((getJobState host' id).run later.2).1 = .ok v' ∧ Later (id < t.2.nextId) v v' ∧
      ((getJobMachineInfo host id).run t.2).1 = .ok w ∧
      ((getJobMachineInfo host' id).run later.2).1 = .ok w' ∧
      (w.boards ≠ none →
        w' = w ∨ w' = .nothing ∧ (v'.state = .destroyed ∨ v'.state = .unknown)) := by
  intro asked later
  have hasked : (system s).Reachable asked := .next h rfl
  have hruns : next later (.jobKeepalive host' id) = runs asked (ops ++ [.jobKeepalive host' id]) := by
    unfold runs
    rw [List.foldl_append]
    rfl
  have hlater : (system s).Reachable (runs asked (ops ++ [.jobKeepalive host' id])) :=
    hruns ▸ .next (reachable_ran hasked ops) rfl
  have hnext : t.2.nextId ≤ asked.2.nextId := by
    obtain ⟨events, helapses, -⟩ := (next_does h (.jobKeepalive host id)).elapses
    exact helapses.nextId
  obtain ⟨w, hw⟩ := jobMachineInfo_ok hasked id
  obtain ⟨w', hw'⟩ := jobMachineInfo_ok hlater id
  have hstate := jobState_later hasked (ops ++ [.jobKeepalive host' id]) id
  refine ⟨_, _, w, w', by rw [getJobState_run], by rw [getJobState_run, hruns], ?_,
    by rw [getJobMachineInfo_run, hw], by rw [getJobMachineInfo_run, hruns, hw'], fun hb => ?_⟩
  · exact ⟨hstate.destroyed, fun hlt => hstate.unknown (hlt.trans_le hnext), hstate.started,
      hstate.patience⟩
  · exact (jobMachineInfo_later hasked _ hw hw' hb).imp_right fun hnone =>
      ⟨hnone.1, jobState_gone hnone.2⟩

theorem polls_advance_poweringOn :
    ((runs Setup.quiet.start poweringOn).2.jobState 1).state = .power ∧
      ((runs (next (runs Setup.quiet.start poweringOn) (.jobKeepalive none 1))
        [.destroyJob 1 none]).2.jobState 1).state = .destroyed ∧
      ∃ v', ((getJobState none 1).run (runs (next (runs Setup.quiet.start poweringOn)
        (.jobKeepalive none 1)) [.destroyJob 1 none]).2).1 = .ok v' ∧ v'.state ≠ .queued := by
  have hadvance := polls_advance (reachable_poweringOn .quiet) [.destroyJob 1 none] none none 1
  obtain ⟨v, v', w, w', hv, hv', hlater, -⟩ := hadvance
  have hpower : (next (runs Setup.quiet.start poweringOn) (.jobKeepalive none 1)).2.jobState 1 =
      v := by
    rw [getJobState_run] at hv
    exact Except.ok.inj hv
  have hstate : ((next (runs Setup.quiet.start poweringOn)
      (.jobKeepalive none 1)).2.jobState 1).state = .power := by decide +kernel
  rw [hpower] at hstate
  exact ⟨by decide +kernel, by decide +kernel, v', hv', hlater.started (.inl hstate)⟩

end SpallocServer.Controller
