import SpallocServer.JobQueue.Correspondence
import SpallocServer.Controller.Rules

namespace SpallocServer.Controller

open Foundation Prog JobQueue

variable {q q' : JobQueue} {c c' : Controller} {t : JobQueue × Controller} {id k : ℕ}
  {debt : ℕ → ℕ} {depth : ℤ} {lost : Prop}

/-- Requests are with BMP controllers that exist. A job waits for its requests, and for `debt`
more of them, which are completed but not counted down. -/
structure Counted (debt : ℕ → ℕ) (c : Controller) : Prop where
  known : ∀ name controllers, c.bmpControllers.get? name = some controllers →
    ∀ b ∈ controllers.values, b < c.nextBmp
  idle : ∀ b, c.nextBmp ≤ b → (c.bmp b).requests = []
  count : ∀ id, (c.job id).bmpRequestsUntilReady = c.outstanding id + debt id

theorem Counted.nonneg (h : Counted debt c) (id : ℕ) : 0 ≤ (c.job id).bmpRequestsUntilReady := by
  rw [h.count]
  omega

theorem Counted.congr (h : Counted debt c) (hc : c'.bmpControllers = c.bmpControllers)
    (hb : ∀ b, (c'.bmp b).requests = (c.bmp b).requests) (hn : c'.nextBmp = c.nextBmp)
    (hj : ∀ k, (c'.job k).bmpRequestsUntilReady = (c.job k).bmpRequestsUntilReady) :
    Counted debt c' := by
  refine ⟨?_, ?_, fun id => ?_⟩
  · rw [hc, hn]
    exact h.known
  · rw [hn]
    exact fun b hlt => (hb b).trans (h.idle b hlt)
  · rw [hj, h.count]
    unfold outstanding
    rw [hn]
    simp only [hb]

theorem Counted.rewrites (h : Counted debt c) (hr : Rewrites id c c')
    (hw : (c'.job id).bmpRequestsUntilReady = (c.job id).bmpRequestsUntilReady) :
    Counted debt c' := by
  apply h.congr hr.bmpControllers (fun b => by rw [hr.bmp]) hr.nextBmp
  intro k
  by_cases hk : k = id
  · rw [hk, hw]
  · rw [hr.job k hk]

theorem sent_lt {commands : Dict ℕ AtomicRequests} {machine : Configuration.Machine}
    {controllers : Dict (ℤ × ℤ) ℕ} {boards : Finset Board} (h : Counted debt c)
    (hc : c.CommandsOf id commands machine controllers boards) :
    ∀ p ∈ commands.entries, p.1 < c.nextBmp ∧ p.2.onDone = id := by
  intro p hp
  have hget : commands.get? p.1 = some p.2 := Dict.get?_eq_some.mpr hp
  exact ⟨h.known _ _ hc.wired _ (hc.addressed.controller _ _ hget),
    hc.addressed.onDone _ _ hget⟩

theorem Counted.commanded {commands : Dict ℕ AtomicRequests} {machine : Configuration.Machine}
    {controllers : Dict (ℤ × ℤ) ℕ} {boards : Finset Board} (h : Counted debt c)
    (hc : c.CommandsOf id commands machine controllers boards) (power : Bool) :
    Counted debt (c.commanded id power commands.entries) := by
  have hlt := sent_lt h hc
  have ht : Touches id c (c.commanded id power commands.entries) := touches_commanded power _
  refine ⟨?_, fun b hb => ?_, fun k => ?_⟩
  · rw [ht.bmpControllers, ht.nextBmp]
    exact h.known
  · rw [ht.nextBmp] at hb
    change (c.bmp b).requests ++ (commands.entries.filter (·.1 = b)).map Prod.snd = []
    rw [h.idle b hb, List.nil_append, List.map_eq_nil_iff, List.filter_eq_nil_iff]
    intro p hp he
    have hp' := (hlt p hp).1
    rw [of_decide_eq_true he] at hp'
    exact absurd hb (Nat.not_le.mpr hp')
  · have hsent : (c.commanded id power commands.entries).outstanding k =
        (c.sent commands.entries).outstanding k := rfl
    rw [hsent, outstanding_sent c hlt, job_commanded]
    have hk := h.count k
    by_cases hid : k = id
    · subst hid
      rw [if_pos rfl, if_pos rfl]
      dsimp only
      omega
    · rw [if_neg hid, if_neg hid, hk]
      omega

/-- A job is in a queue, or has boards that are ready or are being powered. A job that was not
accepted may be lost to the job queue. -/
inductive Phase (lost : Prop) (q : JobQueue) (job : Job) (id : ℕ) : Prop
  | queued (j : ℕ) (known : q.jobs.get? id = some j) (pending : (q.job j).pending = true)
    (boards : job.boards = none) (state : job.state = .queued)
    (idle : job.bmpRequestsUntilReady = 0)
  | placed (j : ℕ) (known : q.jobs.get? id = some j) (placed : (q.job j).pending = false)
    (boards : ∃ boards, job.boards = some boards ∧ boards.Nonempty)
    (state : job.state = .ready ∧ job.bmpRequestsUntilReady = 0 ∨
      job.state = .power ∧ 0 < job.bmpRequestsUntilReady)
  | stranded (allowed : lost) (unknown : q.jobs.get? id = none) (boards : job.boards = none)
    (idle : job.bmpRequestsUntilReady = 0)

theorem Phase.congr {job job' : Job} (h : Phase lost q job id)
    (hq : q'.jobs.get? id = q.jobs.get? id)
    (hp : ∀ j, q.jobs.get? id = some j → (q'.job j).pending = (q.job j).pending)
    (hb : job'.boards = job.boards) (hs : job'.state = job.state)
    (hn : job'.bmpRequestsUntilReady = job.bmpRequestsUntilReady) : Phase lost q' job' id := by
  cases h with
  | queued j hj hpending hboards hstate hidle =>
    exact .queued j (hq.trans hj) ((hp j hj).trans hpending) (hb.trans hboards)
      (hs.trans hstate) (hn.trans hidle)
  | placed j hj hplaced hboards hstate =>
    refine .placed j (hq.trans hj) ((hp j hj).trans hplaced) (hb ▸ hboards) ?_
    rwa [hs, hn]
  | stranded hlost hnone hboards hidle =>
    exact .stranded hlost (hq.trans hnone) (hb.trans hboards) (hn.trans hidle)

/-- The job queue and the controller agree about every job that is there. -/
structure Tracked (lost : Prop) (debt : ℕ → ℕ) (depth : ℤ) (t : JobQueue × Controller) : Prop
    extends Counted debt t.2 where
  queue : ∀ j, (t.1.job j).pending = true →
    t.1.jobs.get? (t.1.job j).id = some j ∧ (t.1.job j).id ∈ t.2.jobs
  ids : ∀ id j, t.1.jobs.get? id = some j → (t.1.job j).id = id ∧ j < t.1.nextJob
  fresh : ∀ id, t.2.nextId ≤ id → id ∉ t.2.jobs ∧ t.2.retiredJobs.get? id = none ∧
    (t.2.job id).bmpRequestsUntilReady = 0
  live : ∀ id ∈ t.2.jobs, Phase lost t.1 (t.2.job id) id
  gone : ∀ id, (t.2.retiredJobs.get? id).isSome → id ∉ t.2.jobs
  postpone : t.1.postpone = depth

theorem Tracked.congr (h : Tracked lost debt depth (q, c)) (hc : Counted debt c')
    (hjobs : q'.jobs = q.jobs) (hjob : q'.job = q.job) (hnext : q'.nextJob = q.nextJob)
    (hpost : q'.postpone = q.postpone) (hn : c'.nextId = c.nextId)
    (hj : c'.jobs = c.jobs) (hr : c'.retiredJobs = c.retiredJobs)
    (hphase : ∀ k, (c'.job k).boards = (c.job k).boards ∧ (c'.job k).state = (c.job k).state ∧
      (c'.job k).bmpRequestsUntilReady = (c.job k).bmpRequestsUntilReady) :
    Tracked lost debt depth (q', c') := by
  refine ⟨hc, ?_, ?_, ?_, ?_, ?_, hpost.trans h.postpone⟩
  · dsimp only
    rw [hjob, hjobs, hj]
    exact h.queue
  · dsimp only
    rw [hjob, hjobs, hnext]
    exact h.ids
  · dsimp only
    rw [hn, hj, hr]
    intro id hid
    obtain ⟨hnew, hkept, hidle⟩ := h.fresh id hid
    exact ⟨hnew, hkept, (hphase id).2.2.trans hidle⟩
  · dsimp only
    rw [hj]
    intro id hid
    obtain ⟨hb, hs, hw⟩ := hphase id
    apply (h.live id hid).congr _ _ hb hs hw
    · rw [hjobs]
    · intro j _
      rw [hjob]
  · dsimp only
    rw [hr, hj]
    exact h.gone

theorem Tracked.queue_congr (h : Tracked lost debt depth (q, c)) (hjobs : q'.jobs = q.jobs)
    (hjob : q'.job = q.job) (hnext : q'.nextJob = q.nextJob) (hpost : q'.postpone = q.postpone) :
    Tracked lost debt depth (q', c) :=
  h.congr h.toCounted hjobs hjob hnext hpost rfl rfl rfl fun _ => ⟨rfl, rfl, rfl⟩

theorem Tracked.inj (h : Tracked lost debt depth (q, c)) {i id j : ℕ} (hi : q.jobs.get? i = some j)
    (hid : q.jobs.get? id = some j) : i = id :=
  (h.ids i j hi).1.symm.trans (h.ids id j hid).1

theorem Phase.of_pending {job : Job} {j : ℕ} (h : Phase lost q job id) (hj : q.jobs.get? id = some j)
    (hp : (q.job j).pending = true) : job.boards = none := by
  cases h with
  | queued _ _ _ hb _ _ => exact hb
  | placed i hi hplaced _ _ =>
    obtain rfl := Option.some.inj (hj.symm.trans hi)
    rw [hp] at hplaced
    cases hplaced
  | stranded _ _ hb _ => exact hb

theorem Phase.commanded {commands : Dict ℕ AtomicRequests} {machine : Configuration.Machine}
    {controllers : Dict (ℤ × ℤ) ℕ} {boards : Finset Board} {j : ℕ} (h : Counted debt c)
    (hc : c.CommandsOf id commands machine controllers boards) (hb : boards.Nonempty)
    (hj : q.jobs.get? id = some j) (hp : (q.job j).pending = false) (power : Bool) :
    Phase lost q ((c.commanded id power commands.entries).job id) id := by
  have hlen := List.length_pos_iff.mpr (hc.sent hb)
  have hnonneg := h.nonneg id
  rw [job_commanded, if_pos rfl]
  refine .placed j hj hp ⟨boards, hc.held, hb⟩ (.inr ⟨rfl, ?_⟩)
  dsimp only
  omega

theorem Tracked.touched (h : Tracked lost debt depth (q, c)) (ht : Touches id c c')
    (hc : Counted debt c') (hid : id < c.nextId)
    (hphase : id ∈ c.jobs → Phase lost q (c'.job id) id) : Tracked lost debt depth (q, c') := by
  refine ⟨hc, ?_, h.ids, fun k hk => ?_, fun k hk => ?_, ?_, h.postpone⟩
  · dsimp only
    rw [ht.jobs]
    exact h.queue
  · dsimp only at hk ⊢
    rw [ht.nextId] at hk
    rw [ht.jobs, ht.retiredJobs, ht.job k (hid.trans_le hk).ne']
    exact h.fresh k hk
  · dsimp only at hk ⊢
    rw [ht.jobs] at hk
    by_cases hkid : k = id
    · rw [hkid] at hk ⊢
      exact hphase hk
    · rw [ht.job k hkid]
      exact h.live k hk
  · dsimp only
    rw [ht.retiredJobs, ht.jobs]
    exact h.gone

theorem Tracked.commanded {commands : Dict ℕ AtomicRequests} {machine : Configuration.Machine}
    {controllers : Dict (ℤ × ℤ) ℕ} {boards : Finset Board} (h : Tracked lost debt depth (q, c))
    (hc : c.CommandsOf id commands machine controllers boards) (power : Bool)
    (hid : id < c.nextId)
    (hphase : id ∈ c.jobs → Phase lost q ((c.commanded id power commands.entries).job id) id) :
    Tracked lost debt depth (q, c.commanded id power commands.entries) :=
  h.touched (touches_commanded power commands.entries) (h.toCounted.commanded hc power) hid hphase

theorem Tracked.lt (h : Tracked lost debt depth (q, c)) (hid : id ∈ c.jobs) : id < c.nextId := by
  by_contra hn
  exact (h.fresh id (Nat.not_lt.mp hn)).1 hid

theorem tracked_power {power : Bool} {linkEnable : Option Bool} (h : Tracked lost debt depth (q, c))
    (hid : id ∈ c.jobs) (hb : (c.job id).boards ≠ none) :
    wp (setJobPowerAndLinks id power linkEnable) (fun _ c' => Tracked lost debt depth (q, c'))
      (fun _ _ => True) c := by
  apply setJobPowerAndLinks_wp
  · intro commands hcommands
    obtain ⟨machine, controllers, boards, hc⟩ := frameCommands_spec hcommands
    apply h.commanded hc power (h.lt hid)
    intro _
    cases h.live id hid with
    | queued _ _ _ hboards _ _ => exact absurd hboards hb
    | stranded _ _ hboards _ => exact absurd hboards hb
    | placed j hj hp hboards _ =>
      obtain ⟨boards', hboards', hne⟩ := hboards
      obtain rfl := Option.some.inj (hc.held.symm.trans hboards')
      exact .commanded h.toCounted hc hne hj hp power
  · exact fun _ _ => trivial
  · exact fun _ _ _ _ _ => trivial

theorem Tracked.refreshed (h : Tracked lost debt depth (q, c)) (lasthost : Option String)
    (alive : Option Keepalive) (reads : ℕ) :
    Tracked lost debt depth (q, c.refreshed id lasthost alive reads) := by
  have hphase (k : ℕ) :
      ((c.refreshed id lasthost alive reads).job k).boards = (c.job k).boards ∧
      ((c.refreshed id lasthost alive reads).job k).state = (c.job k).state ∧
      ((c.refreshed id lasthost alive reads).job k).bmpRequestsUntilReady =
        (c.job k).bmpRequestsUntilReady := by
    rw [job_refreshed]
    split
    · next hk =>
      rw [hk]
      exact ⟨rfl, rfl, rfl⟩
    · exact ⟨rfl, rfl, rfl⟩
  have hcount : Counted debt (c.refreshed id lasthost alive reads) :=
    h.toCounted.congr rfl (fun _ => rfl) rfl fun k => (hphase k).2.2
  exact h.congr hcount rfl rfl rfl rfl rfl rfl rfl hphase

theorem nonempty_of_least {boards : Finset Board} {b : Board} (h : leastBoard boards = .ok b) :
    boards.Nonempty := by
  unfold leastBoard at h
  split at h
  · next hn => exact Finset.map_nonempty.mp hn
  · cases h

theorem Tracked.placed {j m allocationId : ℕ} (h : Tracked lost debt depth (q, c))
    (hp : (q.job j).pending = true) (hr : Touches (q.job j).id c c') (hcount : Counted debt c')
    (hphase : Phase lost (q.placed j m allocationId) (c'.job (q.job j).id) (q.job j).id) :
    Tracked lost debt depth (q.placed j m allocationId, c') := by
  obtain ⟨hj, hlive⟩ := h.queue j hp
  generalize (q.job j).id = id at hj hlive hr hphase
  have hjob (i : ℕ) := job_placed q i j m allocationId
  refine ⟨hcount, fun i hi => ?_, fun k i hk => ?_, fun k hk => ?_, fun k hk => ?_, ?_,
    h.postpone⟩
  · have hij : i ≠ j := by
      rintro rfl
      dsimp only at hi
      rw [hjob, if_pos rfl] at hi
      cases hi
    dsimp only at hi ⊢
    rw [hjob, if_neg hij] at hi ⊢
    rw [hr.jobs]
    exact h.queue i hi
  · obtain ⟨hi, hlt⟩ := h.ids k i hk
    refine ⟨?_, hlt⟩
    dsimp only
    rw [hjob]
    split <;> exact hi
  · dsimp only at hk ⊢
    rw [hr.nextId] at hk
    rw [hr.jobs, hr.retiredJobs, hr.job k]
    · exact h.fresh k hk
    · rintro rfl
      exact absurd (h.lt hlive) (Nat.not_lt.mpr hk)
  · by_cases hkid : k = id
    · rw [hkid]
      exact hphase
    · dsimp only at hk ⊢
      rw [hr.jobs] at hk
      rw [hr.job k hkid]
      apply (h.live k hk).congr _ _ rfl rfl rfl
      · rfl
      · intro i hi
        rw [hjob, if_neg]
        rintro rfl
        exact hkid (h.inj hi hj)
  · dsimp only
    rw [hr.retiredJobs, hr.jobs]
    exact h.gone

theorem Tracked.retired_fresh (h : Tracked lost debt depth (q, c)) (hlive : id ∈ c.jobs)
    {reason : Option String} (hk : c.nextId ≤ k) : k ∉ (c.retired id reason).jobs ∧
      (c.retired id reason).retiredJobs.get? k = none ∧
      ((c.retired id reason).job k).bmpRequestsUntilReady = 0 := by
  obtain ⟨hnew, hkept, hidle⟩ := h.fresh k hk
  refine ⟨fun hin => hnew (mem_retired.mp hin).1, ?_, hidle⟩
  by_contra hsome
  obtain rfl | hold := retired_gone (Option.isSome_iff_ne_none.mpr hsome)
  · exact hnew hlive
  · rw [hkept] at hold
    cases hold

theorem Tracked.retired {j : ℕ} (h : Tracked lost debt depth (q, c)) (hlive : id ∈ c.jobs)
    (hj : q.jobs.get? id = some j) (hp : (q.job j).pending = false) (reason : Option String) :
    Tracked lost debt depth (q, c.retired id reason) := by
  refine ⟨h.toCounted.congr rfl (fun _ => rfl) rfl fun _ => rfl, fun i hi => ?_, h.ids, fun k hk => ?_,
    fun k hk => ?_, fun k hk => ?_, h.postpone⟩
  · obtain ⟨hget, hlive⟩ := h.queue i hi
    refine ⟨hget, mem_retired.mpr ⟨hlive, ?_⟩⟩
    rintro he
    dsimp only at he hget hi
    rw [he] at hget
    obtain rfl := Option.some.inj (hj.symm.trans hget)
    rw [hp] at hi
    cases hi
  · exact h.retired_fresh hlive hk
  · exact h.live k (mem_retired.mp hk).1
  · intro hin
    obtain ⟨hlive, hne⟩ := mem_retired.mp hin
    obtain hk | hk := retired_gone hk
    · exact hne hk
    · exact h.gone k hk hlive

theorem Tracked.cancelled {j : ℕ} (h : Tracked lost debt depth (q, c)) (hp : (q.job j).pending = true)
    (reason : Option String) :
    Tracked lost debt depth ((q.withdrawn j).dropped (q.job j).id, c.retired (q.job j).id reason) := by
  obtain ⟨hj, hlive⟩ := h.queue j hp
  generalize hid : (q.job j).id = id at hj hlive
  have hjob (i : ℕ) : ((q.withdrawn j).dropped id).job i =
      if i = j then { q.job i with pending := false } else q.job i := job_withdrawn q i j
  have hget (k : ℕ) (hne : k ≠ id) :
      ((q.withdrawn j).dropped id).jobs.get? k = q.jobs.get? k :=
    Dict.get?_erase_ne _ (Ne.symm hne)
  have hother (k i : ℕ) (hk : q.jobs.get? k = some i) (hne : k ≠ id) :
      ((q.withdrawn j).dropped id).job i = q.job i := by
    rw [hjob, if_neg]
    rintro rfl
    exact hne (h.inj hk hj)
  refine ⟨h.toCounted.congr rfl (fun _ => rfl) rfl fun _ => rfl, fun i hi => ?_, fun k i hk => ?_,
    fun k hk => ?_, fun k hk => ?_, fun k hk => ?_, h.postpone⟩
  · have hij : i ≠ j := by
      rintro rfl
      dsimp only at hi
      rw [hjob, if_pos rfl] at hi
      cases hi
    dsimp only at hi ⊢
    rw [hjob, if_neg hij] at hi ⊢
    obtain ⟨hi', hlive⟩ := h.queue i hi
    have hne : (q.job i).id ≠ id := by
      intro he
      dsimp only at hi'
      rw [he] at hi'
      exact hij (Option.some.inj (hi'.symm.trans hj))
    exact ⟨(hget _ hne).trans hi', mem_retired.mpr ⟨hlive, hne⟩⟩
  · obtain ⟨hne, hk'⟩ := dropped_get hk
    obtain ⟨hi, hlt⟩ := h.ids k i hk'
    exact ⟨by rw [hother k i hk' (Ne.symm hne)]; exact hi, hlt⟩
  · exact h.retired_fresh hlive hk
  · obtain ⟨hlive, hne⟩ := mem_retired.mp hk
    apply (h.live k hlive).congr (hget k hne) _ rfl rfl rfl
    intro i hi
    rw [hother k i hi hne]
  · intro hin
    obtain ⟨hlive, hne⟩ := mem_retired.mp hin
    obtain hk | hk := retired_gone hk
    · exact hne hk
    · exact h.gone k hk hlive

theorem Tracked.dropped (h : Tracked lost debt depth (q, c)) (hid : id ∉ c.jobs) :
    Tracked lost debt depth (q.dropped id, c) := by
  have hne (k : ℕ) (hk : k ∈ c.jobs) : id ≠ k := by
    rintro rfl
    exact hid hk
  refine ⟨h.toCounted, fun i hi => ?_, fun k i hk => ?_, h.fresh, fun k hk => ?_, h.gone,
    h.postpone⟩
  · obtain ⟨hget, hlive⟩ := h.queue i hi
    refine ⟨?_, hlive⟩
    change (q.jobs.erase id).get? (q.job i).id = some i
    rw [Dict.get?_erase_ne _ (hne _ hlive)]
    exact hget
  · exact h.ids k i (dropped_get hk).2
  · exact (h.live k hk).congr (Dict.get?_erase_ne _ (hne k hk)) (fun _ _ => rfl) rfl rfl rfl

theorem tracked_cancel {j : ℕ} (h : Tracked lost debt depth (q, c)) (hp : (q.job j).pending = true)
    (reason : Option String) :
    wp (onCancel (q.job j).id reason)
      (fun _ c' => Tracked lost debt depth ((q.withdrawn j).dropped (q.job j).id, c') ∧
        (q.job j).id ∉ c'.jobs) (fun _ _ => True) c := by
  apply teardownJob_wp
  · exact fun _ => trivial
  · exact fun _ _ => ⟨h.cancelled hp _, fun hin => (mem_retired.mp hin).2 rfl⟩
  · intro hlive hb
    exact absurd ((h.live _ hlive).of_pending (h.queue j hp).1 hp) hb

theorem tracked_free {j : ℕ} (h : Tracked lost debt depth (q, c)) (hj : q.jobs.get? id = some j)
    (hp : (q.job j).pending = false) (reason : Option String) :
    wp (onFree id reason) (fun _ c' => Tracked lost debt depth (q, c') ∧ id ∉ c'.jobs) (fun _ _ => True)
      c := by
  apply onFree_wp
  · exact fun _ => trivial
  · exact fun _ _ => trivial
  intro machine _ _
  have h' : Tracked lost debt depth (q, { c with changedMachines := insert machine.name c.changedMachines }) :=
    h.congr (h.toCounted.congr rfl (fun _ => rfl) rfl fun _ => rfl) rfl rfl rfl rfl rfl rfl rfl
      fun _ => ⟨rfl, rfl, rfl⟩
  have hgone : id ∉ (Controller.retired
      { c with changedMachines := insert machine.name c.changedMachines } id reason).jobs :=
    fun hin => (mem_retired.mp hin).2 rfl
  apply teardownJob_wp
  · exact fun _ => trivial
  · exact fun hlive _ => ⟨h'.retired hlive hj hp reason, hgone⟩
  · intro hlive _
    apply setJobPowerAndLinks_wp
    · intro commands hcommands
      obtain ⟨_, _, _, hc⟩ := frameCommands_spec hcommands
      exact ⟨(h'.retired hlive hj hp reason).commanded hc false (h.lt hlive)
        fun hin => absurd hin hgone, hgone⟩
    · exact fun _ _ => trivial
    · exact fun _ _ _ _ _ => trivial

theorem tracked_allocate {j m : ℕ} {al : Allocation} {a : Allocator} {name : String}
    (h : Tracked lost debt depth (q, c)) (hp : (q.job j).pending = true) :
    wp (onAllocate (q.job j).id name al.boards al.periphery al.torus)
      (fun _ c' => Tracked lost debt depth ((q.setAllocator m a).placed j m al.id, c')) (fun _ _ => True)
      c := by
  have h' : Tracked lost debt depth (q.setAllocator m a, c) := h.queue_congr rfl rfl rfl rfl
  apply onAllocate_wp
  · exact fun _ => trivial
  · exact fun _ => trivial
  · exact fun _ _ _ _ _ => trivial
  · exact fun _ _ _ _ _ => trivial
  · exact fun _ _ _ _ _ _ _ _ _ => trivial
  intro machine origin top connections c' hlooked hassigned
  have hcount : Counted debt c' := h.toCounted.rewrites hassigned.toRewrites hassigned.waits
  apply setJobPowerAndLinks_wp
  · intro commands hcommands
    obtain ⟨machine', controllers, boards, hc⟩ := frameCommands_spec hcommands
    have hboards : boards = al.boards :=
      Option.some.inj (hc.held.symm.trans hassigned.boards)
    have hne : boards.Nonempty := hboards ▸ nonempty_of_least hlooked.least
    have hplaced : ((((q.setAllocator m a).placed j m al.id).job j).pending) = false := by
      rw [job_placed, if_pos rfl]
    apply h'.placed hp (hassigned.toTouches.trans (touches_commanded true _))
      (hcount.commanded hc true)
    exact Phase.commanded (q := (q.setAllocator m a).placed j m al.id) hcount hc hne
      (h.queue j hp).1 hplaced true
  · exact fun _ _ => trivial
  · exact fun _ _ _ _ _ => trivial

theorem tracked_steps (lost : Prop) (debt : ℕ → ℕ) (depth : ℤ) :
    Steps (Tracked lost debt depth) (Tracked lost debt depth) fun _ _ => True where
  alloc q c m j rest h _ hp := by
    apply (wp_trivial _).mono _ fun _ _ _ => trivial
    intro res a _
    cases res with
    | none => exact h.queue_congr rfl rfl rfl rfl
    | some al => exact tracked_allocate h hp
  skip _ _ _ _ _ h _ _ := h.queue_congr rfl rfl rfl rfl
  offer _ _ _ _ h _ _ _ := h.queue_congr rfl rfl rfl rfl
  cancel _ _ _ reason h hp :=
    (tracked_cancel h hp reason).mono (fun _ _ hc => hc.1) fun _ _ he => he
  freed _ _ _ _ reason h _ hj hp :=
    (tracked_free h hj hp reason).mono (fun _ _ hc => hc.1) fun _ _ he => he
  read _ _ _ h := h.congr (h.toCounted.congr rfl (fun _ => rfl) rfl fun _ => rfl) rfl rfl rfl rfl rfl rfl rfl
    fun _ => ⟨rfl, rfl, rfl⟩
  refresh _ _ _ lasthost alive reads h := h.refreshed lasthost alive reads
  power _ _ _ _ _ h hid hb := tracked_power h hid hb
  free _ _ _ h _ := by
    apply (wp_trivial _).mono _ fun _ _ _ => trivial
    exact fun _ _ _ => h.queue_congr rfl rfl rfl rfl

theorem Tracked.indexed (h : Tracked lost debt depth t) : Indexed t.1 :=
  ⟨fun j hp => (h.queue j hp).1, fun id j hj => (h.ids id j hj).1⟩

theorem tracked_rules (lost : Prop) (debt : ℕ → ℕ) (depth : ℤ) :
    JobRules (Tracked lost debt depth) fun _ _ => True where
  toSteps := tracked_steps lost debt depth
  indexed _ h := h.indexed
  lost _ _ _ _ _ _ := trivial

end SpallocServer.Controller
