import SpallocServer.Controller.Roster

namespace SpallocServer.Controller

open Foundation Prog JobQueue Allocator

variable {q q' : JobQueue} {c c' : Controller} {t t' : JobQueue × Controller} {id j m : ℕ}
  {depth : ℤ} {name : String} {lost : Prop} {accepted : Configuration.Machine → Prop}
  {permitted : Configuration.Machine → JobQueue × Controller → Prop}
  {P : JobQueue × Controller → Prop}

def Job.placement (job : Job) : Option Configuration.Machine × Option (Finset Board) ×
    Option (Finset BoardLink) × Option (Dict (ℤ × ℤ) String) :=
  (job.allocatedMachine, job.boards, job.periphery, job.connections)

def Job.size (job : Job) : Option ℤ × Option ℤ := (job.width, job.height)

theorem setJobPowerAndLinks_field {β : Type} (f : Job → β)
    (hf : ∀ job state power n,
      f { job with state := state, power := power, bmpRequestsUntilReady := n } = f job)
    {power : Bool} {linkEnable : Option Bool} :
    wp (setJobPowerAndLinks id power linkEnable) (fun _ c' => ∀ k, f (c'.job k) = f (c.job k))
      (fun _ c' => ∀ k, f (c'.job k) = f (c.job k)) c := by
  apply setJobPowerAndLinks_wp
  · intro commands _ k
    rw [job_commanded]
    split
    · next hk =>
      rw [hk]
      exact hf _ _ _ _
    · rfl
  · exact fun _ _ _ => rfl
  · intro commands _ _ _ _ k
    show f ((c.setJob id _).job k) = f (c.job k)
    rw [job_setJob]
    split
    · next hk =>
      rw [hk]
      exact hf (c.job id) (c.job id).state (c.job id).power _
    · rfl

theorem setJobPowerAndLinks_placement {power : Bool} {linkEnable : Option Bool} :
    wp (setJobPowerAndLinks id power linkEnable)
      (fun _ c' => ∀ k, (c'.job k).placement = (c.job k).placement)
      (fun _ c' => ∀ k, (c'.job k).placement = (c.job k).placement) c :=
  setJobPowerAndLinks_field Job.placement fun _ _ _ _ => rfl

theorem setJobPowerAndLinks_size {power : Bool} {linkEnable : Option Bool} :
    wp (setJobPowerAndLinks id power linkEnable)
      (fun _ c' => ∀ k, (c'.job k).size = (c.job k).size)
      (fun _ c' => ∀ k, (c'.job k).size = (c.job k).size) c :=
  setJobPowerAndLinks_field Job.size fun _ _ _ _ => rfl

structure Describes (machine : Configuration.Machine) (m : JobQueue.Machine) : Prop where
  tags : m.tags = machine.tags
  width : m.allocator.width = machine.width
  height : m.allocator.height = machine.height
  deadBoards : m.allocator.deadBoards = machine.deadBoards
  deadLinks : m.allocator.deadLinks = machine.deadLinks

/-- The same machines are in the three tables, with a BMP controller for each of their frames. -/
structure Agreed (t : JobQueue × Controller) : Prop where
  named : ∀ name machine, t.2.machines.get? name = some machine → machine.name = name
  queued : ∀ name, (t.1.machines.get? name).isSome ↔ (t.2.machines.get? name).isSome
  described : ∀ name machine m, t.2.machines.get? name = some machine →
    t.1.machines.get? name = some m → Describes machine (t.1.machine m)
  wired : ∀ name, (t.2.bmpControllers.get? name).isSome ↔ (t.2.machines.get? name).isSome
  framed : ∀ name machine controllers, t.2.machines.get? name = some machine →
    t.2.bmpControllers.get? name = some controllers →
    ∀ frame, (controllers.get? frame).isSome ↔ (machine.bmpIps.get? frame).isSome

/-- The tables, and what jobs are told, are as before. -/
structure SameView (t t' : JobQueue × Controller) : Prop where
  queued : ∀ name, t'.1.machines.get? name = t.1.machines.get? name
  queuedJobs : t'.1.jobs = t.1.jobs
  queuedJob : t'.1.job = t.1.job
  tags : ∀ m, (t'.1.machine m).tags = (t.1.machine m).tags
  allocator : ∀ m, (t'.1.machine m).allocator = (t.1.machine m).allocator
  machines : ∀ name, t'.2.machines.get? name = t.2.machines.get? name
  bmpControllers : t'.2.bmpControllers = t.2.bmpControllers
  nextId : t'.2.nextId = t.2.nextId
  jobs : t'.2.jobs = t.2.jobs
  placement : ∀ k, (t'.2.job k).placement = (t.2.job k).placement
  size : ∀ k, (t'.2.job k).size = (t.2.job k).size

theorem sameView_controller (hm : c'.machines = c.machines)
    (hb : c'.bmpControllers = c.bmpControllers) (hn : c'.nextId = c.nextId)
    (hj : c'.jobs = c.jobs) (hp : ∀ k, (c'.job k).placement = (c.job k).placement)
    (hs : ∀ k, (c'.job k).size = (c.job k).size) : SameView (q, c) (q, c') :=
  ⟨fun _ => rfl, rfl, rfl, fun _ => rfl, fun _ => rfl, fun _ => by rw [hm], hb, hn, hj, hp, hs⟩

theorem Touches.sameView (ht : Touches id c c')
    (hp : ∀ k, (c'.job k).placement = (c.job k).placement)
    (hs : ∀ k, (c'.job k).size = (c.job k).size) : SameView (q, c) (q, c') :=
  sameView_controller ht.machines ht.bmpControllers ht.nextId ht.jobs hp hs

theorem sameView_setQueue (q : JobQueue) (c : Controller) (m : ℕ) (l : List ℕ) :
    SameView (q, c) (q.setQueue m l, c) := by
  refine ⟨fun _ => rfl, rfl, rfl, fun n => ?_, fun n => ?_, fun _ => rfl, rfl, rfl, rfl,
    fun _ => rfl, fun _ => rfl⟩
  all_goals
    dsimp only
    rw [machine_setQueue]
    split <;> rfl

theorem sameView_cleared (q : JobQueue) (c : Controller) : SameView (q, c) (q.cleared, c) := by
  refine ⟨fun _ => rfl, rfl, rfl, fun n => ?_, fun n => ?_, fun _ => rfl, rfl, rfl, rfl,
    fun _ => rfl, fun _ => rfl⟩
  all_goals
    dsimp only
    rw [machine_cleared]
    split <;> rfl

theorem sameView_postponed (q : JobQueue) (c : Controller) (p : ℤ) :
    SameView (q, c) ({ q with postpone := p }, c) :=
  ⟨fun _ => rfl, rfl, rfl, fun _ => rfl, fun _ => rfl, fun _ => rfl, rfl, rfl, rfl, fun _ => rfl,
    fun _ => rfl⟩

theorem sameView_uncounted (q : JobQueue) (c : Controller) (id : ℕ) :
    SameView (q, c) (q, c.uncounted id) := by
  refine sameView_controller rfl rfl rfl rfl ?_ ?_
  all_goals
    intro k
    rw [job_uncounted]
    split
    · next hk => rw [hk]; rfl
    · rfl

theorem sameView_readied (q : JobQueue) (c : Controller) (id : ℕ) :
    SameView (q, c) (q, c.readied id) := by
  refine sameView_controller rfl rfl rfl rfl ?_ ?_
  all_goals
    intro k
    rw [readied, job_setJob]
    split
    · next hk => rw [hk]; rfl
    · rfl

/-- The same, and no queue has grown. -/
structure Narrows (t t' : JobQueue × Controller) : Prop extends SameView t t' where
  nextJob : t'.1.nextJob = t.1.nextJob
  queue : ∀ m, ∀ j ∈ (t'.1.machine m).queue, j ∈ (t.1.machine m).queue

theorem SameView.narrows (h : SameView t t') (hm : t'.1.machine = t.1.machine)
    (hn : t'.1.nextJob = t.1.nextJob) : Narrows t t' :=
  ⟨h, hn, fun m j hj => by rwa [hm] at hj⟩

theorem narrows_controller (hm : c'.machines = c.machines)
    (hb : c'.bmpControllers = c.bmpControllers) (hn : c'.nextId = c.nextId)
    (hj : c'.jobs = c.jobs) (hp : ∀ k, (c'.job k).placement = (c.job k).placement)
    (hs : ∀ k, (c'.job k).size = (c.job k).size) : Narrows (q, c) (q, c') :=
  (sameView_controller hm hb hn hj hp hs).narrows rfl rfl

theorem narrows_skip {rest : List ℕ} (h : q.Head m j rest) (c : Controller) :
    Narrows (q, c) (q.setQueue m rest, c) := by
  refine ⟨sameView_setQueue q c m rest, rfl, fun n i hi => ?_⟩
  dsimp only at hi ⊢
  rw [machine_setQueue] at hi
  split at hi
  · next hn =>
    rw [hn, h.queue]
    exact List.mem_cons_of_mem j hi
  · exact hi

theorem narrows_cleared (q : JobQueue) (c : Controller) : Narrows (q, c) (q.cleared, c) := by
  refine ⟨sameView_cleared q c, rfl, fun n i hi => ?_⟩
  dsimp only at hi
  rw [machine_cleared] at hi
  split at hi
  · exact absurd hi List.not_mem_nil
  · exact hi

theorem narrows_postponed (q : JobQueue) (c : Controller) (p : ℤ) :
    Narrows (q, c) ({ q with postpone := p }, c) :=
  (sameView_postponed q c p).narrows rfl rfl

theorem narrows_moved {names names' : Dict String ℕ} {machines : Dict String Configuration.Machine}
    (hq : ∀ name, names'.get? name = names.get? name)
    (hm : ∀ name, machines.get? name = c.machines.get? name) :
    Narrows ({ q with machines := names }, c)
      ({ q with machines := names' }, { c with machines := machines }) :=
  ⟨⟨hq, rfl, rfl, fun _ => rfl, fun _ => rfl, hm, rfl, rfl, rfl, fun _ => rfl, fun _ => rfl⟩, rfl,
    fun _ _ hj => hj⟩

structure Unaffected (name : String) (t t' : JobQueue × Controller) : Prop where
  queued : t'.1.machines.get? name = t.1.machines.get? name
  allocator : ∀ m, t.1.machines.get? name = some m →
    (t'.1.machine m).allocator = (t.1.machine m).allocator
  jobs : ∀ k ∈ t'.2.jobs, k ∈ t.2.jobs
  placement : ∀ k, (t'.2.job k).placement = (t.2.job k).placement

theorem SameView.unaffected (h : SameView t t') (name : String) : Unaffected name t t' :=
  ⟨h.queued name, fun m _ => h.allocator m, fun k hk => by rwa [h.jobs] at hk, h.placement⟩

theorem unaffected_retired (q : JobQueue) (c : Controller) (id : ℕ) (reason : Option String) :
    Unaffected name (q, c) (q, c.retired id reason) :=
  ⟨rfl, fun _ _ => rfl, fun _ hk => (mem_retired.mp hk).1, fun _ => rfl⟩

theorem unaffected_freed (c : Controller) (id : ℕ) (b : Allocator)
    (hm : q.machines.get? name ≠ some m) :
    Unaffected name (q, c) ((q.dropped id).setAllocator m b, c) := by
  refine ⟨rfl, fun n hn => ?_, fun _ hk => hk, fun _ => rfl⟩
  dsimp only at hn ⊢
  rw [machine_setAllocator, if_neg]
  · rfl
  · intro heq
    rw [heq] at hn
    exact hm hn

theorem unaffected_machine {machine : JobQueue.Machine} (c : Controller)
    (machines : Dict String Configuration.Machine) (hm : q.machines.get? name ≠ some m) :
    Unaffected name (q, c) (q.setMachine m machine, { c with machines := machines }) := by
  refine ⟨rfl, fun n hn => ?_, fun _ hk => hk, fun _ => rfl⟩
  dsimp only at hn ⊢
  rw [machine_setMachine_ne]
  intro heq
  rw [heq] at hn
  exact hm hn

theorem unaffected_removed {name' : String} (q : JobQueue) (c : Controller) (hne : name' ≠ name) :
    Unaffected name (q, c) ({ q with machines := q.machines.erase name' }, c.unregistered name') :=
  ⟨Dict.get?_erase_ne _ hne, fun _ _ => rfl, fun _ hk => hk, fun _ => rfl⟩

theorem unaffected_added {name' : String} (hl : q.Linked) (c : Controller)
    (new : Configuration.Machine) (hne : name' ≠ name) (width height : ℤ)
    (tags : Option (Finset String)) (deadBoards : Finset Board) (deadLinks : Finset BoardLink) :
    Unaffected name (q, c) (q.added name' width height tags deadBoards deadLinks,
      c.registered name' new) := by
  obtain ⟨-, hj, -, hjob⟩ := registered_jobs c name' new
  refine ⟨Dict.get?_set_ne _ hne _, fun m hm => ?_, fun k hk => by rwa [hj] at hk, fun k => ?_⟩
  · dsimp only at hm ⊢
    unfold JobQueue.added
    dsimp only
    rw [machine_setMachine_ne (hl.names name m hm).2.ne]
  · dsimp only
    rw [hjob]

def Changeable (machines : Machines)
    (permitted : Configuration.Machine → JobQueue × Controller → Prop)
    (t : JobQueue × Controller) : Prop :=
  ∀ name old new, t.2.machines.get? name = some old → machines.dict.get? name = some new →
    compare old new = .minor → permitted new t

def Local (permitted : Configuration.Machine → JobQueue × Controller → Prop) : Prop :=
  ∀ new t t', permitted new t → Unaffected new.name t t' → permitted new t'

theorem Changeable.congr {machines : Machines} (h : Changeable machines permitted t)
    (hl : Local permitted)
    (hm : ∀ name old new, t'.2.machines.get? name = some old → machines.dict.get? name = some new →
      compare old new = .minor → t.2.machines.get? name = some old ∧ Unaffected name t t') :
    Changeable machines permitted t' := by
  intro name old new hold hnew hminor
  obtain ⟨hold', haffected⟩ := hm name old new hold hnew hminor
  have hname := machines.named name new hnew
  exact hl new t t' (h name old new hold' hnew hminor) (hname ▸ haffected)

theorem Changeable.view {machines : Machines} (h : Changeable machines permitted t)
    (hl : Local permitted) (hv : SameView t t') : Changeable machines permitted t' :=
  h.congr hl fun name _ _ hold _ _ => ⟨by rw [← hv.machines]; exact hold, hv.unaffected name⟩

/-- What is done to the jobs, to the queues and to the tables of machines turns `H` into `I`. A job
may be left with the controller only if jobs may be `lost`, machines that are added are `accepted`,
and changes of machines are `permitted`. -/
structure UpkeepRules (lost : Prop) (accepted : Configuration.Machine → Prop)
    (permitted : Configuration.Machine → JobQueue × Controller → Prop)
    (H I : JobQueue × Controller → Prop) : Prop where
  agreed : ∀ t, H t → Agreed t
  numbered : ∀ q c, H (q, c) → q.jobs.get? c.nextId = none
  view : ∀ t t', H t → Narrows t t' → I t'
  alloc : ∀ depth q c m j, Roster depth (q, c) → H (q, c) → m ∈ q.machines.values →
    j ∈ (q.machine m).queue → (q.job j).pending = true →
    wp (Allocator.alloc (q.job j).request) (fun res a =>
      match res with
      | none => I (q.setAllocator m a, c)
      | some al =>
        wp (onAllocate (q.job j).id (q.machine m).name al.boards al.periphery al.torus)
          (fun _ c' => I ((q.setAllocator m a).placed j m al.id, c'))
          (fun _ c' => I ((q.setAllocator m a).placed j m al.id, c')) c)
      (fun _ a => I (q.setAllocator m a, c)) (q.machine m).allocator
  offer : ∀ depth q c j m, Roster depth (q, c) → H (q, c) → (q.job j).pending = true →
    m ∈ q.machines.values → (q.machine m).allocator.allocPossible (q.job j).request = .ok true →
    I (q.setQueue m ((q.machine m).queue ++ [j]), c)
  checked : ∀ depth q c m, Roster depth (q, c) → H (q, c) → m ∈ q.machines.values →
    wp Allocator.checkFree (fun _ a => I (q.setAllocator m a, c))
      (fun _ a => I (q.setAllocator m a, c)) (q.machine m).allocator
  cancelled : ∀ depth q c j reason, Roster depth (q, c) → H (q, c) → (q.job j).pending = true →
    I ((q.withdrawn j).dropped (q.job j).id, c.retired (q.job j).id reason)
  retired : ∀ depth q c id reason, Roster depth (q, c) → H (q, c) → id ∈ c.jobs →
    I (q, c.retired id reason)
  freed : ∀ depth q c id j m a b, Roster depth (q, c) → H (q, c) → id ∉ c.jobs →
    q.jobs.get? id = some j → q.Holds j m a → m ∈ q.machines.values →
    (Allocator.free a).run (q.machine m).allocator = (.ok (), b) →
    I ((q.dropped id).setAllocator m b, c)
  enlisted : ∀ depth q c owner alive host reads, lost → Roster depth (q, c) → H (q, c) →
    I (q, Controller.createdJob { c with nextId := c.nextId + 1, reads := reads } c.nextId owner
      alive host)
  created : ∀ depth q c owner alive host reads machine tags request, Roster depth (q, c) →
    H (q, c) → q.jobs.get? c.nextId = none →
    I (q.created ⟨c.nextId, true, machine, tags, request, none, none⟩,
      Controller.createdJob { c with nextId := c.nextId + 1, reads := reads } c.nextId owner alive
        host)
  removed : ∀ q c name m, H (q, c) → q.machines.get? name = some m →
    (∀ j ∈ q.jobs.values, (q.job j).machine ≠ some m) →
    Roster 1 ({ q with machines := q.machines.erase name, postpone := 1 }, c) →
    I ({ q with machines := q.machines.erase name }, c.unregistered name)
  changed : ∀ q c name old new m, Roster 1 (q, c) → H (q, c) →
    c.machines.get? name = some old → q.machines.get? name = some m → new.name = name →
    compare old new = .minor → accepted new → permitted new (q, c) →
    I (q.setMachine m ((q.machine m).modified (some new.tags) (some new.deadBoards)
      (some new.deadLinks)), { c with machines := c.machines.set name new })
  added : ∀ q c name new, Roster 1 (q, c) → H (q, c) → c.machines.get? name = none →
    new.name = name → accepted new →
    I (q.added name new.width new.height (some new.tags) new.deadBoards new.deadLinks,
      c.registered name new)

theorem alike_of_minor {old new : Configuration.Machine} (h : compare old new = .minor) :
    old.Alike new := by
  unfold compare at h
  split at h
  · cases h
  split at h
  · next halike => exact halike
  · cases h

theorem onFree_keeps {reason : Option String}
    (hview : ∀ t t', P t → Narrows t t' → P t')
    (hretired : ∀ c, Roster depth (q, c) → P (q, c) → id ∈ c.jobs → P (q, c.retired id reason))
    (hr : Roster depth (q, c)) (hP : P (q, c)) :
    wp (onFree id reason) (fun _ c' => P (q, c')) (fun _ c' => P (q, c')) c := by
  have hseen (names : Finset String) : P (q, { c with changedMachines := names }) :=
    hview _ _ hP (narrows_controller rfl rfl rfl rfl (fun _ => rfl) fun _ => rfl)
  apply onFree_wp
  · exact fun _ => hP
  · exact fun _ _ => hP
  intro machine hid _
  have hgone : P (q, Controller.retired { c with
      changedMachines := insert machine.name c.changedMachines } id reason) :=
    hretired _ (hr.tables rfl rfl rfl rfl) (hseen _) hid
  apply teardownJob_wp
  · exact fun _ => hseen _
  · exact fun _ _ => hgone
  · intro _ _
    apply (setJobPowerAndLinks_touches.and
      (setJobPowerAndLinks_placement.and setJobPowerAndLinks_size)).mono
    · exact fun _ _ hc => hview _ _ hgone ((hc.1.sameView hc.2.1 hc.2.2).narrows rfl rfl)
    · exact fun _ _ hc => hview _ _ hgone ((hc.1.sameView hc.2.1 hc.2.2).narrows rfl rfl)

namespace UpkeepRules

variable {H H' I J : JobQueue × Controller → Prop}

theorem and (h : UpkeepRules lost accepted permitted H I)
    (h' : UpkeepRules lost accepted permitted H J) :
    UpkeepRules lost accepted permitted H fun t => I t ∧ J t where
  agreed := h.agreed
  numbered := h.numbered
  view t t' ht hv := ⟨h.view t t' ht hv, h'.view t t' ht hv⟩
  alloc depth q c m j hr ht hm hq hp := by
    apply ((h.alloc depth q c m j hr ht hm hq hp).and
      (h'.alloc depth q c m j hr ht hm hq hp)).mono _ fun _ _ ha => ha
    intro res a hres
    cases res with
    | none => exact hres
    | some al => exact hres.1.and hres.2
  offer depth q c j m hr ht hp hm ho :=
    ⟨h.offer depth q c j m hr ht hp hm ho, h'.offer depth q c j m hr ht hp hm ho⟩
  checked depth q c m hr ht hm :=
    (h.checked depth q c m hr ht hm).and (h'.checked depth q c m hr ht hm)
  cancelled depth q c j reason hr ht hp :=
    ⟨h.cancelled depth q c j reason hr ht hp, h'.cancelled depth q c j reason hr ht hp⟩
  retired depth q c id reason hr ht hid :=
    ⟨h.retired depth q c id reason hr ht hid, h'.retired depth q c id reason hr ht hid⟩
  freed depth q c id j m a b hr ht hid hj hh hm hrun :=
    ⟨h.freed depth q c id j m a b hr ht hid hj hh hm hrun,
      h'.freed depth q c id j m a b hr ht hid hj hh hm hrun⟩
  enlisted depth q c owner alive host reads hlost hr ht :=
    ⟨h.enlisted depth q c owner alive host reads hlost hr ht,
      h'.enlisted depth q c owner alive host reads hlost hr ht⟩
  created depth q c owner alive host reads machine tags request hr ht hnone :=
    ⟨h.created depth q c owner alive host reads machine tags request hr ht hnone,
      h'.created depth q c owner alive host reads machine tags request hr ht hnone⟩
  removed q c name m ht hm hempty hr :=
    ⟨h.removed q c name m ht hm hempty hr, h'.removed q c name m ht hm hempty hr⟩
  changed q c name old new m hr ht hold hm hname hminor hnew hp :=
    ⟨h.changed q c name old new m hr ht hold hm hname hminor hnew hp,
      h'.changed q c name old new m hr ht hold hm hname hminor hnew hp⟩
  added q c name new hr ht hnone hname hnew :=
    ⟨h.added q c name new hr ht hnone hname hnew, h'.added q c name new hr ht hnone hname hnew⟩

theorem mono {lost' : Prop} {accepted' : Configuration.Machine → Prop}
    {permitted' : Configuration.Machine → JobQueue × Controller → Prop}
    (h : UpkeepRules lost accepted permitted H I) (hlost : lost' → lost)
    (haccepted : ∀ machine, accepted' machine → accepted machine)
    (hpermitted : ∀ new t, H' t → accepted' new → permitted' new t → permitted new t)
    (hH : ∀ t, H' t → H t) (hI : ∀ t, I t → J t) :
    UpkeepRules lost' accepted' permitted' H' J where
  agreed t ht := h.agreed t (hH t ht)
  numbered q c ht := h.numbered q c (hH _ ht)
  view t t' ht hv := hI _ (h.view t t' (hH t ht) hv)
  alloc depth q c m j hr ht hm hq hp := by
    apply (h.alloc depth q c m j hr (hH _ ht) hm hq hp).mono _ fun _ _ ha => hI _ ha
    intro res a hres
    cases res with
    | none => exact hI _ hres
    | some al => exact hres.mono (fun _ _ hc => hI _ hc) fun _ _ hc => hI _ hc
  offer depth q c j m hr ht hp hm ho := hI _ (h.offer depth q c j m hr (hH _ ht) hp hm ho)
  checked depth q c m hr ht hm :=
    (h.checked depth q c m hr (hH _ ht) hm).mono (fun _ _ ha => hI _ ha) fun _ _ ha => hI _ ha
  cancelled depth q c j reason hr ht hp := hI _ (h.cancelled depth q c j reason hr (hH _ ht) hp)
  retired depth q c id reason hr ht hid := hI _ (h.retired depth q c id reason hr (hH _ ht) hid)
  freed depth q c id j m a b hr ht hid hj hh hm hrun :=
    hI _ (h.freed depth q c id j m a b hr (hH _ ht) hid hj hh hm hrun)
  enlisted depth q c owner alive host reads hl hr ht :=
    hI _ (h.enlisted depth q c owner alive host reads (hlost hl) hr (hH _ ht))
  created depth q c owner alive host reads machine tags request hr ht hnone :=
    hI _ (h.created depth q c owner alive host reads machine tags request hr (hH _ ht) hnone)
  removed q c name m ht hm hempty hr := hI _ (h.removed q c name m (hH _ ht) hm hempty hr)
  changed q c name old new m hr ht hold hm hname hminor hnew hp :=
    hI _ (h.changed q c name old new m hr (hH _ ht) hold hm hname hminor (haccepted new hnew)
      (hpermitted new _ ht hnew hp))
  added q c name new hr ht hnone hname hnew :=
    hI _ (h.added q c name new hr (hH _ ht) hnone hname (haccepted new hnew))

theorem power (h : UpkeepRules lost accepted permitted P P) {power : Bool}
    {linkEnable : Option Bool} (hP : P (q, c)) :
    wp (setJobPowerAndLinks id power linkEnable) (fun _ c' => P (q, c')) (fun _ c' => P (q, c'))
      c := by
  apply (setJobPowerAndLinks_touches.and
    (setJobPowerAndLinks_placement.and setJobPowerAndLinks_size)).mono
  · exact fun _ _ hc => h.view _ _ hP ((hc.1.sameView hc.2.1 hc.2.2).narrows rfl rfl)
  · exact fun _ _ hc => h.view _ _ hP ((hc.1.sameView hc.2.1 hc.2.2).narrows rfl rfl)

theorem free (h : UpkeepRules lost accepted permitted P P) {reason : Option String}
    (hr : Roster depth (q, c)) (hP : P (q, c)) :
    wp (onFree id reason) (fun _ c' => P (q, c')) (fun _ c' => P (q, c')) c :=
  onFree_keeps h.view (fun c hr hP hid => h.retired depth q c id reason hr hP hid) hr hP

theorem steps (h : UpkeepRules lost accepted permitted P P) (depth : ℤ) :
    Steps (fun t => Roster depth t ∧ P t) P fun _ => P where
  alloc q c m j _ hs hh hp :=
    h.alloc depth q c m j hs.1 hs.2 hh.machine (hh.queue ▸ List.mem_cons_self) hp
  skip q c m _ rest hs hh _ := h.view _ _ hs.2 (narrows_skip hh c)
  offer q c j m hs hp hm ho := h.offer depth q c j m hs.1 hs.2 hp hm ho
  cancel q c j reason hs hp := by
    obtain ⟨hid, hb⟩ := hs.1.pending j hp
    exact onCancel_wp hid hb fun reason => h.cancelled depth q c j reason hs.1 hs.2 hp
  freed _ _ _ _ _ hs _ _ _ := h.free hs.1 hs.2
  read _ _ _ hs := h.view _ _ hs.2 (narrows_controller rfl rfl rfl rfl (fun _ => rfl) fun _ => rfl)
  refresh q c id lasthost alive reads hs := by
    refine h.view _ _ hs.2 (narrows_controller rfl rfl rfl rfl ?_ ?_)
    · exact fun _ => job_refreshed_field Job.placement (fun _ _ _ => rfl) lasthost alive reads
    · exact fun _ => job_refreshed_field Job.size (fun _ _ _ => rfl) lasthost alive reads
  power _ _ _ _ _ hs _ _ := h.power hs.2
  free q c m hs hm := h.checked depth q c m hs.1 hs.2 hm

theorem rules (h : UpkeepRules lost accepted permitted P P) (depth : ℤ) :
    JobRules (fun t => Roster depth t ∧ P t) fun _ t => Roster depth t ∧ P t where
  toSteps := ((roster_steps depth).mono (fun _ hs => hs.1) (fun _ hs => hs) fun _ _ hs => hs).and
    (h.steps depth)
  indexed _ hs := hs.1.indexed
  lost _ _ _ hs _ _ := hs

/-- While a machine is removed, changes of other machines stay permitted. -/
structure Removing (machines : Machines)
    (permitted : Configuration.Machine → JobQueue × Controller → Prop) (name : String) (m : ℕ)
    (t : JobQueue × Controller) : Prop where
  queued : t.1.machines.get? name = some m
  major : ∀ old new, t.2.machines.get? name = some old → machines.dict.get? name = some new →
    compare old new = .major
  changeable : Changeable machines permitted t

variable {machines : Machines}

theorem Removing.ne {old new : Configuration.Machine} {name' : String}
    (h : Removing machines permitted name m t) (hold : t.2.machines.get? name' = some old)
    (hnew : machines.dict.get? name' = some new) (hminor : compare old new = .minor) :
    name ≠ name' := by
  rintro rfl
  rw [h.major old new hold hnew] at hminor
  cases hminor

theorem Removing.view (h : Removing machines permitted name m t) (hl : Local permitted)
    (hv : SameView t t') : Removing machines permitted name m t' :=
  ⟨(hv.queued name).trans h.queued, fun old new hold hnew =>
    h.major old new (by rw [← hv.machines]; exact hold) hnew, h.changeable.view hl hv⟩

theorem Removing.retired {reason : Option String} (h : Removing machines permitted name m (q, c))
    (hl : Local permitted) : Removing machines permitted name m (q, c.retired id reason) :=
  ⟨h.queued, h.major, h.changeable.congr hl fun _ _ _ hold _ _ =>
    ⟨hold, unaffected_retired q c id reason⟩⟩

theorem Removing.freed {b : Allocator} (h : Removing machines permitted name m (q, c))
    (hl : Local permitted) (hr : Roster depth (q, c)) :
    Removing machines permitted name m ((q.dropped id).setAllocator m b, c) := by
  refine ⟨h.queued, h.major, h.changeable.congr hl fun name' old new hold hnew hminor =>
    ⟨hold, unaffected_freed c id b fun hm => ?_⟩⟩
  have hname := (hr.linked.names name m h.queued).1
  exact h.ne hold hnew hminor (hname.symm.trans (hr.linked.names name' m hm).1)

theorem sweep (h : UpkeepRules lost accepted permitted P P) (hl : Local permitted) (depth : ℤ)
    (name : String) (m : ℕ) :
    SweepRules depth m (fun t => P t ∧ Removing machines permitted name m t) fun _ => P where
  freed q c id j hr hK _ _ _ := by
    apply (onFree_keeps (P := fun t => P t ∧ Removing machines permitted name m t) _ _ hr
      hK).mono (fun _ _ hc => hc) fun _ _ hc => hc.1
    · exact fun t t' ht hv => ⟨h.view t t' ht.1 hv, ht.2.view hl hv.toSameView⟩
    · exact fun c hr hK hid => ⟨h.retired _ q c id _ hr hK.1 hid, hK.2.retired hl⟩
  free q c id j a b hr hK hid hj hh hm hrun :=
    ⟨h.freed _ q c id j m a b hr hK.1 hid hj hh hm hrun, hK.2.freed hl hr⟩

theorem assign (h : UpkeepRules lost accepted permitted P P) (hl : Local permitted)
    (hnew : ∀ name new, machines.dict.get? name = some new → accepted new) :
    AssignRules machines (fun _ t => Roster 1 t ∧ P t ∧ Changeable machines permitted t)
      fun _ t => Roster 1 t ∧ P t where
  postponed _ t hs := hs.1.postpone.symm ▸ Int.one_pos
  remove l name t hs hmajor := by
    obtain ⟨q, c⟩ := t
    obtain ⟨hr, hP, hchangeable⟩ := hs
    apply SweepRules.removeMachine (fun m => h.sweep hl (1 + 1) name m) hr Int.one_pos
    · intro m hm
      have hpostponed := sameView_postponed q c 2
      exact ⟨h.view _ _ hP (narrows_postponed q c 2), hm, hmajor, hchangeable.view hl hpostponed⟩
    · exact fun _ => ⟨hr, hP⟩
    · intro m q' c' hm hmachines hK hempty _ hr
      have hagreed := h.agreed _ hK.1
      have hget : q'.machines.get? name = some m := hK.2.queued
      have hknown : (c'.machines.get? name).isSome := (hagreed.queued name).mp (hget ▸ rfl)
      refine ⟨fun hn => ?_, fun hn => ?_, fun controllers _ => ⟨?_, ?_, ?_⟩⟩
      · rw [hn] at hknown
        cases hknown
      · rw [← hagreed.wired, hn] at hknown
        cases hknown
      · exact hr.tables rfl rfl rfl rfl
      · exact h.view _ _ (h.removed q' c' name m hK.1 hget hempty hr) (narrows_postponed _ _ 1)
      · have hremoved : Changeable machines permitted
            ({ q' with machines := q'.machines.erase name }, c'.unregistered name) :=
          hK.2.changeable.congr hl fun name' old new hold hnew' hminor => by
            have hold' : c'.machines.get? name' = some old := Dict.get?_of_erase hold
            exact ⟨hold', unaffected_removed q' c' (hK.2.ne hold' hnew' hminor)⟩
        exact hremoved.view hl (sameView_postponed _ _ 1)
    · exact fun _ q c hr hP => ⟨hr, h.view _ _ hP (narrows_postponed q c 1)⟩
  stop l t hs := by
    have hsame : SameView t (t.1, t.2.stopped l) :=
      sameView_controller rfl rfl rfl rfl (fun _ => rfl) fun _ => rfl
    exact ⟨Roster.tables (q := t.1) (c := t.2) hs.1 rfl rfl rfl rfl,
      h.view _ _ hs.2.1 (hsame.narrows rfl rfl), hs.2.2.view hl hsame⟩
  change name old new q c hs hold hnew' hminor := by
    obtain ⟨hr, hP, hchangeable⟩ := hs
    refine ⟨fun _ => ⟨hr, hP⟩, fun m hm => ⟨?_, ?_, ?_⟩⟩
    · exact (hr.queue_congr (sameBooks_modified m _ _ _) rfl).tables rfl rfl rfl rfl
    · exact h.changed q c name old new m hr hP hold hm (machines.named name new hnew') hminor
        (hnew name new hnew') (hchangeable name old new hold hnew' hminor)
    · apply hchangeable.congr hl
      intro name' old' new' hold' hnew'' hminor'
      dsimp only at hold'
      rw [Dict.get?_set] at hold'
      split at hold'
      · next heq =>
        cases hold'
        rw [← heq, hnew'] at hnew''
        cases hnew''
        unfold compare at hminor'
        rw [if_pos (.refl new)] at hminor'
        cases hminor'
      · next hne =>
        refine ⟨hold', unaffected_machine c _ fun hm' => hne ?_⟩
        exact (hr.linked.names name m hm).1.symm.trans (hr.linked.names name' m hm').1
  add name new q c hs hnone hnew' := by
    obtain ⟨hr, hP, hchangeable⟩ := hs
    obtain ⟨hn, hj, hret, hjob⟩ := registered_jobs c name new
    have hunqueued : ¬(q.machines.get? name).isSome := by
      rw [(h.agreed _ hP).queued name, hnone]
      exact Bool.false_ne_true
    refine ⟨fun hsome => absurd hsome hunqueued, fun hqnone => ⟨?_, ?_, ?_⟩⟩
    · exact (hr.added hqnone new.width new.height _ _ _).tables hn hj hret hjob
    · exact h.added q c name new hr hP hnone (machines.named name new hnew') (hnew name new hnew')
    · apply hchangeable.congr hl
      intro name' old' new' hold' hnew'' hminor'
      dsimp only at hold'
      rw [registered_machines, Dict.get?_set] at hold'
      split at hold'
      · next heq =>
        cases hold'
        rw [← heq, hnew'] at hnew''
        cases hnew''
        unfold compare at hminor'
        rw [if_pos (.refl new)] at hminor'
        cases hminor'
      · next hne => exact ⟨hold', unaffected_added hr.linked c new hne _ _ _ _ _⟩
  move name q c hs := by
    obtain ⟨hr, hP, hchangeable⟩ := hs
    have hmoved (name' : String) :
        (c.machines.moveToEnd name).get? name' = c.machines.get? name' := Dict.get?_moveToEnd ..
    have hkept : Narrows (q, c) (q, { c with machines := c.machines.moveToEnd name }) :=
      narrows_moved (fun _ => rfl) hmoved
    have hboth : Narrows (q, c) ({ q with machines := q.machines.moveToEnd name },
        { c with machines := c.machines.moveToEnd name }) :=
      narrows_moved (fun _ => Dict.get?_moveToEnd ..) hmoved
    exact ⟨fun _ => ⟨hr, hP⟩, fun _ => ⟨hr.tables rfl rfl rfl rfl, h.view _ _ hP hkept⟩,
      (hr.moved name).tables rfl rfl rfl rfl, h.view _ _ hP hboth,
      hchangeable.view hl hboth.toSameView⟩

theorem exit (h : UpkeepRules lost accepted permitted P P) (depth : ℤ)
    (ht : Roster (depth + 1) t ∧ P t) :
    wp (JobQueue.exit callbacks) (fun _ t => Roster depth t ∧ P t)
      (fun _ t => Roster depth t ∧ P t) t := by
  obtain ⟨q, c⟩ := t
  apply (h.rules depth).exit (fun _ _ he => he) (fun _ _ ht => ht)
  · exact fun q c ht =>
      ⟨ht.1.queue_congr sameBooks_cleared rfl, h.view _ _ ht.2 (narrows_cleared q c)⟩
  · have hpost : q.postpone = depth + 1 := ht.1.postpone
    rw [hpost, Int.add_sub_cancel]
    exact ⟨ht.1.postponed depth, h.view _ _ ht.2 (narrows_postponed q c depth)⟩

theorem createJob (h : UpkeepRules lost accepted permitted P P)
    {ownerhost owner : Option String} {keepalive : Option (Option ℚ)} {machine : Option MachineName}
    {tags : Option Tags} {request : Request}
    (hbarred : Barred machine tags → lost) (ht : Roster depth t ∧ P t) :
    wp (createJob ownerhost owner keepalive machine tags request)
      (fun _ t => Roster depth t ∧ P t) (fun _ t => Roster depth t ∧ P t) t := by
  obtain ⟨q, c⟩ := t
  apply (h.rules depth).createJob (fun _ _ he => he) (fun _ _ ht => ht) ht
  · intro e owner alive reads hrefused
    refine ⟨ht.1.enlisted, ?_⟩
    obtain hused | hrefused := hrefused
    · rw [h.numbered q c ht.2] at hused
      cases hused
    · exact h.enlisted depth q c owner alive ownerhost reads (hbarred hrefused) ht.1 ht.2
  · exact fun owner alive reads tags hnone => ⟨ht.1.created hnone machine tags request,
      h.created depth q c owner alive ownerhost reads machine tags request ht.1 ht.2 hnone⟩
  · exact fun q c ids ht => ⟨ht.1.tables rfl rfl rfl rfl,
      h.view _ _ ht.2 (narrows_controller rfl rfl rfl rfl (fun _ => rfl) fun _ => rfl)⟩

theorem freeJob (h : UpkeepRules lost accepted permitted P P) (ht : Roster depth t ∧ P t)
    (hid : id ∉ t.2.jobs) :
    wp (JobQueue.free callbacks id) (fun _ t => Roster depth t ∧ P t)
      (fun _ t => Roster depth t ∧ P t) t := by
  obtain ⟨q, c⟩ := t
  apply ht.1.free_wp hid fun t ht => (h.rules depth).processQueue ht
  · exact fun _ => ht
  · exact fun j m a b hj hh hm hrun => ⟨ht.1.freed hj hh hm hrun,
      h.freed depth q c id j m a b ht.1 ht.2 hid hj hh hm hrun⟩

theorem complete (h : UpkeepRules lost accepted permitted P P) {b : ℕ} {success : Bool}
    (ht : Roster depth t ∧ P t) :
    wp (complete b success) (fun _ t => Roster depth t ∧ P t) (fun _ t => Roster depth t ∧ P t)
      t := by
  obtain ⟨q, c⟩ := t
  have huncounted (id : ℕ) (q : JobQueue) (c : Controller) (ht : Roster depth (q, c) ∧ P (q, c)) :
      Roster depth (q, c.uncounted id) ∧ P (q, c.uncounted id) :=
    ⟨ht.1.uncounted id, h.view _ _ ht.2 ((sameView_uncounted q c id).narrows rfl rfl)⟩
  apply complete_wp
  · exact fun _ => ht
  intro r rest _
  apply bmpOnRequestComplete_wp (J := fun t => Roster depth t ∧ P t)
  · exact ⟨ht.1.tables rfl rfl rfl rfl,
      h.view _ _ ht.2 (narrows_controller rfl rfl rfl rfl (fun _ => rfl) fun _ => rfl)⟩
  · exact fun _ reason t ht => (h.rules depth).destroyJob ht
  · exact fun q c ht _ => huncounted _ q c ht
  · exact fun q c ht _ => huncounted _ q c ht
  · intro q c ht _
    have hready : Roster depth (q, (c.uncounted r.onDone).readied r.onDone) ∧
        P (q, (c.uncounted r.onDone).readied r.onDone) :=
      ⟨ht.1.readied _,
        h.view _ _ (huncounted _ q c ht).2 ((sameView_readied q _ _).narrows rfl rfl)⟩
    apply freeRetired_wp
    · exact fun _ => hready
    · exact fun hretired => h.freeJob hready (ht.1.gone _ hretired)
  · exact fun q c ids ht => ⟨ht.1.tables rfl rfl rfl rfl,
      h.view _ _ ht.2 (narrows_controller rfl rfl rfl rfl (fun _ => rfl) fun _ => rfl)⟩

theorem setMachines (h : UpkeepRules lost accepted permitted P P) (hl : Local permitted)
    (hnew : ∀ name new, machines.dict.get? name = some new → accepted new)
    (hchangeable : Changeable machines permitted t) (ht : Roster 0 t ∧ P t) :
    wp (setMachines machines) (fun _ t => Roster 0 t ∧ P t) (fun _ t => Roster 0 t ∧ P t) t := by
  obtain ⟨q, c⟩ := t
  apply (h.assign hl hnew).setMachines
  · have hpost : q.postpone = 0 := ht.1.postpone
    dsimp only
    rw [hpost]
    exact ⟨ht.1.postponed 1, h.view _ _ ht.2 (narrows_postponed q c _),
      hchangeable.view hl (sameView_postponed q c _)⟩
  · exact fun _ ht => h.exit 0 ⟨ht.1, ht.2.1⟩
  · exact fun _ _ ht => h.exit 0 ht
  · exact fun q c names ht => ⟨ht.1.tables rfl rfl rfl rfl,
      h.view _ _ ht.2 (narrows_controller rfl rfl rfl rfl (fun _ => rfl) fun _ => rfl)⟩

end UpkeepRules

def Operation.Barred : Operation → Prop
  | .createJob _ _ _ machine tags _ => JobQueue.Barred machine tags
  | _ => False

/-- The machines that are assigned are accepted. -/
def Operation.Assigns (accepted : Configuration.Machine → Prop) : Operation → Prop
  | .setMachines machines => ∀ name new, machines.dict.get? name = some new → accepted new
  | _ => True

theorem Operation.Assigns.of_all {op : Operation} (h : ∀ machine, accepted machine) :
    op.Assigns accepted := by
  cases op with
  | setMachines machines => exact fun _ new _ => h new
  | _ => trivial

/-- The machines that are changed may be changed. -/
def Operation.Alters (permitted : Configuration.Machine → JobQueue × Controller → Prop)
    (t : JobQueue × Controller) : Operation → Prop
  | .setMachines machines => Changeable machines permitted t
  | _ => True

theorem Operation.Alters.mono
    {permitted' : Configuration.Machine → JobQueue × Controller → Prop} {op : Operation}
    (h : op.Alters permitted t) (ha : op.Assigns accepted)
    (hp : ∀ new, accepted new → permitted new t → permitted' new t) : op.Alters permitted' t := by
  cases op with
  | setMachines machines =>
    exact fun name old new hold hnew hminor =>
      hp new (ha name new hnew) (h name old new hold hnew hminor)
  | _ => trivial

namespace UpkeepRules

theorem exec (h : UpkeepRules lost accepted permitted P P) (hl : Local permitted) {op : Operation}
    (hbarred : op.Barred → lost) (hnew : op.Assigns accepted) (halters : op.Alters permitted t)
    (ht : Roster 0 t ∧ P t) :
    wp (exec op) (fun _ t => Roster 0 t ∧ P t) (fun _ t => Roster 0 t ∧ P t) t := by
  have hrules := h.rules 0
  cases op with
  | createJob ownerhost owner keepalive machine tags request =>
    simp only [Controller.exec, wp_bind]
    exact (h.createJob hbarred ht).mono (fun _ _ ht => ht) fun _ _ he => he
  | jobKeepalive clienthost id => exact hrules.jobKeepalive ht
  | powerOnJobBoards clienthost id => exact hrules.setJobBoards ht
  | powerOffJobBoards clienthost id => exact hrules.setJobBoards ht
  | destroyJob id reason => exact hrules.destroyJob ht
  | destroyTimedOutJobs => exact hrules.destroyTimedOutJobs ht
  | checkFree => exact hrules.checkFree ht
  | setMaxRetiredJobs value =>
    exact ⟨setMaxRetiredJobs_roster value ht.1,
      h.view _ _ ht.2 (narrows_controller rfl rfl rfl rfl (fun _ => rfl) fun _ => rfl)⟩
  | setMachines machines => exact h.setMachines hl hnew halters ht
  | stop =>
    have hstopped (bmps : List ℕ) : Roster 0 (t.1, t.2.stopped bmps) ∧ P (t.1, t.2.stopped bmps) :=
      ⟨Roster.tables (q := t.1) (c := t.2) ht.1 rfl rfl rfl rfl,
        h.view _ _ ht.2 (narrows_controller rfl rfl rfl rfl (fun _ => rfl) fun _ => rfl)⟩
    exact stop_wp (q := t.1) (c := t.2) hstopped fun bmps _ => hstopped bmps
  | complete b success => exact h.complete ht

theorem reachable (h : UpkeepRules lost accepted permitted P P) (hl : Local permitted) {s : Setup}
    (hstart : P s.start)
    (ht : ((system s).restrict fun t op =>
      (op.Barred → lost) ∧ op.Assigns accepted ∧ op.Alters permitted t).Reachable t) :
    Roster 0 t ∧ P t := by
  apply ht.invariant
  · intro t ht
    rw [ht]
    exact ⟨start_roster s, hstart⟩
  · intro t op t' _ ht hstep
    obtain ⟨⟨hbarred, hnew, halters⟩, hstep⟩ := hstep
    rw [hstep]
    exact wp_same (h.exec hl hbarred hnew halters ht)

end UpkeepRules

end SpallocServer.Controller
