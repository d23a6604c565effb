import SpallocServer.Controller.Upkeep

namespace SpallocServer.Controller

open Foundation Prog JobQueue Allocator

variable {q q' : JobQueue} {c c' : Controller} {t t' : JobQueue × Controller} {id j m : ℕ}
  {depth : ℤ} {lost : Prop} {accepted : Configuration.Machine → Prop}
  {P : JobQueue × Controller → Prop}

theorem onAllocate_places {name : String} {machine : Configuration.Machine}
    {boards : Finset Board} {periphery : Finset BoardLink} {torus : WrapAround} (hid : id ∈ c.jobs)
    (hget : c.machines.get? name = some machine) :
    wp (onAllocate id name boards periphery torus)
      (fun _ c' => Touches id c c' ∧ ∃ connections, (c'.job id).placement =
        (some machine, some boards, some periphery, connections))
      (fun _ c' => Touches id c c' ∧ ∃ connections, (c'.job id).placement =
        (some machine, some boards, some periphery, connections)) c := by
  have hassigned : ((c.assigned id name machine boards periphery torus).job id).placement =
      (some machine, some boards, some periphery, (c.job id).connections) := by
    rw [job_assigned, if_pos rfl]
    rfl
  apply onAllocate_wp
  · exact fun hno => absurd hid hno
  · intro hno
    rw [hget] at hno
    cases hno
  · intro machine' _ _ hget' _
    obtain rfl := Option.some.inj (hget.symm.trans hget')
    exact ⟨rewrites_assigned.toTouches, _, hassigned⟩
  · intro machine' _ _ hget' _
    obtain rfl := Option.some.inj (hget.symm.trans hget')
    exact ⟨rewrites_assigned.toTouches, _, hassigned⟩
  · intro machine' origin top _ _ hget' _ _ _
    obtain rfl := Option.some.inj (hget.symm.trans hget')
    refine ⟨rewrites_assigned.toTouches.trans (rewrites_setJob _ id _).toTouches,
      (c.job id).connections, ?_⟩
    rw [sized, job_setJob, if_pos rfl]
    exact hassigned
  · intro machine' origin top connections c' hl ha
    obtain rfl := Option.some.inj (hget.symm.trans hl.registered)
    have hplacement : (c'.job id).placement =
        (some machine, some boards, some periphery, some connections) := by
      unfold Job.placement
      rw [ha.allocatedMachine, ha.boards, ha.periphery, ha.connections]
    apply (setJobPowerAndLinks_touches.and setJobPowerAndLinks_placement).mono
    · exact fun _ c'' h => ⟨ha.toTouches.trans h.1, _, (h.2 id).trans hplacement⟩
    · exact fun _ c'' h => ⟨ha.toTouches.trans h.1, _, (h.2 id).trans hplacement⟩

theorem onAllocate_placed {name : String} {machine : Configuration.Machine}
    {boards : Finset Board} {periphery : Finset BoardLink} {torus : WrapAround}
    {P : Controller → Prop} (hid : id ∈ c.jobs) (hget : c.machines.get? name = some machine)
    (h : ∀ c' connections, Touches id c c' → (c'.job id).placement =
      (some machine, some boards, some periphery, connections) → P c') :
    wp (onAllocate id name boards periphery torus) (fun _ c' => P c') (fun _ c' => P c') c := by
  have hplaced (c' : Controller) (hc : Touches id c c' ∧ ∃ connections, (c'.job id).placement =
      (some machine, some boards, some periphery, connections)) : P c' := by
    obtain ⟨ht, connections, hplacement⟩ := hc
    exact h c' connections ht hplacement
  exact (onAllocate_places hid hget).mono (fun _ c' hc => hplaced c' hc) fun _ c' hc => hplaced c' hc

/-- What is done to the jobs and to the tables of machines turns `H` into `I`. A job may be left
with the controller only if jobs may be `lost`, and machines that are assigned are `accepted`. -/
structure KeepRules (lost : Prop) (accepted : Configuration.Machine → Prop)
    (H I : JobQueue × Controller → Prop) : Prop where
  agreed : ∀ t, H t → Agreed t
  numbered : ∀ q c, H (q, c) → q.jobs.get? c.nextId = none
  view : ∀ t t', H t → SameView t t' → I t'
  alloc : ∀ depth q c m j, Roster depth (q, c) → H (q, c) → m ∈ q.machines.values →
    (q.job j).pending = true →
    wp (Allocator.alloc (q.job j).request) (fun res a =>
      match res with
      | none => I (q.setAllocator m a, c)
      | some al =>
        wp (onAllocate (q.job j).id (q.machine m).name al.boards al.periphery al.torus)
          (fun _ c' => I ((q.setAllocator m a).placed j m al.id, c'))
          (fun _ c' => I ((q.setAllocator m a).placed j m al.id, c')) c)
      (fun _ a => I (q.setAllocator m a, c)) (q.machine m).allocator
  checked : ∀ depth q c m, Roster depth (q, c) → H (q, c) → m ∈ q.machines.values →
    wp Allocator.checkFree (fun _ a => I (q.setAllocator m a, c))
      (fun _ a => I (q.setAllocator m a, c)) (q.machine m).allocator
  cancelled : ∀ depth q c j reason, Roster depth (q, c) → H (q, c) → (q.job j).pending = true →
    I ((q.withdrawn j).dropped (q.job j).id, c.retired (q.job j).id reason)
  retired : ∀ depth q c id reason, Roster depth (q, c) → H (q, c) → id ∈ c.jobs →
    I (q, c.retired id reason)
  freed : ∀ depth q c id j m a b, Roster depth (q, c) → H (q, c) → id ∉ c.jobs →
    q.jobs.get? id = some j → q.Holds j m a → m ∈ q.machines.values →
    (Allocator.free a).run (q.machine m).allocator = (.ok (), b) →
    I ((q.dropped id).setAllocator m b, c)
  enlisted : ∀ depth q c owner alive host reads, lost → Roster depth (q, c) → H (q, c) →
    I (q, Controller.createdJob { c with nextId := c.nextId + 1, reads := reads } c.nextId owner
      alive host)
  created : ∀ depth q c owner alive host reads machine tags request, Roster depth (q, c) →
    H (q, c) → q.jobs.get? c.nextId = none →
    I (q.created ⟨c.nextId, true, machine, tags, request, none, none⟩,
      Controller.createdJob { c with nextId := c.nextId + 1, reads := reads } c.nextId owner alive
        host)
  removed : ∀ q c name m, H (q, c) → q.machines.get? name = some m →
    (∀ j ∈ q.jobs.values, (q.job j).machine ≠ some m) →
    Roster 1 ({ q with machines := q.machines.erase name, postpone := 1 }, c) →
    I ({ q with machines := q.machines.erase name }, c.unregistered name)
  changed : ∀ depth q c name old new m, Roster depth (q, c) → H (q, c) →
    c.machines.get? name = some old → q.machines.get? name = some m → new.name = name →
    old.Alike new → accepted new →
    I (q.setMachine m ((q.machine m).modified (some new.tags) (some new.deadBoards)
      (some new.deadLinks)), { c with machines := c.machines.set name new })
  added : ∀ depth q c name new, Roster depth (q, c) → H (q, c) → c.machines.get? name = none →
    new.name = name → accepted new →
    I (q.added name new.width new.height (some new.tags) new.deadBoards new.deadLinks,
      c.registered name new)

namespace KeepRules

variable {lost' : Prop} {accepted' : Configuration.Machine → Prop}
  {H H' I J : JobQueue × Controller → Prop}

theorem and (h : KeepRules lost accepted H I) (h' : KeepRules lost accepted H J) :
    KeepRules lost accepted H fun t => I t ∧ J t where
  agreed := h.agreed
  numbered := h.numbered
  view t t' ht hv := ⟨h.view t t' ht hv, h'.view t t' ht hv⟩
  alloc depth q c m j hr ht hm hp := by
    apply ((h.alloc depth q c m j hr ht hm hp).and (h'.alloc depth q c m j hr ht hm hp)).mono _
      fun _ _ ha => ha
    intro res a ⟨hI, hJ⟩
    cases res with
    | none => exact ⟨hI, hJ⟩
    | some al => exact hI.and hJ
  checked depth q c m hr ht hm :=
    (h.checked depth q c m hr ht hm).and (h'.checked depth q c m hr ht hm)
  cancelled depth q c j reason hr ht hp :=
    ⟨h.cancelled depth q c j reason hr ht hp, h'.cancelled depth q c j reason hr ht hp⟩
  retired depth q c id reason hr ht hid :=
    ⟨h.retired depth q c id reason hr ht hid, h'.retired depth q c id reason hr ht hid⟩
  freed depth q c id j m a b hr ht hid hj hh hm hrun :=
    ⟨h.freed depth q c id j m a b hr ht hid hj hh hm hrun,
      h'.freed depth q c id j m a b hr ht hid hj hh hm hrun⟩
  enlisted depth q c owner alive host reads hlost hr ht :=
    ⟨h.enlisted depth q c owner alive host reads hlost hr ht,
      h'.enlisted depth q c owner alive host reads hlost hr ht⟩
  created depth q c owner alive host reads machine tags request hr ht hnone :=
    ⟨h.created depth q c owner alive host reads machine tags request hr ht hnone,
      h'.created depth q c owner alive host reads machine tags request hr ht hnone⟩
  removed q c name m ht hm hempty hr :=
    ⟨h.removed q c name m ht hm hempty hr, h'.removed q c name m ht hm hempty hr⟩
  changed depth q c name old new m hr ht hold hm hname ha hnew :=
    ⟨h.changed depth q c name old new m hr ht hold hm hname ha hnew,
      h'.changed depth q c name old new m hr ht hold hm hname ha hnew⟩
  added depth q c name new hr ht hnone hname hnew :=
    ⟨h.added depth q c name new hr ht hnone hname hnew,
      h'.added depth q c name new hr ht hnone hname hnew⟩

theorem mono (h : KeepRules lost accepted H I) (hlost : lost' → lost)
    (haccepted : ∀ machine, accepted' machine → accepted machine) (hH : ∀ t, H' t → H t)
    (hI : ∀ t, I t → J t) : KeepRules lost' accepted' H' J where
  agreed t ht := h.agreed t (hH t ht)
  numbered q c ht := h.numbered q c (hH _ ht)
  view t t' ht hv := hI _ (h.view t t' (hH t ht) hv)
  alloc depth q c m j hr ht hm hp := by
    apply (h.alloc depth q c m j hr (hH _ ht) hm hp).mono _ fun _ _ ha => hI _ ha
    intro res a hres
    cases res with
    | none => exact hI _ hres
    | some al => exact hres.mono (fun _ _ hc => hI _ hc) fun _ _ hc => hI _ hc
  checked depth q c m hr ht hm :=
    (h.checked depth q c m hr (hH _ ht) hm).mono (fun _ _ ha => hI _ ha) fun _ _ ha => hI _ ha
  cancelled depth q c j reason hr ht hp := hI _ (h.cancelled depth q c j reason hr (hH _ ht) hp)
  retired depth q c id reason hr ht hid := hI _ (h.retired depth q c id reason hr (hH _ ht) hid)
  freed depth q c id j m a b hr ht hid hj hh hm hrun :=
    hI _ (h.freed depth q c id j m a b hr (hH _ ht) hid hj hh hm hrun)
  enlisted depth q c owner alive host reads hl hr ht :=
    hI _ (h.enlisted depth q c owner alive host reads (hlost hl) hr (hH _ ht))
  created depth q c owner alive host reads machine tags request hr ht hnone :=
    hI _ (h.created depth q c owner alive host reads machine tags request hr (hH _ ht) hnone)
  removed q c name m ht hm hempty hr := hI _ (h.removed q c name m (hH _ ht) hm hempty hr)
  changed depth q c name old new m hr ht hold hm hname ha hnew :=
    hI _ (h.changed depth q c name old new m hr (hH _ ht) hold hm hname ha (haccepted new hnew))
  added depth q c name new hr ht hnone hname hnew :=
    hI _ (h.added depth q c name new hr (hH _ ht) hnone hname (haccepted new hnew))

theorem upkeep (h : KeepRules lost accepted H I) :
    UpkeepRules lost accepted (fun _ _ => True) H I where
  agreed := h.agreed
  numbered := h.numbered
  view t t' ht hv := h.view t t' ht hv.toSameView
  alloc depth q c m j hr ht hm _ hp := h.alloc depth q c m j hr ht hm hp
  offer _ q c _ m _ ht _ _ _ := h.view _ _ ht (sameView_setQueue q c m _)
  checked := h.checked
  cancelled := h.cancelled
  retired := h.retired
  freed := h.freed
  enlisted := h.enlisted
  created := h.created
  removed := h.removed
  changed q c name old new m hr ht hold hm hname hminor hnew _ :=
    h.changed 1 q c name old new m hr ht hold hm hname (alike_of_minor hminor) hnew
  added q c name new hr ht hnone hname hnew := h.added 1 q c name new hr ht hnone hname hnew

theorem steps (h : KeepRules lost accepted P P) (depth : ℤ) :
    Steps (fun t => Roster depth t ∧ P t) P fun _ => P := h.upkeep.steps depth

theorem rules (h : KeepRules lost accepted P P) (depth : ℤ) :
    JobRules (fun t => Roster depth t ∧ P t) fun _ t => Roster depth t ∧ P t :=
  h.upkeep.rules depth

theorem sweep (h : KeepRules lost accepted P P) (depth : ℤ) (m : ℕ) :
    SweepRules depth m P fun _ => P where
  freed _ _ _ _ hr hP _ _ _ := h.upkeep.free hr hP
  free q c id j a b hr hP hid hj hh hm hrun :=
    h.freed depth q c id j m a b hr hP hid hj hh hm hrun

theorem changeable (machines : Machines) (t : JobQueue × Controller) :
    Changeable machines (fun _ _ => True) t := fun _ _ _ _ _ _ => trivial

theorem assign (h : KeepRules lost accepted P P) (machines : Machines)
    (hnew : ∀ name new, machines.dict.get? name = some new → accepted new) :
    AssignRules machines (fun _ t => Roster 1 t ∧ P t) fun _ t => Roster 1 t ∧ P t := by
  have hassign : AssignRules machines _ _ := h.upkeep.assign (fun _ _ _ h _ => h) hnew
  simp only [changeable, and_true] at hassign
  exact hassign

theorem createJob (h : KeepRules lost accepted P P) {ownerhost owner : Option String}
    {keepalive : Option (Option ℚ)} {machine : Option MachineName} {tags : Option Tags}
    {request : Request} (hbarred : Barred machine tags → lost)
    (ht : Roster depth t ∧ P t) :
    wp (createJob ownerhost owner keepalive machine tags request)
      (fun _ t => Roster depth t ∧ P t) (fun _ t => Roster depth t ∧ P t) t :=
  h.upkeep.createJob hbarred ht

theorem setMachines (h : KeepRules lost accepted P P) {machines : Machines}
    (hnew : ∀ name new, machines.dict.get? name = some new → accepted new)
    (ht : Roster 0 t ∧ P t) :
    wp (setMachines machines) (fun _ t => Roster 0 t ∧ P t) (fun _ t => Roster 0 t ∧ P t) t :=
  h.upkeep.setMachines (fun _ _ _ h _ => h) hnew (changeable machines t) ht

theorem exec (h : KeepRules lost accepted P P) {op : Operation} (hbarred : op.Barred → lost)
    (hnew : op.Assigns accepted) (ht : Roster 0 t ∧ P t) :
    wp (exec op) (fun _ t => Roster 0 t ∧ P t) (fun _ t => Roster 0 t ∧ P t) t := by
  apply h.upkeep.exec (fun _ _ _ h _ => h) hbarred hnew _ ht
  cases op with
  | setMachines machines => exact changeable machines t
  | _ => trivial

theorem reachable (h : KeepRules lost accepted P P) {s : Setup} (hstart : P s.start)
    (ht : ((system s).restrict fun _ op => (op.Barred → lost) ∧ op.Assigns accepted).Reachable
      t) : Roster 0 t ∧ P t := by
  apply ht.invariant
  · intro t ht
    rw [ht]
    exact ⟨start_roster s, hstart⟩
  · intro t op t' _ ht ⟨⟨hbarred, hnew⟩, hstep⟩
    rw [hstep]
    exact wp_same (h.exec hbarred hnew ht)

end KeepRules

end SpallocServer.Controller
