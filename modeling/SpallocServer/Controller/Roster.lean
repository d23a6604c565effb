import SpallocServer.JobQueue.Correspondence
import SpallocServer.Controller.Assignment

namespace SpallocServer.Controller

open Foundation Prog JobQueue Allocator

variable {q q' : JobQueue} {c c' : Controller} {t : JobQueue × Controller} {id j k : ℕ}
  {depth : ℤ}

theorem Touches.refl (c : Controller) : Touches id c c :=
  ⟨fun _ _ => rfl, rfl, rfl, rfl, rfl, rfl, rfl, rfl, rfl, rfl, rfl⟩

theorem setJobPowerAndLinks_touches {power : Bool} {linkEnable : Option Bool} :
    wp (setJobPowerAndLinks id power linkEnable) (fun _ => Touches id c) (fun _ => Touches id c)
      c := by
  apply setJobPowerAndLinks_wp
  · exact fun commands _ => touches_commanded power commands.entries
  · exact fun _ _ => .refl c
  · exact fun commands l _ _ _ => touches_sent commands.entries.length l

theorem setJobPowerAndLinks_boards {power : Bool} {linkEnable : Option Bool} :
    wp (setJobPowerAndLinks id power linkEnable)
      (fun _ c' => ∀ k, (c'.job k).boards = (c.job k).boards)
      (fun _ c' => ∀ k, (c'.job k).boards = (c.job k).boards) c := by
  apply setJobPowerAndLinks_wp
  · intro commands _ k
    rw [job_commanded]
    split
    · next hk => rw [hk]
    · rfl
  · exact fun _ _ _ => rfl
  · intro commands l _ _ _ k
    change ((c.counted id commands.entries.length).job k).boards = _
    rw [counted, job_setJob]
    split
    · next hk => rw [hk]
    · rfl

theorem onAllocate_touches {name : String} {boards : Finset Board}
    {periphery : Finset BoardLink} {torus : WrapAround} :
    wp (onAllocate id name boards periphery torus) (fun _ => Touches id c) (fun _ => Touches id c)
      c := by
  apply onAllocate_wp
  · exact fun _ => .refl c
  · exact fun _ => .refl c
  · exact fun _ _ _ _ _ => rewrites_assigned.toTouches
  · exact fun _ _ _ _ _ => rewrites_assigned.toTouches
  · exact fun _ _ _ _ _ _ _ _ _ =>
      rewrites_assigned.toTouches.trans (rewrites_setJob _ id _).toTouches
  · intro machine origin top connections c' _ hassigned
    exact setJobPowerAndLinks_touches.mono (fun _ _ ht => hassigned.toTouches.trans ht)
      fun _ _ ht => hassigned.toTouches.trans ht

theorem onCancel_wp {E : Error → Controller → Prop} {Q : Unit → Controller → Prop}
    {reason : Option String} (hid : id ∈ c.jobs) (hb : (c.job id).boards = none)
    (hQ : ∀ reason, Q () (c.retired id reason)) : wp (onCancel id reason) Q E c := by
  apply teardownJob_wp
  · exact fun hno => absurd hid hno
  · exact fun _ _ => hQ _
  · exact fun _ hne => absurd hb hne

theorem onFree_retires {reason : Option String} :
    wp (onFree id reason) (fun _ c' => ∃ names, Touches id
        (Controller.retired { c with changedMachines := names } id reason) c')
      (fun _ c' => ∃ names, c' = { c with changedMachines := names } ∨ Touches id
        (Controller.retired { c with changedMachines := names } id reason) c') c := by
  apply onFree_wp
  · exact fun _ => ⟨c.changedMachines, .inl rfl⟩
  · exact fun _ _ => ⟨c.changedMachines, .inl rfl⟩
  intro machine _ _
  apply teardownJob_wp
  · exact fun _ => ⟨_, .inl rfl⟩
  · exact fun _ _ => ⟨_, .refl _⟩
  · intro _ _
    exact setJobPowerAndLinks_touches.mono (fun _ _ ht => ⟨_, ht⟩) fun _ _ ht => ⟨_, .inr ht⟩

/-- The jobs in a queue are with the controller and have no boards, and retired jobs are not with
it any more. -/
structure Roster (depth : ℤ) (t : JobQueue × Controller) : Prop where
  linked : t.1.Linked
  pending : ∀ j, (t.1.job j).pending = true →
    (t.1.job j).id ∈ t.2.jobs ∧ (t.2.job (t.1.job j).id).boards = none
  fresh : ∀ id, t.2.nextId ≤ id → id ∉ t.2.jobs ∧ t.2.retiredJobs.get? id = none
  gone : ∀ id, (t.2.retiredJobs.get? id).isSome → id ∉ t.2.jobs
  postpone : t.1.postpone = depth

namespace Roster

theorem indexed (h : Roster depth t) : Indexed t.1 :=
  ⟨h.linked.known, fun id j hj => (h.linked.ids id j hj).1⟩

theorem congr (h : Roster depth (q, c)) (hs : SameBooks q q') (hpost : q'.postpone = q.postpone)
    (hn : c'.nextId = c.nextId) (hj : c'.jobs = c.jobs) (hr : c'.retiredJobs = c.retiredJobs)
    (hb : ∀ k, (c'.job k).boards = (c.job k).boards) : Roster depth (q', c') := by
  refine ⟨h.linked.congr hs, ?_, ?_, ?_, hpost.trans h.postpone⟩
  · dsimp only
    simp only [hs.job, hj, hb]
    exact h.pending
  · dsimp only
    rw [hn, hj, hr]
    exact h.fresh
  · dsimp only
    rw [hj, hr]
    exact h.gone

theorem queue_congr (h : Roster depth (q, c)) (hs : SameBooks q q')
    (hpost : q'.postpone = q.postpone) : Roster depth (q', c) :=
  h.congr hs hpost rfl rfl rfl fun _ => rfl

theorem same (h : Roster depth (q, c)) (hn : c'.nextId = c.nextId) (hj : c'.jobs = c.jobs)
    (hr : c'.retiredJobs = c.retiredJobs) (hb : ∀ k, (c'.job k).boards = (c.job k).boards) :
    Roster depth (q, c') :=
  h.congr ⟨rfl, rfl, rfl, fun _ => rfl, rfl, fun _ => rfl, fun _ => rfl, fun _ => rfl, fun _ => rfl⟩
    rfl hn hj hr hb

theorem ne (h : Roster depth (q, c)) (hi : (q.job k).pending = true)
    (hj : q.jobs.get? id = some j) (hne : k ≠ j) : (q.job k).id ≠ id := by
  rintro rfl
  exact hne (Option.some.inj ((h.linked.known k hi).symm.trans hj))

theorem lt (h : Roster depth (q, c)) (hid : id ∈ c.jobs) : id < c.nextId := by
  by_contra hn
  exact (h.fresh id (Nat.not_lt.mp hn)).1 hid

theorem placed {m : ℕ} {al : Allocation} {a : Allocator} (h : Roster depth (q, c))
    (hp : (q.job j).pending = true) (hm : m ∈ q.machines.values)
    (hr : Registers (q.machine m).allocator (some al) a) (ht : Touches (q.job j).id c c') :
    Roster depth ((q.setAllocator m a).placed j m al.id, c') := by
  have hjob (i : ℕ) : ((q.setAllocator m a).placed j m al.id).job i = if i = j then
      { q.job i with pending := false, machine := some m, allocationId := some al.id }
      else q.job i := job_placed _ i j m al.id
  refine ⟨h.linked.placed_new hp hm hr, fun i hi => ?_, ?_, ?_, h.postpone⟩
  · dsimp only at hi ⊢
    rw [hjob] at hi ⊢
    split at hi
    · cases hi
    · next hij =>
      rw [if_neg hij, ht.jobs, ht.job _ (h.ne hi (h.linked.known j hp) hij)]
      exact h.pending i hi
  · dsimp only
    rw [ht.nextId, ht.jobs, ht.retiredJobs]
    exact h.fresh
  · dsimp only
    rw [ht.jobs, ht.retiredJobs]
    exact h.gone

theorem retired_fresh (h : Roster depth (q, c)) (hid : id ∈ c.jobs) {reason : Option String}
    (hk : c.nextId ≤ k) :
    k ∉ (c.retired id reason).jobs ∧ (c.retired id reason).retiredJobs.get? k = none := by
  obtain ⟨hnew, hkept⟩ := h.fresh k hk
  refine ⟨fun hin => hnew (mem_retired.mp hin).1, ?_⟩
  by_contra hsome
  obtain hk | hold := retired_gone (Option.isSome_iff_ne_none.mpr hsome)
  · exact hnew (hk ▸ hid)
  · rw [hkept] at hold
    cases hold

theorem retired_gone (h : Roster depth (q, c)) {reason : Option String}
    (hk : ((c.retired id reason).retiredJobs.get? k).isSome) : k ∉ (c.retired id reason).jobs := by
  intro hin
  obtain ⟨hlive, hne⟩ := mem_retired.mp hin
  obtain hk | hk := Controller.retired_gone hk
  · exact hne hk
  · exact h.gone k hk hlive

theorem retired {names : Finset String} {reason : Option String} (h : Roster depth (q, c))
    (hid : id ∈ c.jobs) (hj : q.jobs.get? id = some j) (hp : (q.job j).pending = false)
    (ht : Touches id (Controller.retired { c with changedMachines := names } id reason) c') :
    Roster depth (q, c') := by
  have hnames : Roster depth (q, { c with changedMachines := names }) :=
    h.same rfl rfl rfl fun _ => rfl
  refine ⟨h.linked, fun i hi => ?_, fun k hk => ?_, fun k hk => ?_, h.postpone⟩
  · have hij : i ≠ j := by
      rintro rfl
      rw [hp] at hi
      cases hi
    obtain ⟨hlive, hb⟩ := h.pending i hi
    have hne := h.ne hi hj hij
    dsimp only at hlive hb ⊢
    rw [ht.jobs, ht.job _ hne]
    exact ⟨mem_retired.mpr ⟨hlive, hne⟩, hb⟩
  · dsimp only at hk ⊢
    rw [ht.nextId] at hk
    rw [ht.jobs, ht.retiredJobs]
    exact hnames.retired_fresh hid hk
  · dsimp only at hk ⊢
    rw [ht.retiredJobs] at hk
    rw [ht.jobs]
    exact hnames.retired_gone hk

theorem cancelled (h : Roster depth (q, c)) (hp : (q.job j).pending = true)
    (reason : Option String) :
    Roster depth ((q.withdrawn j).dropped (q.job j).id, c.retired (q.job j).id reason) := by
  have hid := (h.pending j hp).1
  refine ⟨h.linked.cancelled hp, fun i hi => ?_, fun k hk => h.retired_fresh hid hk,
    fun k hk => h.retired_gone hk, h.postpone⟩
  have hjob : ((q.withdrawn j).dropped (q.job j).id).job i =
      if i = j then { q.job i with pending := false } else q.job i := job_withdrawn q i j
  dsimp only at hi ⊢
  rw [hjob] at hi ⊢
  split at hi
  · cases hi
  · next hij =>
    rw [if_neg hij]
    obtain ⟨hlive, hb⟩ := h.pending i hi
    exact ⟨mem_retired.mpr ⟨hlive, h.ne hi (h.linked.known j hp) hij⟩, hb⟩

theorem freed {m a : ℕ} {b : Allocator} (h : Roster depth (q, c))
    (hj : q.jobs.get? id = some j) (hh : q.Holds j m a) (hm : m ∈ q.machines.values)
    (hrun : (Allocator.free a).run (q.machine m).allocator = (.ok (), b)) :
    Roster depth ((q.dropped id).setAllocator m b, c) := by
  obtain ⟨-, hr, -, hty⟩ := wp_of_eq_ok (free_registry (h.linked.registry m hm) a) hrun
  exact ⟨h.linked.freed hj hh hr hty, h.pending, h.fresh, h.gone, h.postpone⟩

/-- Giving back what a job holds that is no longer there raises only when the queues are
processed. -/
theorem free_wp {K : JobQueue × Controller → Prop} {Q : Unit → JobQueue × Controller → Prop}
    {E : Error → JobQueue × Controller → Prop} (h : Roster depth (q, c)) (hid : id ∉ c.jobs)
    (hprocess : ∀ t, K t → wp (processQueue callbacks) Q E t)
    (hunknown : q.jobs.get? id = none → Q () (q, c))
    (hfree : ∀ j m a b, q.jobs.get? id = some j → q.Holds j m a → m ∈ q.machines.values →
      (Allocator.free a).run (q.machine m).allocator = (.ok (), b) →
      K ((q.dropped id).setAllocator m b, c)) :
    wp (JobQueue.free callbacks id) Q E (q, c) := by
  have hplaced (j : ℕ) (hj : q.jobs.get? id = some j) : (q.job j).pending = false := by
    by_contra hp
    have hlive := (h.pending j (by simpa using hp)).1
    dsimp only at hlive
    rw [(h.linked.ids id j hj).1] at hlive
    exact hid hlive
  apply JobQueue.free_wp hprocess hunknown
  · intro j hj hn
    obtain ⟨m, a, hh, -⟩ := h.linked.free_wp hj (hplaced j hj)
    rw [hh.1] at hn
    cases hn
  · intro j hj hn
    obtain ⟨m, a, hh, -⟩ := h.linked.free_wp hj (hplaced j hj)
    rw [hh.2] at hn
    cases hn
  · intro j m a hj hm ha
    obtain ⟨m', a', hh, hmem, hfree'⟩ := h.linked.free_wp hj (hplaced j hj)
    obtain rfl := Option.some.inj (hm.symm.trans hh.1)
    obtain rfl := Option.some.inj (ha.symm.trans hh.2)
    obtain ⟨_, b, hrun, -⟩ := wp_returns hfree'
    exact wp_intro_ok hrun (hfree j m a b hj hh hmem hrun)

end Roster

theorem roster_cancel {E : Error → Controller → Prop} {reason : Option String}
    (h : Roster depth (q, c)) (hp : (q.job j).pending = true) :
    wp (onCancel (q.job j).id reason)
      (fun _ c' => Roster depth ((q.withdrawn j).dropped (q.job j).id, c')) E c := by
  obtain ⟨hlive, hb⟩ := h.pending j hp
  exact onCancel_wp hlive hb fun reason => h.cancelled hp reason

theorem roster_free {reason : Option String} (h : Roster depth (q, c)) (hid : id ∈ c.jobs)
    (hj : q.jobs.get? id = some j) (hp : (q.job j).pending = false) :
    wp (onFree id reason) (fun _ c' => Roster depth (q, c')) (fun _ c' => Roster depth (q, c'))
      c := by
  apply onFree_retires.mono
  · exact fun _ c' ⟨names, ht⟩ => h.retired hid hj hp ht
  · intro _ c' ⟨names, hc⟩
    obtain rfl | ht := hc
    · exact h.same rfl rfl rfl fun _ => rfl
    · exact h.retired hid hj hp ht

theorem roster_steps (depth : ℤ) :
    Steps (Roster depth) (Roster depth) fun _ => Roster depth where
  alloc q c m j rest h hh hp := by
    apply (alloc_registers _ _).mono
    · intro res a hr
      cases res with
      | none => exact h.queue_congr (sameBooks_setAllocator (hr.none rfl)) rfl
      | some al =>
        exact onAllocate_touches.mono (fun _ _ ht => h.placed hp hh.machine hr ht)
          fun _ _ ht => h.placed hp hh.machine hr ht
    · exact fun _ a ha => h.queue_congr (sameBooks_setAllocator ha) rfl
  skip q c m j rest h _ _ := h.queue_congr (sameBooks_setQueue m rest) rfl
  offer q c j m h _ _ _ := h.queue_congr (sameBooks_setQueue m _) rfl
  cancel q c j reason h hp := roster_cancel h hp
  freed q c id j reason h hid hj hp := roster_free h hid hj hp
  read q c reads h := h.same rfl rfl rfl fun _ => rfl
  refresh q c id lasthost alive reads h :=
    h.same rfl rfl rfl fun _ => job_refreshed_field (·.boards) (fun _ _ _ => rfl) _ _ _
  power q c id power linkEnable h _ _ := by
    apply (setJobPowerAndLinks_touches.and setJobPowerAndLinks_boards).mono
    · exact fun _ c' ⟨ht, hb⟩ => h.same ht.nextId ht.jobs ht.retiredJobs hb
    · exact fun _ c' ⟨ht, hb⟩ => h.same ht.nextId ht.jobs ht.retiredJobs hb
  free q c m h _ := by
    apply (checkFree_passes _).mono
    · exact fun _ a ha => h.queue_congr (sameBooks_setAllocator ha) rfl
    · exact fun _ a ha => h.queue_congr (sameBooks_setAllocator ha) rfl

theorem roster_rules (depth : ℤ) : JobRules (Roster depth) fun _ => Roster depth where
  toSteps := roster_steps depth
  indexed _ h := h.indexed
  lost _ _ _ h _ _ := h

namespace Roster

theorem enlisted {owner : String} {alive : Option Keepalive} {host : Option String} {reads : ℕ}
    (h : Roster depth (q, c)) :
    Roster depth (q, Controller.createdJob { c with nextId := c.nextId + 1, reads := reads }
      c.nextId owner alive host) := by
  obtain ⟨hnew, hkept⟩ := h.fresh c.nextId le_rfl
  dsimp only at hnew hkept
  refine ⟨h.linked, fun i hi => ?_, fun k hk => ?_, fun k hk => ?_, h.postpone⟩
  · obtain ⟨hlive, hb⟩ := h.pending i hi
    refine ⟨List.mem_append_left _ hlive, ?_⟩
    dsimp only
    rw [job_createdJob]
    split
    · rfl
    · exact hb
  · change c.nextId + 1 ≤ k at hk
    have hk' : c.nextId ≤ k := by omega
    refine ⟨fun hin => ?_, (h.fresh k hk').2⟩
    obtain hin | hin := List.mem_append.mp hin
    · exact (h.fresh k hk').1 hin
    · have hk := List.mem_singleton.mp hin
      omega
  · intro hin
    obtain hin | hin := List.mem_append.mp hin
    · exact h.gone k hk hin
    · obtain rfl := List.mem_singleton.mp hin
      change (c.retiredJobs.get? c.nextId).isSome = true at hk
      rw [hkept] at hk
      cases hk

theorem created {owner : String} {alive : Option Keepalive} {host : Option String} {reads : ℕ}
    (h : Roster depth (q, c)) (hnone : q.jobs.get? c.nextId = none) (machine : Option MachineName)
    (tags : Finset String) (request : Request) :
    Roster depth (q.created ⟨c.nextId, true, machine, tags, request, none, none⟩,
      Controller.createdJob { c with nextId := c.nextId + 1, reads := reads } c.nextId owner alive
        host) := by
  have h' : Roster depth (q, Controller.createdJob { c with nextId := c.nextId + 1, reads := reads }
    c.nextId owner alive host) := h.enlisted
  refine ⟨h.linked.created _ rfl rfl rfl hnone, fun i hi => ?_, h'.fresh, h'.gone, h.postpone⟩
  have hrecord : (q.created ⟨c.nextId, true, machine, tags, request, none, none⟩).job i =
      if i = q.nextJob then ⟨c.nextId, true, machine, tags, request, none, none⟩ else q.job i :=
    JobQueue.job_setJob i q.nextJob _
  dsimp only at hi ⊢
  rw [hrecord] at hi ⊢
  split at hi
  · next hin =>
    rw [if_pos hin, job_createdJob, if_pos rfl]
    exact ⟨List.mem_append_right _ (List.mem_singleton_self _), rfl⟩
  · next hin =>
    rw [if_neg hin]
    exact h'.pending i hi

theorem postponed (h : Roster depth (q, c)) (p : ℤ) : Roster p ({ q with postpone := p }, c) :=
  ⟨h.linked.congr ⟨rfl, rfl, rfl, fun _ => rfl, rfl, fun _ => rfl, fun _ => rfl, fun _ => rfl,
    fun _ => rfl⟩, h.pending, h.fresh, h.gone, rfl⟩

end Roster

/-- While the jobs of a machine are destroyed, `rest` remains to be visited. -/
structure Sweeping (q : JobQueue) (m : ℕ) (rest : List ℕ) (t : JobQueue × Controller) : Prop where
  job : t.1.job = q.job
  machines : t.1.machines = q.machines
  nodup : rest.Nodup
  known : ∀ j ∈ rest, t.1.jobs.get? (q.job j).id = some j
  left : ∀ j ∈ t.1.jobs.values, (q.job j).machine = some m → j ∈ rest

namespace Sweeping

variable {m : ℕ} {rest : List ℕ}

theorem start (h : q.Linked) (hjob : t.1.job = q.job) (hjobs : t.1.jobs = q.jobs)
    (hmachines : t.1.machines = q.machines) : Sweeping q m q.jobs.values t :=
  ⟨hjob, hmachines, Dict.values_nodup fun _ _ _ hi hj => h.inj hi hj,
    fun j hj => by rw [hjobs]; exact h.get hj, fun j hj _ => by rwa [hjobs] at hj⟩

theorem skip (h : Sweeping q m (j :: rest) t) (hm : (q.job j).machine ≠ some m) :
    Sweeping q m rest t := by
  refine ⟨h.job, h.machines, h.nodup.of_cons, fun i hi => h.known i (List.mem_cons_of_mem j hi),
    fun i hi him => ?_⟩
  obtain rfl | hi := List.mem_cons.mp (h.left i hi him)
  · exact absurd him hm
  · exact hi

theorem swept {t' : JobQueue × Controller} (h : Sweeping q m (j :: rest) t) (hl : t.1.Linked)
    (hjob : t'.1.job = t.1.job) (hjobs : t'.1.jobs = t.1.jobs.erase (q.job j).id)
    (hmachines : t'.1.machines = t.1.machines) : Sweeping q m rest t' := by
  obtain ⟨hnotin, hnodup⟩ := List.nodup_cons.mp h.nodup
  have hj := h.known j List.mem_cons_self
  refine ⟨hjob.trans h.job, hmachines.trans h.machines, hnodup, fun i hi => ?_, fun i hi him => ?_⟩
  · have hi' := h.known i (List.mem_cons_of_mem j hi)
    rw [hjobs, Dict.get?_erase, if_neg]
    · exact hi'
    · intro he
      rw [← he, hj] at hi'
      exact hnotin (Option.some.inj hi' ▸ hi)
  · rw [hjobs] at hi
    obtain ⟨hi, hij⟩ := (hl.mem_dropped hj).mp hi
    exact (List.mem_cons.mp (h.left i hi him)).resolve_left hij

end Sweeping

/-- What is kept when the jobs of the machine `m` are destroyed, with `F` for an early end. -/
structure SweepRules (depth : ℤ) (m : ℕ) (K : JobQueue × Controller → Prop)
    (F : Error → JobQueue × Controller → Prop) : Prop where
  freed : ∀ q c id j, Roster depth (q, c) → K (q, c) → q.jobs.get? id = some j →
    (q.job j).pending = false → (q.job j).machine = some m →
    wp (onFree id (some "Machine removed.")) (fun _ c' => K (q, c')) (fun e c' => F e (q, c')) c
  free : ∀ q c id j a b, Roster depth (q, c) → K (q, c) → id ∉ c.jobs →
    q.jobs.get? id = some j → q.Holds j m a → m ∈ q.machines.values →
    (Allocator.free a).run (q.machine m).allocator = (.ok (), b) →
    K ((q.dropped id).setAllocator m b, c)

theorem SweepRules.sweep {K : JobQueue × Controller → Prop}
    {F : Error → JobQueue × Controller → Prop} {m : ℕ} {rest : List ℕ}
    (h : SweepRules (depth + 1) m K F) {q₀ : JobQueue} (hs : Sweeping q₀ m (j :: rest) t)
    (hr : Roster (depth + 1) t) (hK : K t) (hdepth : 0 < depth)
    (hm : (t.1.job j).machine = some m) :
    wp (JobQueue.destroyJob callbacks (t.1.job j).id (some "Machine removed.") >>= fun _ =>
        JobQueue.free callbacks (t.1.job j).id)
      (fun _ t' => Sweeping q₀ m rest t' ∧ Roster (depth + 1) t' ∧ K t')
      (fun e t' => Roster (depth + 1) t' ∧ F e t') t := by
  obtain ⟨q, c⟩ := t
  have hj := hs.known j List.mem_cons_self
  rw [← hs.job] at hj
  dsimp only at hj hm ⊢
  have hp : (q.job j).pending = false := by
    by_contra hp
    have hnone := (hr.linked.unplaced j (by simpa using hp)).1
    dsimp only at hnone
    rw [hm] at hnone
    cases hnone
  have hpost : q.postpone ≠ 0 := by
    have hpost := hr.postpone
    dsimp only at hpost
    omega
  apply sweep_wp hpost
  · intro hn
    rw [hj] at hn
    cases hn
  · intro i hi hpi
    rw [← Option.some.inj (hj.symm.trans hi), hp] at hpi
    cases hpi
  · intro i hi hpi
    obtain rfl := Option.some.inj (hj.symm.trans hi)
    have hroster : wp (onFree (q.job j).id (some "Machine removed."))
        (fun _ c' => Roster (depth + 1) (q, c') ∧ (q.job j).id ∉ c'.jobs)
        (fun _ c' => Roster (depth + 1) (q, c')) c := by
      by_cases hid : (q.job j).id ∈ c.jobs
      · apply onFree_retires.mono
        · intro _ c' ⟨names, ht⟩
          refine ⟨hr.retired hid hj hp ht, fun hin => ?_⟩
          rw [ht.jobs] at hin
          exact (mem_retired.mp hin).2 rfl
        · intro _ c' ⟨names, hc⟩
          obtain rfl | ht := hc
          · exact hr.same rfl rfl rfl fun _ => rfl
          · exact hr.retired hid hj hp ht
      · apply onFree_wp
        · exact fun _ => hr
        · exact fun hid' => absurd hid' hid
        · exact fun _ hid' => absurd hid' hid
    apply (hroster.and (h.freed q c _ j hr hK hj hp hm)).mono _ fun _ _ he => he
    intro _ c' ⟨⟨hr', hid⟩, hK'⟩
    apply hr'.free_wp hid (K := fun t' => t'.1.postpone ≠ 0 ∧
      Sweeping q₀ m rest t' ∧ Roster (depth + 1) t' ∧ K t')
    · exact fun t' ht' => processQueue_postponed ht'.1 ht'.2
    · intro hn
      rw [hj] at hn
      cases hn
    · intro i m' a b hi hh hm' hrun
      have hjob : (q₀.job j).id = (q.job j).id := congrArg (fun job => (job j).id) hs.job.symm
      have hij := Option.some.inj (hj.symm.trans hi)
      have hmm : m = m' := Option.some.inj (hm.symm.trans (hij ▸ hh.1))
      rw [← hmm] at hh hm' hrun ⊢
      exact ⟨hpost, hs.swept hr.linked rfl (hjob ▸ rfl) rfl, hr'.freed hi hh hm' hrun,
        h.free q c' _ i a b hr' hK' hid hi hh hm' hrun⟩

theorem SweepRules.removeMachine {K : ℕ → JobQueue × Controller → Prop}
    {E F : Error → JobQueue × Controller → Prop} {Q : Unit → JobQueue × Controller → Prop}
    {name : String} (h : ∀ m, SweepRules (depth + 1) m (K m) F) (hr : Roster depth (q, c))
    (hdepth : 0 < depth)
    (hK : ∀ m, q.machines.get? name = some m → K m ({ q with postpone := depth + 1 }, c))
    (hunknown : q.machines.get? name = none → E .keyError (q, c))
    (hleave : ∀ m q' c', q.machines.get? name = some m → q'.machines = q.machines →
      K m (q', c') →
      (∀ j ∈ q'.jobs.values, (q'.job j).machine ≠ some m) → m ∉ (q'.machines.erase name).values →
      Roster depth ({ q' with machines := q'.machines.erase name, postpone := depth }, c') →
      Q () ({ q' with machines := q'.machines.erase name, postpone := depth }, c'))
    (hraise : ∀ e q c, Roster depth ({ q with postpone := depth }, c) → F e (q, c) →
      E e ({ q with postpone := depth }, c)) :
    wp (JobQueue.removeMachine callbacks name) Q E (q, c) := by
  have hpost : q.postpone = depth := hr.postpone
  apply removeMachine_postponed (F := fun e t => Roster (depth + 1) t ∧ F e t)
    (J := fun m rest t => Sweeping q m rest t ∧ Roster (depth + 1) t ∧ K m t)
  · omega
  · exact hunknown
  · intro m hm
    rw [hpost]
    exact ⟨.start hr.linked rfl rfl rfl, hr.postponed (depth + 1), hK m hm⟩
  · intro m rest t ⟨_, ht, _⟩
    rw [ht.postpone, hpost]
  · intro m j rest t ⟨hs, ht, hKt⟩ hj
    rw [hs.job] at hj
    exact ⟨hs.skip hj, ht, hKt⟩
  · exact fun m j rest t ⟨hs, ht, hKt⟩ hj => (h m).sweep hs ht hKt hdepth hj
  · intro m ⟨q', c'⟩ hm ⟨hs, ht, hKt⟩
    rw [hpost]
    have hempty : ∀ j ∈ q'.jobs.values, (q'.job j).machine ≠ some m := by
      intro j hj hjm
      have hjob := hs.job
      dsimp only at hjob
      rw [hjob] at hjm
      exact List.not_mem_nil (hs.left j hj hjm)
    have hm' : q'.machines.get? name = some m := by
      have hmachines := hs.machines
      dsimp only at hmachines
      rwa [hmachines]
    obtain ⟨hlinked, hgone⟩ := ht.linked.erased hm' hempty
    apply hleave m q' c' hm hs.machines hKt hempty hgone
    exact Roster.postponed (q := { q' with machines := q'.machines.erase name })
      ⟨hlinked, ht.pending, ht.fresh, ht.gone, ht.postpone⟩ depth
  · intro e ⟨q', c'⟩ ⟨ht, he⟩
    have hpost' : q'.postpone = depth + 1 := ht.postpone
    apply exit_postponed
    · omega
    · rw [hpost', Int.add_sub_cancel]
      exact hraise e q' c' (ht.postponed depth) he

theorem roster_sweep (depth : ℤ) (m : ℕ) :
    SweepRules depth m (fun _ => True) fun _ _ => True where
  freed _ _ _ _ _ _ _ _ _ := wp_trivial _
  free _ _ _ _ _ _ _ _ _ _ _ _ _ := trivial

namespace Roster

theorem tables (h : Roster depth (q, c)) (hn : c'.nextId = c.nextId) (hj : c'.jobs = c.jobs)
    (hr : c'.retiredJobs = c.retiredJobs) (hjob : c'.job = c.job) : Roster depth (q, c') :=
  h.same hn hj hr fun _ => by rw [hjob]

theorem added (h : Roster depth (q, c)) {name : String} (hnone : q.machines.get? name = none)
    (width height : ℤ) (tags : Option (Finset String)) (deadBoards : Finset Board)
    (deadLinks : Finset BoardLink) :
    Roster depth (q.added name width height tags deadBoards deadLinks, c) :=
  ⟨h.linked.added hnone width height tags deadBoards deadLinks, h.pending, h.fresh, h.gone,
    h.postpone⟩

theorem moved (h : Roster depth (q, c)) (name : String) :
    Roster depth ({ q with machines := q.machines.moveToEnd name }, c) :=
  h.queue_congr ⟨rfl, rfl, rfl, fun _ => Dict.get?_moveToEnd .., rfl, fun _ => rfl, fun _ => rfl,
    fun _ => rfl, fun _ => rfl⟩ rfl

end Roster

theorem roster_assign {machines : Machines} :
    AssignRules machines (fun _ => Roster 1) fun _ => Roster 1 where
  postponed _ t h := h.postpone.symm ▸ Int.one_pos
  remove l name t h _ := by
    obtain ⟨q, c⟩ := t
    apply SweepRules.removeMachine (roster_sweep 2) h Int.one_pos fun _ _ => trivial
    · exact fun _ => h
    · intro m q' c' _ _ _ _ _ hr
      exact ⟨fun _ => hr, fun _ => hr.tables rfl rfl rfl rfl, fun _ _ => hr.tables rfl rfl rfl rfl⟩
    · exact fun _ _ _ hr _ => hr
  stop l t h := h.tables (q := t.1) (c := t.2) rfl rfl rfl rfl
  change name old new q c h _ _ _ :=
    ⟨fun _ => h, fun m _ => (h.queue_congr (sameBooks_modified m _ _ _) rfl).tables rfl rfl rfl rfl⟩
  add name new q c h _ _ := by
    obtain ⟨hn, hj, hr, hjob⟩ := registered_jobs c name new
    exact ⟨fun _ => h.tables hn hj hr hjob, fun hnone =>
      (h.added hnone new.width new.height _ _ _).tables hn hj hr hjob⟩
  move name q c h :=
    ⟨fun _ => h, fun _ => h.tables rfl rfl rfl rfl, (h.moved name).tables rfl rfl rfl rfl⟩

theorem exit_roster (depth : ℤ) (h : Roster (depth + 1) t) :
    wp (JobQueue.exit callbacks) (fun _ => Roster depth) (fun _ => Roster depth) t := by
  obtain ⟨q, c⟩ := t
  apply (roster_rules depth).exit (fun _ _ he => he) (fun _ _ ht => ht)
  · exact fun _ _ ht => ht.queue_congr sameBooks_cleared rfl
  · have hpost : q.postpone = depth + 1 := h.postpone
    rw [hpost, Int.add_sub_cancel]
    exact h.postponed depth

theorem createJob_roster {ownerhost owner : Option String} {keepalive : Option (Option ℚ)}
    {machine : Option MachineName} {tags : Option Tags} {request : Request}
    (h : Roster depth t) :
    wp (createJob ownerhost owner keepalive machine tags request) (fun _ => Roster depth)
      (fun _ => Roster depth) t := by
  obtain ⟨q, c⟩ := t
  apply (roster_rules depth).createJob (fun _ _ he => he) (fun _ _ ht => ht) h
  · exact fun _ _ _ _ _ => h.enlisted
  · exact fun _ _ _ tags hnone => h.created hnone machine tags request
  · exact fun _ _ _ ht => ht.tables rfl rfl rfl rfl

theorem free_roster (h : Roster depth t) (hid : id ∉ t.2.jobs) :
    wp (JobQueue.free callbacks id) (fun _ => Roster depth) (fun _ => Roster depth) t := by
  obtain ⟨q, c⟩ := t
  apply h.free_wp hid fun _ => (roster_rules depth).processQueue
  · exact fun _ => h
  · exact fun j m a b hj hh hm hrun => h.freed hj hh hm hrun

theorem Roster.uncounted (h : Roster depth (q, c)) (id : ℕ) : Roster depth (q, c.uncounted id) := by
  refine h.same rfl rfl rfl fun k => ?_
  rw [job_uncounted]
  split
  · next hk => rw [hk]
  · rfl

theorem Roster.readied (h : Roster depth (q, c)) (id : ℕ) :
    Roster depth (q, (c.uncounted id).readied id) := by
  refine (h.uncounted id).same rfl rfl rfl fun k => ?_
  rw [Controller.readied, job_setJob]
  split
  · next hk => rw [hk]
  · rfl

theorem complete_roster {b : ℕ} {success : Bool} (h : Roster depth t) :
    wp (complete b success) (fun _ => Roster depth) (fun _ => Roster depth) t := by
  obtain ⟨q, c⟩ := t
  apply complete_wp
  · exact fun _ => h
  intro r rest _
  apply bmpOnRequestComplete_wp (J := Roster depth)
  · exact h.tables rfl rfl rfl rfl
  · exact fun _ reason t ht => (roster_rules depth).destroyJob ht
  · exact fun q c ht _ => ht.uncounted _
  · exact fun q c ht _ => ht.uncounted _
  · intro q c ht _
    apply freeRetired_wp
    · exact fun _ => ht.readied _
    · exact fun hretired => free_roster (ht.readied _) (ht.gone _ hretired)
  · exact fun q c ids ht => ht.tables rfl rfl rfl rfl

theorem setMaxRetiredJobs_roster (value : ℕ) (h : Roster depth t) :
    wp (own (setMaxRetiredJobs value)) (fun _ => Roster depth) (fun _ => Roster depth) t := by
  obtain ⟨q, c⟩ := t
  simp only [wp_own, setMaxRetiredJobs_nat, wp_update]
  have hold (k : ℕ) (hk : ((c.limited value).retiredJobs.get? k).isSome) : (c.retiredJobs.get? k).isSome := by
    obtain ⟨reason, hr⟩ := Option.isSome_iff_exists.mp hk
    exact Option.isSome_iff_exists.mpr ⟨reason, get?_iterate_dropFirst _ hr⟩
  refine ⟨h.linked, h.pending, fun k hk => ?_, fun k hk => h.gone k (hold k hk), h.postpone⟩
  obtain ⟨hnew, hkept⟩ := h.fresh k hk
  refine ⟨hnew, ?_⟩
  by_contra hne
  have hs := hold k (Option.isSome_iff_ne_none.mpr hne)
  dsimp only at hkept
  rw [hkept] at hs
  cases hs

theorem setMachines_roster {machines : Machines} (h : Roster 0 t) :
    wp (setMachines machines) (fun _ => Roster 0) (fun _ => Roster 0) t := by
  apply roster_assign.setMachines
  · rw [h.postpone]
    exact Roster.postponed (q := t.1) (c := t.2) h 1
  · exact fun _ ht => exit_roster 0 ht
  · exact fun _ _ ht => exit_roster 0 ht
  · exact fun q c names ht => ht.tables rfl rfl rfl rfl

theorem stop_wp {Q : Unit → JobQueue × Controller → Prop}
    {E : Error → JobQueue × Controller → Prop} (hQ : ∀ bmps, Q () (q, c.stopped bmps))
    (hE : ∀ bmps, (∃ name, (c.machines.get? name).isSome ∧ c.bmpControllers.get? name = none) →
      E .keyError (q, c.stopped bmps)) : wp (own stop) Q E (q, c) := by
  have hnil : c.stopped [] = c := by
    unfold stopped
    simp only [List.not_mem_nil, if_false]
  have htwice (l l' : List ℕ) : (c.stopped l).stopped l' = c.stopped (l ++ l') := by
    unfold stopped
    congr 1
    funext b
    by_cases hl : b ∈ l <;> by_cases hl' : b ∈ l' <;> simp [hl, hl', AsyncBmpController.stop]
  have hloop (names : List String) (l : List ℕ)
      (hnames : ∀ name ∈ names, (c.machines.get? name).isSome) :
      wp (stopMachines names) (fun _ c' => ∃ l', c' = c.stopped l')
        (fun e c' => e = .keyError ∧ (∃ l', c' = c.stopped l') ∧
          ∃ name, (c.machines.get? name).isSome ∧ c.bmpControllers.get? name = none)
        (c.stopped l) := by
    induction names generalizing l with
    | nil => exact ⟨l, rfl⟩
    | cons name names ih =>
      simp only [stopMachines, wp_bind, wp_state]
      have hsame : (c.stopped l).bmpControllers = c.bmpControllers := rfl
      rw [hsame]
      cases hc : c.bmpControllers.get? name with
      | none => exact ⟨rfl, ⟨l, rfl⟩, name, hnames name List.mem_cons_self, hc⟩
      | some controllers =>
        dsimp only
        rw [wp_bind, wp_update, htwice]
        exact ih _ fun name' hname' => hnames name' (List.mem_cons_of_mem name hname')
  rw [wp_own, stop, wp_bind, wp_state]
  have hstart := hloop c.machines.keys [] fun name hname =>
    Option.isSome_iff_exists.mpr (Dict.mem_keys.mp hname)
  rw [hnil] at hstart
  apply hstart.mono
  · rintro _ _ ⟨l, rfl⟩
    exact hQ l
  · rintro _ _ ⟨rfl, ⟨l, rfl⟩, hname⟩
    exact hE l hname

theorem exec_roster {op : Operation} (h : Roster 0 t) :
    wp (exec op) (fun _ => Roster 0) (fun _ => Roster 0) t := by
  have hrules := roster_rules 0
  cases op with
  | createJob ownerhost owner keepalive machine tags request =>
    simp only [exec, wp_bind]
    exact (createJob_roster h).mono (fun _ _ ht => ht) fun _ _ he => he
  | jobKeepalive clienthost id => exact hrules.jobKeepalive h
  | powerOnJobBoards clienthost id => exact hrules.setJobBoards h
  | powerOffJobBoards clienthost id => exact hrules.setJobBoards h
  | destroyJob id reason => exact hrules.destroyJob h
  | destroyTimedOutJobs => exact hrules.destroyTimedOutJobs h
  | checkFree => exact hrules.checkFree h
  | setMaxRetiredJobs value => exact setMaxRetiredJobs_roster value h
  | setMachines machines => exact setMachines_roster h
  | stop =>
    exact stop_wp (q := t.1) (c := t.2) (fun _ => Roster.tables (q := t.1) (c := t.2) h rfl rfl rfl rfl)
      fun _ _ => Roster.tables (q := t.1) (c := t.2) h rfl rfl rfl rfl
  | complete b success => exact complete_roster h

theorem start_roster (s : Setup) : Roster 0 s.start :=
  ⟨⟨nofun, nofun, nofun, nofun, nofun, nofun, nofun, nofun⟩, nofun,
    fun _ _ => ⟨List.not_mem_nil, rfl⟩, nofun, rfl⟩

/-- Whatever is done, and whether or not it raises, the jobs in the queues are with the
controller, and what the allocators have given out belongs to jobs. -/
theorem reachable_roster {s : Setup} (h : (system s).Reachable t) : Roster 0 t := by
  apply h.invariant
  · rintro _ rfl
    exact start_roster s
  · rintro t op _ - ht rfl
    exact wp_same (exec_roster ht)

end SpallocServer.Controller
