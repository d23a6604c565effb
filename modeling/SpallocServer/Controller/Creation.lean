import SpallocServer.Controller.Service

namespace SpallocServer.Controller

open Foundation Prog JobQueue Allocator

variable {q q' : JobQueue} {c c' : Controller} {t t' : JobQueue × Controller} {id j m k b : ℕ}
  {depth : ℤ} {debt : ℕ → ℕ} {S : Allocator → Prop}
  {permitted : Configuration.Machine → JobQueue × Controller → Prop}

namespace Serving

theorem seen (h : Serving S debt depth (q, c)) (ids : Finset ℕ) :
    Serving S debt depth (q, { c with changedJobs := ids }) where
  balanced := ⟨h.roster.tables rfl rfl rfl rfl,
    h.tally.same rfl rfl rfl rfl rfl (fun _ hk => hk) rfl⟩
  provided := h.provided.narrows
    (narrows_controller rfl rfl rfl rfl (fun _ => rfl) fun _ => rfl)
  employed := h.employed

theorem popped {r : AtomicRequests} {rest : List AtomicRequests}
    (h : Serving S settled depth (q, c)) (hr : (c.bmp b).requests = r :: rest) :
    Serving S (owing r.onDone) depth (q, c.setBmp b (c.bmp b).popped) where
  balanced := ⟨h.roster.tables rfl rfl rfl rfl, h.tally.popped hr⟩
  provided := h.provided.narrows
    (narrows_controller rfl rfl rfl rfl (fun _ => rfl) fun _ => rfl)
  employed := h.employed

theorem postponed (h : Serving S debt depth (q, c)) (p : ℤ) :
    Serving S debt p ({ q with postpone := p }, c) where
  balanced := ⟨h.roster.postponed p, h.tally⟩
  provided := h.provided.narrows (narrows_postponed q c p)
  employed := h.employed

theorem cleared (h : Serving S debt depth (q, c)) : Serving S debt depth (q.cleared, c) where
  balanced := ⟨h.roster.queue_congr sameBooks_cleared rfl, h.tally⟩
  provided := h.provided.narrows (narrows_cleared q c)
  employed := h.employed

theorem uncounted (h : Serving S (owing id) depth (q, c)) :
    Serving S settled depth (q, c.uncounted id) where
  balanced := ⟨h.roster.uncounted id, h.tally.uncounted⟩
  provided := h.provided.narrows ((sameView_uncounted q c id).narrows rfl rfl)
  employed := h.employed.uncounted (owing_waits h.tally.toCounted)

theorem readied (h : Serving S (owing id) depth (q, c)) :
    Serving S settled depth (q, (c.uncounted id).readied id) where
  balanced := ⟨h.roster.readied id, h.tally.readied⟩
  provided := h.uncounted.provided.narrows
    ((sameView_readied q _ id).narrows rfl rfl)
  employed := h.employed.readied (owing_waits h.tally.toCounted)

theorem known_of_allocated (h : Serving S debt depth (q, c)) (hid : id ∈ c.jobs)
    (ha : (c.job id).allocatedMachine ≠ none) : ∃ j, q.jobs.get? id = some j := by
  obtain ⟨machine, hmachine⟩ := Option.ne_none_iff_exists'.mp ha
  obtain ⟨j, _, _, hj, -⟩ := h.furnished.hosted id hid machine hmachine
  exact ⟨j, hj⟩

theorem destroyJob {reason : Option String} (hS : Sound S) (h : Serving S debt depth (q, c))
    (hknown : id ∈ c.jobs → ∃ j, q.jobs.get? id = some j) :
    wp (destroyJob id reason) (fun _ => Serving S debt depth) (fun _ _ => False) (q, c) := by
  have hsteps := serving_steps hS debt depth
  have hids := h.roster.indexed.ids
  simp only [Controller.destroyJob, wp_bind, wp_controller]
  split
  · next hid =>
    apply destroyJob_wp (I := Serving S debt depth)
    · exact fun t ht => processQueue_wp (q := t.1) (w := t.2) ⟨hsteps.alloc, hsteps.skip⟩ ht
    · intro hnone
      obtain ⟨j, hj⟩ := hknown hid
      rw [hnone] at hj
      cases hj
    · intro j hj hp
      have hcancel := hsteps.cancel q c j reason h hp
      rwa [hids id j hj] at hcancel ⊢
    · intro j hj hp
      rw [hids id j hj]
      exact hsteps.freed q c id j reason h hid hj hp
  · exact h

theorem freed {a : ℕ} {after : Allocator} (h : Serving Robust debt depth (q, c)) (hid : id ∉ c.jobs)
    (hj : q.jobs.get? id = some j) (hh : q.Holds j m a) (hm : m ∈ q.machines.values)
    (hrun : (Allocator.free a).run (q.machine m).allocator = (.ok (), after)) :
    Serving Robust debt depth ((q.dropped id).setAllocator m after, c) :=
  ⟨⟨h.roster.freed hj hh hm hrun, h.tally⟩,
    (provided_rules lasting_robust).freed depth q c id j m a after h.roster h.provided hid hj hh hm hrun, h.employed⟩

theorem freeJob (h : Serving Robust debt depth (q, c)) (hid : id ∉ c.jobs) :
    wp (JobQueue.free callbacks id) (fun _ => Serving Robust debt depth) (fun _ _ => False) (q, c) := by
  have hsteps := serving_steps sound_robust debt depth
  apply h.roster.free_wp hid (K := Serving Robust debt depth)
  · exact fun t ht => processQueue_wp (q := t.1) (w := t.2) ⟨hsteps.alloc, hsteps.skip⟩ ht
  · exact fun _ => h
  · exact fun j m a after hj hh hm hrun => h.freed hid hj hh hm hrun

theorem complete {success : Bool} (h : Serving Robust settled depth t) :
    wp (complete b success) (fun _ => Serving Robust settled depth) (fun _ _ => False) t := by
  obtain ⟨q, c⟩ := t
  apply complete_wp
  · exact fun _ => h
  intro r rest hr
  apply bmpOnRequestComplete_wp (J := Serving Robust (owing r.onDone) depth)
  · exact h.popped hr
  · intro _ reason t ht
    obtain ⟨q, c⟩ := t
    apply ht.destroyJob sound_robust
    intro hid
    have hwaits : 1 ≤ (c.job r.onDone).bmpRequestsUntilReady := owing_waits ht.tally.toCounted
    have hne : (c.job r.onDone).bmpRequestsUntilReady ≠ 0 := by omega
    exact ht.known_of_allocated hid (ht.employed r.onDone hne)
  · intro q c ht hneg
    have hwaits : 1 ≤ (c.job r.onDone).bmpRequestsUntilReady := owing_waits ht.tally.toCounted
    omega
  · exact fun q c ht _ => ht.uncounted
  · intro q c ht _
    apply freeRetired_wp
    · exact fun _ => ht.readied
    · exact fun hretired => ht.readied.freeJob (ht.roster.gone _ hretired)
  · exact fun q c ids ht => ht.seen ids

theorem calm (h : Serving S debt depth t) (hcalm : t.1.Calm) : Serving Sturdy debt depth t :=
  ⟨h.balanced, ⟨h.furnished, hcalm.serviceable h.provided.serviceable⟩, h.employed⟩

end Serving

theorem complete_employed {success : Bool} (h : Balanced settled depth t) (he : Employed t.2) :
    wp (complete b success) (fun _ t => Employed t.2) (fun _ _ => True) t := by
  obtain ⟨q, c⟩ := t
  apply complete_wp
  · exact fun _ => he
  intro r rest hr
  apply bmpOnRequestComplete_wp
    (J := fun t => Balanced (owing r.onDone) depth t ∧ Employed t.2)
  · exact ⟨⟨h.1.tables rfl rfl rfl rfl, h.2.popped hr⟩, he⟩
  · intro _ reason t ht
    apply (((balanced_rules _ depth).destroyJob ht.1).and
      ((employed_rules depth).destroyJob ⟨ht.1.1, ht.2⟩)).mono _ fun _ _ _ => trivial
    exact fun _ _ ht => ⟨ht.1, ht.2.2⟩
  · exact fun _ _ _ _ => trivial
  · exact fun q c ht _ => ht.2.uncounted (owing_waits ht.1.2.toCounted)
  · intro q c ht _
    have hready : Employed ((c.uncounted r.onDone).readied r.onDone) :=
      ht.2.readied (owing_waits ht.1.2.toCounted)
    have hroster : Roster depth (q, (c.uncounted r.onDone).readied r.onDone) := ht.1.1.readied _
    apply freeRetired_wp
    · exact fun _ => hready
    · intro hretired
      apply (hroster.free_wp (ht.1.1.gone _ hretired)
        (K := fun t => Roster depth t ∧ Employed t.2)
        (fun t ht => (employed_rules depth).processQueue ht) _ _).mono (fun _ _ ht => ht.2)
          fun _ _ _ => trivial
      · exact fun _ => ⟨hroster, hready⟩
      · exact fun j m a b hj hh hm hrun => ⟨hroster.freed hj hh hm hrun, hready⟩
  · exact fun _ _ _ ht => ht

theorem exec_employed {op : Operation} (h : Balanced settled 0 t) (he : Employed t.2)
    (hop : op ≠ .stop) :
    wp (exec op) (fun _ t => Employed t.2)
      (fun _ t => (∀ b success, op ≠ .complete b success) → Employed t.2) t := by
  have hrules := employed_rules 0
  have hemployed {α : Type} {m : Prog Error (JobQueue × Controller) α}
      (hm : wp m (fun _ t => Roster 0 t ∧ Employed t.2) (fun _ t => Roster 0 t ∧ Employed t.2) t) :
      wp m (fun _ t => Employed t.2)
        (fun _ t => (∀ b success, op ≠ .complete b success) → Employed t.2) t :=
    hm.mono (fun _ _ ht => ht.2) fun _ _ ht _ => ht.2
  cases op with
  | createJob ownerhost owner keepalive machine tags request =>
    simp only [exec, wp_bind]
    exact hemployed (createJob_employed ⟨h.1, he⟩)
  | jobKeepalive clienthost id => exact hemployed (hrules.jobKeepalive ⟨h.1, he⟩)
  | powerOnJobBoards clienthost id => exact hemployed (hrules.setJobBoards ⟨h.1, he⟩)
  | powerOffJobBoards clienthost id => exact hemployed (hrules.setJobBoards ⟨h.1, he⟩)
  | destroyJob id reason => exact hemployed (hrules.destroyJob ⟨h.1, he⟩)
  | destroyTimedOutJobs => exact hemployed (hrules.destroyTimedOutJobs ⟨h.1, he⟩)
  | checkFree => exact hemployed (hrules.checkFree ⟨h.1, he⟩)
  | setMaxRetiredJobs value => exact he
  | setMachines machines => exact hemployed (setMachines_employed ⟨h.1, he⟩)
  | stop => exact absurd rfl hop
  | complete b success =>
    exact (complete_employed h he).mono (fun _ _ ht => ht)
      fun _ _ _ hno => absurd rfl (hno b success)

theorem exec_serves (hS : Lasting S Sized permitted) (hl : Local permitted) {op : Operation}
    (h : Serving S settled 0 t) (hop : op ≠ .stop) (hnew : op.Assigns Sized)
    (halters : op.Alters permitted t) :
    wp (exec op) (fun _ => Serving S settled 0)
      (fun _ t => (∀ b success, op ≠ .complete b success) → Serving S settled 0 t) t := by
  have hprovided := (provided_rules hS).exec hl (fun _ => trivial) hnew halters
    ⟨h.roster, h.provided⟩
  apply ((exec_balanced h.balanced hop).and
    (hprovided.and (exec_employed h.balanced h.employed hop))).mono
  · exact fun _ _ ht => ⟨ht.1, ht.2.1.2, ht.2.2⟩
  · exact fun _ _ ht hno => ⟨ht.1 hno, ht.2.1.2, ht.2.2 hno⟩

/-- The controller is not stopped, machines have a triad, and their dead boards are changed
where that is tolerated. -/
def Served (t : JobQueue × Controller) (op : Operation) : Prop :=
  op ≠ .stop ∧ op.Assigns Sized ∧ op.Alters Tolerated t

/-- The job queue may know nothing of the job that is to be destroyed, and it may be asked for
something that no job can ask for. -/
theorem exec_serving {op : Operation} (h : Serving Robust settled 0 t) (hop : Served t op) :
    wp (exec op) (fun _ => Serving Robust settled 0) (fun _ => Serving Robust settled 0) t := by
  obtain ⟨hstop, hnew, halters⟩ := hop
  by_cases hcomplete : ∃ b success, op = .complete b success
  · obtain ⟨b, success, rfl⟩ := hcomplete
    exact h.complete.mono (fun _ _ ht => ht) fun _ _ hf => hf.elim
  · apply (exec_serves lasting_robust tolerated_local h hstop hnew halters).mono
      (fun _ _ ht => ht)
    exact fun _ _ ht => ht fun b success heq => hcomplete ⟨b, success, heq⟩

theorem start_serving (s : Setup) : Serving S settled 0 s.start where
  balanced := start_balanced s
  provided := ⟨start_furnished s, nofun, nofun, List.Pairwise.nil⟩
  employed _ hne := absurd rfl hne

theorem reachable_serving {s : Setup} (h : ((system s).restrict Served).Reachable t) :
    Serving Robust settled 0 t := by
  apply h.invariant
  · intro t ht
    rw [ht]
    exact start_serving s
  · intro t op t' _ ht hstep
    obtain ⟨hop, hstep⟩ := hstep
    rw [hstep]
    exact wp_same (exec_serving ht hop)

/-- No job is asked for with both a machine and tags, or with tags that make no set. -/
def Single (t : JobQueue × Controller) (op : Operation) : Prop := Served t op ∧ ¬op.Barred

theorem reachable_known {s : Setup} (h : ((system s).restrict Single).Reachable t) :
    Serving Robust settled 0 t ∧ Known t := by
  apply h.invariant
  · intro t ht
    rw [ht]
    exact ⟨start_serving s, fun _ hid => absurd hid List.not_mem_nil⟩
  · intro t op t' _ ht hstep
    obtain ⟨⟨hop, hsingle⟩, hstep⟩ := hstep
    rw [hstep]
    have hboth := (hosting_rules.mono False.elim (fun _ _ => trivial) (fun _ h => h.1)
      fun _ h => h).and known_rules
    have hknown := hboth.exec hsingle (.of_all fun _ => trivial)
      ⟨ht.1.roster, ht.1.furnished.toHosting, ht.2⟩
    exact ⟨wp_same (exec_serving ht.1 hop), (wp_same hknown).2.2⟩

/-- In every run in which no job is asked for with both a machine and tags, or with tags that make
no set, the job queue knows the jobs of the controller, and jobs are destroyed without raising. -/
theorem jobs_destroyable {s : Setup} (h : ((system s).restrict Single).Reachable t) :
    (∀ id ∈ t.2.jobs, (t.1.jobs.get? id).isSome) ∧
      (∀ id reason, Returns t (.destroyJob id reason)) ∧ Returns t .destroyTimedOutJobs := by
  have ht := reachable_known h
  have hrules := known_steps sound_robust settled 0
  have hreturns (op : Operation) (hop : wp (exec op) (fun _ _ => True) (fun _ _ => False) t) :
      Returns t op := by
    obtain ⟨_, t', hrun, -⟩ := wp_returns hop
    unfold Returns
    rw [hrun]
    rfl
  refine ⟨ht.2, fun id reason => hreturns _ ?_, hreturns _ ?_⟩
  · exact (hrules.destroyJob ht).mono (fun _ _ _ => trivial) fun _ _ hf => hf
  · exact (hrules.destroyTimedOutJobs ht).mono (fun _ _ _ => trivial) fun _ _ hf => hf

theorem jobs_destroyable_poweringOn :
    (1 ∈ (runs Setup.quiet.start poweringOn).2.jobs) ∧
      ((runs Setup.quiet.start poweringOn).1.jobs.get? 1).isSome ∧
      Returns (runs Setup.quiet.start poweringOn) (.destroyJob 1 none) := by
  have h : ((system Setup.quiet).restrict Single).Reachable
      (runs Setup.quiet.start poweringOn) := by
    apply reachable_runs (.start rfl)
    refine ⟨⟨⟨nofun, sized_oneBoard, fun _ _ _ hold => ?_⟩, not_false⟩,
      ⟨⟨nofun, trivial, trivial⟩, fun h => ?_⟩, trivial⟩
    · cases hold
    · obtain ⟨h, -⟩ | ⟨message, h⟩ := h
      · cases h
      · cases h
  have hlive : 1 ∈ (runs Setup.quiet.start poweringOn).2.jobs := by decide +kernel
  obtain ⟨hknown, hreturns, -⟩ := jobs_destroyable h
  exact ⟨hlive, hknown 1 hlive, hreturns 1 none⟩

/-- A job is asked for with both a machine and tags. -/
def askingTwice : Operation :=
  .createJob none (some "owner") (some none) (some (.name "m")) (some (.of {"default"})) { args := .nil }

/-- It is with the controller only, and cannot be destroyed. -/
theorem jobs_not_destroyable : ((system Setup.quiet).Reachable (next Setup.quiet.start askingTwice)) ∧
    (1 ∈ (next Setup.quiet.start askingTwice).2.jobs) ∧
    (next Setup.quiet.start askingTwice).1.jobs.get? 1 = none ∧
    ((exec (.destroyJob 1 none)).run (next Setup.quiet.start askingTwice)).1 =
      .error .attributeError := by
  refine ⟨.next (.start rfl) rfl, ?_⟩
  decide +kernel

def Suits (q : JobQueue) (machine : Option MachineName) (tags : Finset String) (m : ℕ) : Prop :=
  match machine with
  | some (.name name) => q.machines.get? name = some m
  | some (.unhashable _) => False
  | none => m ∈ q.machines.values ∧ tags ⊆ (q.machine m).tags

/-- The job is not entered, or its machine cannot be looked up, or a machine that suits it raises
when it is asked whether the request is possible. -/
def Rejects (q : JobQueue) (machine : Option MachineName) (tags : Option Tags)
    (request : Request) : Prop :=
  Barred machine tags ∨ (∃ type, machine = some (.unhashable type)) ∨
    ∃ wanted, jobTags machine tags = .ok wanted ∧ ∃ m, Suits q machine wanted m ∧
      ∃ e, (q.machine m).allocator.allocPossible request = .error e

section Created

variable {ownerhost owner : Option String} {keepalive : Option (Option ℚ)}
  {machine : Option MachineName} {tags : Option Tags} {request : Request}

/-- The job that is queued. -/
def asked (id : ℕ) (machine : Option MachineName) (tags : Finset String) (request : Request) :
    JobQueue.Job :=
  ⟨id, true, machine, tags, request, none, none⟩

theorem job_created (job : JobQueue.Job) : (q.created job).job q.nextJob = job :=
  job_setJob_self _ _

theorem mem_candidates_created {tags : Finset String} :
    m ∈ (q.created (asked id machine tags request)).candidates q.nextJob ↔
      Suits q machine tags m := by
  unfold candidates Suits
  rw [job_created]
  rcases machine with - | name | type
  · change m ∈ List.filter (fun m => decide (tags ⊆ (q.machine m).tags)) q.machines.values ↔ _
    rw [List.mem_filter, decide_eq_true_iff]
  · exact Option.mem_toList
  · exact iff_of_false List.not_mem_nil not_false

theorem hashable_ok (h : ¬∃ type, machine = some (.unhashable type)) :
    hashable machine = .ok () := by
  rcases machine with - | name | type
  · rfl
  · rfl
  · exact absurd ⟨type, rfl⟩ h

theorem Serving.createJob (hS : Sound S) (h : Serving S debt 0 (q, c)) (hgood : ¬Rejects q machine tags request) :
    wp (createJob ownerhost owner keepalive machine tags request) (fun _ _ => True)
      (fun _ t => t = (q, c)) (q, c) := by
  have hnone : q.jobs.get? c.nextId = none := hosting_rules.numbered q c h.furnished.toHosting
  have hsteps := serving_steps hS debt 0
  apply createJob_wp fun _ => rfl
  intro owner alive reads
  unfold Rejects at hgood
  rw [not_or, not_or] at hgood
  obtain ⟨hbarred, hnamed, hsuits⟩ := hgood
  simp only [JobQueue.createJob, wp_bind, wp_queue]
  rw [if_neg (by rw [hnone]; exact Bool.false_ne_true), wp_bind]
  cases htags : jobTags machine tags with
  | error e => exact absurd (jobTags_error_iff.mp ⟨e, htags⟩) hbarred
  | ok wanted =>
  rw [wp_ofExcept_ok, wp_bind, wp_change]
  have hcreated : Serving S debt 0 (q.created (asked c.nextId machine wanted request),
      Controller.createdJob { c with nextId := c.nextId + 1, reads := reads } c.nextId owner alive
        ownerhost) :=
    ⟨⟨h.roster.created hnone machine _ request, Balanced.enlisted h.tally⟩,
      ⟨furnished_rules.created 0 q c owner alive ownerhost reads machine _ request h.roster
        h.furnished hnone, h.provided.serviceable.created h.roster.linked hnone⟩,
      h.employed.enlisted⟩
  have hpending : ((q.created (asked c.nextId machine wanted request)).job q.nextJob).pending =
      true :=
    congrArg JobQueue.Job.pending (job_created _)
  have htells : ∀ m ∈ (q.created (asked c.nextId machine wanted request)).candidates q.nextJob,
      ∃ possible, (q.machine m).allocator.allocPossible request = .ok possible := by
    intro m hm
    cases hposs : (q.machine m).allocator.allocPossible request with
    | ok possible => exact ⟨possible, rfl⟩
    | error e => exact absurd ⟨wanted, htags, m, mem_candidates_created.mp hm, e, hposs⟩ hsuits
  have hrules := (serving_rules hS debt 0).enqueue (F := fun _ _ => True) (fun _ _ _ => trivial)
    fun _ _ _ => trivial
  apply (enqueueJob_offered (I := Serving S debt 0) (E := fun _ _ => False)
    ⟨hsteps.alloc, hsteps.skip⟩ hpending (fun _ => hcreated) _ _ _ _).mono (fun _ _ _ => trivial)
      fun _ _ hf => hf.elim
  · intro e he
    rw [job_created] at he
    exact absurd (he.symm.trans (hashable_ok hnamed)) (by simp)
  · apply ((offer_wp hrules hcreated hpending fun _ hm => mem_candidates hm).and
      (offer_returns _)).mono (fun _ _ ht => ht.1) fun _ _ hf => hf.2
    rw [job_created]
    exact htells
  · exact fun q w ht hp => ht.roster.linked.known _ hp
  · exact fun q w reason ht hp => hsteps.cancel q w _ reason ht hp

end Created

end SpallocServer.Controller
