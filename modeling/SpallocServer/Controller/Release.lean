import SpallocServer.Controller.Queries
import SpallocServer.Controller.Reassignment
import SpallocServer.Controller.Creation

namespace SpallocServer.Controller

open Foundation Prog JobQueue Allocator

variable {q q' : JobQueue} {c c' : Controller} {t t' : JobQueue × Controller} {id j m k b : ℕ}
  {depth : ℤ} {debt : ℕ → ℕ} {machines : Machines}

/-- The job is known to the job queue, and is allocated. -/
def Placed (q : JobQueue) (id : ℕ) : Prop :=
  ∃ j, q.jobs.get? id = some j ∧ (q.job j).pending = false

theorem placed_congr (hjobs : q'.jobs.get? id = q.jobs.get? id)
    (hjob : ∀ j, q.jobs.get? id = some j → (q'.job j).pending = (q.job j).pending) :
    Placed q' id ↔ Placed q id := by
  unfold Placed
  rw [hjobs]
  constructor
  · intro h
    obtain ⟨j, hj, hp⟩ := h
    exact ⟨j, hj, by rwa [hjob j hj] at hp⟩
  · intro h
    obtain ⟨j, hj, hp⟩ := h
    exact ⟨j, hj, by rwa [hjob j hj]⟩

theorem not_placed_of_none (h : q.jobs.get? id = none) : ¬Placed q id := by
  intro hplaced
  obtain ⟨j, hj, -⟩ := hplaced
  rw [h] at hj
  cases hj

theorem placed_setJob {job : JobQueue.Job} (h : Indexed q) (hne : id ≠ (q.job j).id) :
    Placed (q.setJob j job) id ↔ Placed q id := by
  have hjobs : (q.setJob j job).jobs.get? id = q.jobs.get? id := rfl
  apply placed_congr hjobs
  intro i hi
  have hij : i ≠ j := by
    intro heq
    rw [heq] at hi
    exact hne (h.ids id j hi).symm
  rw [JobQueue.job_setJob, if_neg hij]

theorem placed_dropped (hne : id ≠ k) : Placed (q.dropped k) id ↔ Placed q id :=
  placed_congr (Dict.get?_erase_ne _ (Ne.symm hne)) fun _ _ => rfl

theorem not_placed_dropped : ¬Placed (q.dropped id) id :=
  not_placed_of_none (Dict.get?_erase_self _ _)

/-- A job that is gone is still allocated while it waits for requests, and no longer. -/
def Kept (t : JobQueue × Controller) : Prop :=
  ∀ id, id ∉ t.2.jobs → (Placed t.1 id ↔ (t.2.job id).bmpRequestsUntilReady ≠ 0)

namespace Kept

theorem congr (h : Kept (q, c)) (hq : ∀ k, Placed q' k ↔ Placed q k) (hj : c'.jobs = c.jobs)
    (hw : ∀ k, (c'.job k).bmpRequestsUntilReady = (c.job k).bmpRequestsUntilReady) :
    Kept (q', c') := by
  intro k hk
  dsimp only at hk ⊢
  rw [hj] at hk
  rw [hq, hw]
  exact h k hk

theorem touched (h : Kept (q, c)) (hid : id ∈ c.jobs) (ht : Touches id c c')
    (hq : ∀ k, k ≠ id → (Placed q' k ↔ Placed q k)) : Kept (q', c') := by
  intro k hk
  dsimp only at hk ⊢
  rw [ht.jobs] at hk
  have hne : k ≠ id := fun heq => hk (heq ▸ hid)
  rw [hq k hne, ht.job k hne]
  exact h k hk

theorem torn (h : Kept (q, c)) (id : ℕ) (hj : ∀ k, k ∉ c'.jobs → k ≠ id → k ∉ c.jobs)
    (hq : ∀ k, k ≠ id → (Placed q' k ↔ Placed q k)) (hjob : ∀ k, k ≠ id → c'.job k = c.job k)
    (hid : id ∉ c'.jobs → (Placed q' id ↔ (c'.job id).bmpRequestsUntilReady ≠ 0)) :
    Kept (q', c') := by
  intro k hk
  dsimp only at hk ⊢
  by_cases heq : k = id
  · subst heq
    exact hid hk
  · rw [hq k heq, hjob k heq]
    exact h k (hj k hk heq)

end Kept

structure Tending (debt : ℕ → ℕ) (depth : ℤ) (t : JobQueue × Controller) : Prop where
  serving : Serving Robust debt depth t
  measured : Measured t.2
  kept : Kept t

theorem Tending.freed {reason : Option String} (h : Tending debt depth (q, c))
    (hj : q.jobs.get? id = some j) (hp : (q.job j).pending = false) :
    wp (onFree id reason) (fun _ c' => Kept (q, c') ∧
        (c.job id).bmpRequestsUntilReady < (c'.job id).bmpRequestsUntilReady)
      (fun _ _ => True) c := by
  apply onFree_wp
  · exact fun _ => trivial
  · exact fun _ _ => trivial
  intro machine _ hmachine
  have hsome : (c.job id).allocatedMachine ≠ none := by
    rw [hmachine]
    exact Option.some_ne_none machine
  obtain ⟨boards, _, _, hboards, hne, -⟩ := h.measured id hsome
  have hboards : (c.job id).boards = some boards := hboards
  apply teardownJob_wp
  · exact fun _ => trivial
  · intro _ hnone
    rw [hboards] at hnone
    cases hnone
  intro _ _
  apply setJobPowerAndLinks_wp
  · intro commands hcommands
    obtain ⟨machine', controllers, boards', hc⟩ := frameCommands_spec hcommands
    obtain rfl := Option.some.inj (hboards.symm.trans hc.held)
    have hpos : 1 ≤ commands.entries.length := List.length_pos_of_ne_nil (hc.sent hne)
    have hwaits : 0 ≤ (c.job id).bmpRequestsUntilReady := h.serving.tally.nonneg id
    generalize hgone : Controller.retired { c with
      changedMachines := insert machine.name c.changedMachines } id reason = gone
    have hjob (k : ℕ) : gone.job k = c.job k := by
      rw [← hgone]
      rfl
    have hself : ((gone.commanded id false commands.entries).job id).bmpRequestsUntilReady =
        (c.job id).bmpRequestsUntilReady + commands.entries.length := by
      rw [job_commanded, if_pos rfl, hjob]
    have hplaced : Placed q id := ⟨j, hj, hp⟩
    refine ⟨h.kept.torn id ?_ (fun _ _ => Iff.rfl) ?_ ?_, ?_⟩
    · intro k hk hne hin
      apply hk
      rw [(touches_commanded false commands.entries).jobs, ← hgone]
      exact mem_retired.mpr ⟨hin, hne⟩
    · intro k hk
      rw [job_commanded, if_neg hk, hjob]
    · intro _
      rw [hself]
      exact ⟨fun _ => by omega, fun _ => hplaced⟩
    · rw [hself]
      omega
  · exact fun _ _ => trivial
  · exact fun _ _ _ _ _ => trivial

theorem kept_steps (debt : ℕ → ℕ) (depth : ℤ) :
    Steps (Tending debt depth) Kept fun _ _ => True where
  alloc q c m j _ h _ hp := by
    have hr := h.serving.roster
    apply (wp_trivial _).mono _ fun _ _ _ => trivial
    intro res a _
    cases res with
    | none => exact h.kept
    | some al =>
      apply onAllocate_touches.mono _ fun _ _ _ => trivial
      intro _ c' ht
      have hindexed : Indexed (q.setAllocator m a) := ⟨hr.indexed.known, hr.indexed.ids⟩
      exact h.kept.touched (hr.pending j hp).1 ht fun k hk => placed_setJob hindexed hk
  skip _ _ _ _ _ h _ _ := h.kept
  offer _ _ _ _ h _ _ _ := h.kept
  cancel q c j reason h hp := by
    have hr := h.serving.roster
    obtain ⟨hid, hb⟩ := hr.pending j hp
    have hidle : (c.job (q.job j).id).bmpRequestsUntilReady = 0 := by
      by_contra hne
      exact (h.serving.furnished.boards _).mpr (h.serving.employed _ hne) hb
    apply onCancel_wp hid hb
    intro reason
    apply h.kept.torn (q.job j).id
    · exact fun k hk hne hin => hk (mem_retired.mpr ⟨hin, hne⟩)
    · exact fun k hk => (placed_dropped hk).trans (placed_setJob hr.indexed hk)
    · exact fun _ _ => rfl
    · exact fun _ =>
        ⟨fun hplaced => absurd hplaced not_placed_dropped, fun hne => absurd hidle hne⟩
  freed _ _ _ _ _ h _ hj hp :=
    (h.freed hj hp).mono (fun _ _ hc => hc.1) fun _ _ _ => trivial
  read _ _ _ h := h.kept
  refresh _ _ _ _ _ _ h := h.kept.congr (fun _ => Iff.rfl) rfl fun _ =>
    job_refreshed_field (·.bmpRequestsUntilReady) (fun _ _ _ => rfl) _ _ _
  power _ _ _ _ _ h hid _ := by
    apply setJobPowerAndLinks_touches.mono _ fun _ _ _ => trivial
    exact fun _ _ ht => h.kept.touched hid ht fun _ _ => Iff.rfl
  free _ _ _ h _ := (wp_trivial _).mono (fun _ _ _ => h.kept) fun _ _ _ => trivial

theorem measured_upkeep : UpkeepRules True Sized Tolerated
    (fun t => Provided Robust t ∧ Measured t.2) fun t => Provided Robust t ∧ Measured t.2 :=
  ((provided_rules lasting_robust).mono (fun hlost => hlost) (fun _ h => h) (fun _ _ _ _ h => h) (fun _ h => h.1)
    fun _ h => h).and (measured_rules.upkeep.mono (fun hlost => hlost) (fun _ _ => trivial)
      (fun _ _ _ _ _ => trivial) (fun _ h => ⟨h.1.furnished.toHosting, h.2⟩) fun _ h => h)

theorem tending_steps (debt : ℕ → ℕ) (depth : ℤ) :
    Steps (Tending debt depth) (Tending debt depth) fun _ _ => False := by
  have hserving : Steps (Tending debt depth) (Serving Robust debt depth) fun _ _ => False :=
    (serving_steps sound_robust debt depth).mono (fun _ h => h.serving) (fun _ h => h) fun _ _ hf => hf
  have hmeasured : Steps (Tending debt depth) (fun t => Provided Robust t ∧ Measured t.2)
      fun _ _ => True :=
    (measured_upkeep.steps depth).mono
      (fun _ h => ⟨h.serving.roster, h.serving.provided, h.measured⟩) (fun _ h => h)
        fun _ _ _ => trivial
  exact (hserving.and (hmeasured.and (kept_steps debt depth))).mono (fun _ h => h)
    (fun _ h => ⟨h.1, h.2.1.2, h.2.2⟩) fun _ _ h => h.1

theorem tending_rules (debt : ℕ → ℕ) (depth : ℤ) :
    JobRules (Tending debt depth) fun _ => Tending debt depth where
  toSteps := (tending_steps debt depth).mono (fun _ h => h) (fun _ h => h) fun _ _ hf => hf.elim
  indexed _ h := h.serving.roster.indexed
  lost _ _ _ h _ _ := h

def Remembered (id : ℕ) (t : JobQueue × Controller) : Prop :=
  id ∉ t.2.jobs → (t.2.job id).bmpRequestsUntilReady = 1 → (t.2.retiredJobs.get? id).isSome

theorem remembers_process (debt : ℕ → ℕ) (depth : ℤ) (id : ℕ) :
    ProcessRules callbacks (fun t => Tending debt depth t ∧ Remembered id t) fun _ _ => False where
  alloc q c m j rest h hh hp := by
    apply ((tending_steps debt depth).alloc q c m j rest h.1 hh hp).mono _ fun _ _ hf => hf
    intro res a hres
    cases res with
    | none => exact ⟨hres, h.2⟩
    | some al =>
      apply (hres.and onAllocate_touches).mono _ fun _ _ hf => hf.1
      intro _ c' hc
      obtain ⟨htending, ht⟩ := hc
      refine ⟨htending, fun hid hone => ?_⟩
      dsimp only at hid hone ⊢
      rw [ht.jobs] at hid
      have hlive := (h.1.serving.roster.pending j hp).1
      have hne : id ≠ (q.job j).id := fun heq => hid (heq ▸ hlive)
      rw [ht.job id hne] at hone
      rw [ht.retiredJobs]
      exact h.2 hid hone
  skip q c m j rest h hh hp := ⟨(tending_steps debt depth).skip q c m j rest h.1 hh hp, h.2⟩

theorem Measured.uncounted (h : Measured c) (q : JobQueue) : Measured (c.uncounted id) :=
  h.congr (sameView_uncounted q c id).placement (sameView_uncounted q c id).size

theorem Measured.readied (h : Measured c) (q : JobQueue) :
    Measured ((c.uncounted id).readied id) :=
  (h.uncounted q).congr (sameView_readied q _ id).placement (sameView_readied q _ id).size

namespace Tending

theorem destroyJob {reason : Option String} (h : Tending (owing id) depth t)
    (hremembered : Remembered id t) :
    wp (Controller.destroyJob id reason)
      (fun _ t => Tending (owing id) depth t ∧ Remembered id t) (fun _ _ => False) t := by
  obtain ⟨q, c⟩ := t
  have hwaits : 1 ≤ (c.job id).bmpRequestsUntilReady := owing_waits h.serving.tally.toCounted
  have hids := h.serving.roster.indexed.ids
  have hne : (c.job id).bmpRequestsUntilReady ≠ 0 := by omega
  have hmachine : (c.job id).allocatedMachine ≠ none := h.serving.employed id hne
  simp only [Controller.destroyJob, wp_bind, wp_controller]
  split
  · next hid =>
    apply destroyJob_wp (I := fun t => Tending (owing id) depth t ∧ Remembered id t)
    · exact fun t ht => processQueue_wp (q := t.1) (w := t.2) (remembers_process _ _ _) ht
    · intro hnone
      obtain ⟨j, hj⟩ := h.serving.known_of_allocated hid hmachine
      rw [hnone] at hj
      cases hj
    · intro j hj hp
      have hb := (h.serving.roster.pending j hp).2
      dsimp only at hb
      rw [hids id j hj] at hb
      exact absurd hb ((h.serving.furnished.boards id).mpr hmachine)
    · intro j hj hp
      rw [hids id j hj]
      apply (((tending_steps _ _).freed q c id j reason h hid hj hp).and (h.freed hj hp)).mono _
        fun _ _ hf => hf.1
      intro _ c' hc
      refine ⟨hc.1, fun _ hone => ?_⟩
      have hmore := hc.2.2
      dsimp only at hone
      omega
  · exact ⟨h, hremembered⟩

theorem seen (h : Tending debt depth (q, c)) (ids : Finset ℕ) :
    Tending debt depth (q, { c with changedJobs := ids }) :=
  ⟨h.serving.seen ids, h.measured, h.kept⟩

theorem uncounted (h : Tending (owing id) depth (q, c))
    (hmore : 1 < (c.job id).bmpRequestsUntilReady) : Tending settled depth (q, c.uncounted id) := by
  refine ⟨h.serving.uncounted, h.measured.uncounted q, h.kept.torn id ?_ ?_ ?_ ?_⟩
  · exact fun _ hk _ => hk
  · exact fun _ _ => Iff.rfl
  · exact rewrites_uncounted.job
  intro hid
  rw [job_uncounted, if_pos rfl]
  dsimp only
  have hkept : Placed q id ↔ (c.job id).bmpRequestsUntilReady ≠ 0 := h.kept id hid
  rw [hkept]
  omega

theorem readied (h : Tending (owing id) depth (q, c)) (hlast : (c.job id).bmpRequestsUntilReady = 1)
    (hid : id ∉ c.jobs → ¬Placed q id) :
    Tending settled depth (q, (c.uncounted id).readied id) := by
  refine ⟨h.serving.readied, h.measured.readied q, h.kept.torn id ?_ ?_ ?_ ?_⟩
  · exact fun _ hk _ => hk
  · exact fun _ _ => Iff.rfl
  · exact (rewrites_uncounted.trans rewrites_readied).job
  · exact fun hgone => iff_of_false (hid hgone) fun hne => hne (waits_readied hlast)

theorem freeJob (h : Tending (owing id) depth (q, c))
    (hlast : (c.job id).bmpRequestsUntilReady = 1) (hid : id ∉ c.jobs) :
    wp (JobQueue.free callbacks id) (fun _ => Tending settled depth) (fun _ _ => False)
      (q, (c.uncounted id).readied id) := by
  have hsteps := tending_steps settled depth
  apply h.serving.readied.roster.free_wp hid (K := Tending settled depth)
  · exact fun t ht => processQueue_wp (q := t.1) (w := t.2) ⟨hsteps.alloc, hsteps.skip⟩ ht
  · exact fun hnone => h.readied hlast fun _ => not_placed_of_none hnone
  · intro j m a after hj hh hm hrun
    refine ⟨h.serving.readied.freed hid hj hh hm hrun, h.measured.readied q,
      h.kept.torn id ?_ ?_ ?_ ?_⟩
    · exact fun _ hk _ => hk
    · exact fun k hk => placed_dropped hk
    · exact (rewrites_uncounted.trans rewrites_readied).job
    · exact fun _ => iff_of_false not_placed_dropped fun hne => hne (waits_readied hlast)

theorem complete {success : Bool} (h : Tending settled depth t)
    (hremembered : ∀ r ∈ (t.2.bmp b).requests.head?, Remembered r.onDone t) :
    wp (complete b success) (fun _ => Tending settled depth) (fun _ _ => False) t := by
  obtain ⟨q, c⟩ := t
  apply complete_wp
  · exact fun _ => h
  intro r rest hr
  apply bmpOnRequestComplete_wp
    (J := fun t => Tending (owing r.onDone) depth t ∧ Remembered r.onDone t)
  · exact ⟨⟨h.serving.popped hr, h.measured, h.kept⟩, hremembered r (by rw [hr]; rfl)⟩
  · exact fun _ _ _ ht => ht.1.destroyJob ht.2
  · intro q c ht hneg
    have hwaits : 1 ≤ (c.job r.onDone).bmpRequestsUntilReady :=
      owing_waits ht.1.serving.tally.toCounted
    omega
  · exact fun q c ht hmore => ht.1.uncounted hmore
  · intro q c ht hlast
    apply freeRetired_wp
    · intro hnone
      apply ht.1.readied hlast
      intro hid
      have hsome : (c.retiredJobs.get? r.onDone).isSome := ht.2 hid hlast
      have hnone : c.retiredJobs.get? r.onDone = none := hnone
      rw [hnone] at hsome
      cases hsome
    · exact fun hretired => ht.1.freeJob hlast (ht.1.serving.roster.gone _ hretired)
  · exact fun q c ids ht => ht.seen ids

end Tending

theorem placed_created {job : JobQueue.Job} (h : Roster depth (q, c)) (hne : id ≠ job.id) :
    Placed (q.created job) id ↔ Placed q id := by
  have hjobs : (q.created job).jobs.get? id = q.jobs.get? id := Dict.get?_set_ne _ (Ne.symm hne) _
  apply placed_congr hjobs
  intro i hi
  have hlt : i ≠ q.nextJob := (h.linked.ids id i hi).2.ne
  change ((q.setJob q.nextJob job).job i).pending = _
  rw [JobQueue.job_setJob, if_neg hlt]

theorem Kept.enlisted {owner : String} {alive : Option Keepalive} {host : Option String}
    {reads : ℕ} (h : Kept (q, c)) (hq : ∀ k, k ≠ c.nextId → (Placed q' k ↔ Placed q k)) :
    Kept (q', Controller.createdJob { c with nextId := c.nextId + 1, reads := reads } c.nextId
      owner alive host) := by
  apply h.torn c.nextId
  · exact fun k hk _ hin => hk (List.mem_append_left _ hin)
  · exact hq
  · intro k hk
    rw [job_createdJob, if_neg hk]
  · exact fun hno => absurd (List.mem_append_right _ (List.mem_singleton_self _)) hno

theorem Tending.createJob {ownerhost owner : Option String} {keepalive : Option (Option ℚ)}
    {machine : Option MachineName} {tags : Option Tags} {request : Request}
    (h : Tending debt depth t) :
    wp (createJob ownerhost owner keepalive machine tags request) (fun _ => Tending debt depth)
      (fun _ => Tending debt depth) t := by
  obtain ⟨q, c⟩ := t
  have hr := h.serving.roster
  apply (tending_rules debt depth).createJob (fun _ _ he => he) (fun _ _ ht => ht) h
  · intro _ owner alive reads _
    refine ⟨⟨⟨hr.enlisted, Balanced.enlisted h.serving.tally⟩, ?_, h.serving.employed.enlisted⟩,
      h.measured.createdJob, h.kept.enlisted fun _ _ => Iff.rfl⟩
    exact (provided_rules lasting_robust).enlisted depth q c owner alive ownerhost reads trivial hr
      h.serving.provided
  · intro owner alive reads tags hnone
    refine ⟨⟨⟨hr.created hnone machine tags request, Balanced.enlisted h.serving.tally⟩, ?_,
      h.serving.employed.enlisted⟩, h.measured.createdJob, h.kept.enlisted fun k hk => ?_⟩
    · exact (provided_rules lasting_robust).created depth q c owner alive ownerhost reads machine tags request hr
        h.serving.provided hnone
    · exact placed_created hr hk
  · exact fun q c ids ht => ht.seen ids

def Stays (machines : Machines) (t : JobQueue × Controller) : Prop :=
  ∀ name old, t.2.machines.get? name = some old →
    ∃ new, machines.dict.get? name = some new ∧ compare old new ≠ .major

theorem compare_self (machine : Configuration.Machine) : compare machine machine ≠ .major := by
  unfold compare
  rw [if_pos (.refl machine)]
  exact nofun

theorem Stays.set {name : String} {new : Configuration.Machine} (h : Stays machines (q, c))
    (hnew : machines.dict.get? name = some new)
    (hc : c'.machines = c.machines.set name new) : Stays machines (q', c') := by
  intro name' old hold
  dsimp only at hold
  rw [hc, Dict.get?_set] at hold
  split at hold
  · next heq =>
    cases hold
    subst heq
    exact ⟨new, hnew, compare_self new⟩
  · exact h name' old hold

theorem kept_assign {J : List ℕ → JobQueue × Controller → Prop}
    {F : Error → JobQueue × Controller → Prop} (h : AssignRules machines J F)
    (hagreed : ∀ l t, J l t → Agreed t) :
    AssignRules machines (fun l t => J l t ∧ Kept t ∧ Stays machines t)
      fun e t => F e t ∧ Kept t where
  postponed l t ht := h.postponed l t ht.1
  remove l name t ht hmajor := by
    obtain ⟨q, c⟩ := t
    obtain ⟨hJ, hkept, hstays⟩ := ht
    have hunknown : q.machines.get? name = none := by
      apply Option.not_isSome_iff_eq_none.mp
      rw [(hagreed l _ hJ).queued name, Option.not_isSome_iff_eq_none]
      by_contra hne
      obtain ⟨old, hold⟩ := Option.ne_none_iff_exists'.mp hne
      obtain ⟨new, hnew, hminor⟩ := hstays name old hold
      exact hminor (hmajor old new hold hnew)
    have hraises : wp (JobQueue.removeMachine callbacks name) (fun _ _ => False)
        (fun _ t => Kept t) (q, c) := by
      simp only [removeMachine, wp_bind, wp_queue]
      rw [hunknown]
      exact hkept
    apply ((h.remove l name (q, c) hJ hmajor).and hraises).mono _ fun _ _ he => he
    exact fun _ _ hpost => hpost.2.elim
  stop l t ht := ⟨h.stop l t ht.1, ht.2.1, ht.2.2⟩
  change name old new q c ht hold hnew hminor := by
    obtain ⟨hnone, hsome⟩ := h.change name old new q c ht.1 hold hnew hminor
    exact ⟨fun hn => ⟨hnone hn, ht.2.1⟩, fun m hm => ⟨hsome m hm, ht.2.1, ht.2.2.set hnew rfl⟩⟩
  add name new q c ht hnone hnew := by
    obtain ⟨hused, hadded⟩ := h.add name new q c ht.1 hnone hnew
    obtain ⟨-, hj, -, hjob⟩ := registered_jobs c name new
    have hkept (q' : JobQueue) (hq : ∀ k, Placed q' k ↔ Placed q k) :
        Kept (q', c.registered name new) :=
      ht.2.1.congr hq hj fun k => by rw [hjob]
    exact ⟨fun hs => ⟨hused hs, hkept q fun _ => Iff.rfl⟩,
      fun hn => ⟨hadded hn, hkept _ fun _ => Iff.rfl, ht.2.2.set hnew registered_machines⟩⟩
  move name q c ht := by
    obtain ⟨hunknown, hunqueued, hmoved⟩ := h.move name q c ht.1
    refine ⟨fun hn => ⟨hunknown hn, ht.2.1⟩, fun hn => ⟨hunqueued hn, ht.2.1⟩, hmoved, ht.2.1, ?_⟩
    intro name' old hold
    have hold' : c.machines.get? name' = some old := by rwa [← Dict.get?_moveToEnd]
    exact ht.2.2 name' old hold'

theorem Tending.exit (h : Tending debt 1 t) :
    wp (JobQueue.exit callbacks) (fun _ => Tending debt 0) (fun _ => Tending debt 0) t := by
  obtain ⟨q, c⟩ := t
  apply (tending_rules debt 0).exit (fun _ _ he => he) (fun _ _ ht => ht)
  · exact fun q c ht => ⟨ht.serving.cleared, ht.measured, ht.kept⟩
  · have hpost : q.postpone = 1 := h.serving.roster.postpone
    rw [hpost, sub_self]
    exact ⟨h.serving.postponed 0, h.measured, h.kept⟩

theorem Tending.setMachines (h : Tending settled 0 t)
    (hsized : ∀ name new, machines.dict.get? name = some new → Sized new)
    (hchangeable : Changeable machines Tolerated t) (hstays : Stays machines t) :
    wp (setMachines machines) (fun _ => Tending settled 0) (fun _ => Tending settled 0) t := by
  obtain ⟨q, c⟩ := t
  have hbalanced : AssignRules machines (fun leaving t => Roster 1 t ∧ Tally settled leaving t.2)
      fun _ => Balanced settled 1 := balanced_assign
  have hassign := hbalanced.and ((measured_upkeep.assign tolerated_local hsized).and employed_assign)
  apply (kept_assign hassign fun _ _ ht => ht.2.1.2.1.1.furnished.toAgreed).setMachines
  · have hpost : q.postpone = 0 := h.serving.roster.postpone
    dsimp only
    rw [hpost]
    have hserving := h.serving.postponed 1
    exact ⟨⟨hserving.balanced, ⟨hserving.roster, ⟨hserving.provided, h.measured⟩,
      hchangeable.view tolerated_local (sameView_postponed q c 1)⟩, hserving.roster,
        hserving.employed⟩, h.kept, hstays⟩
  · intro t ht
    obtain ⟨⟨hbalanced, hprovided, hemployed⟩, hkept, -⟩ := ht
    exact Tending.exit ⟨⟨hbalanced, hprovided.2.1.1, hemployed.2⟩, hprovided.2.1.2, hkept⟩
  · intro e t ht
    obtain ⟨⟨hbalanced, hprovided, hemployed⟩, hkept⟩ := ht
    exact Tending.exit ⟨⟨hbalanced, hprovided.2.1, hemployed.2⟩, hprovided.2.2, hkept⟩
  · intro q c names ht
    refine ⟨⟨⟨ht.serving.roster.tables rfl rfl rfl rfl,
      ht.serving.tally.same rfl rfl rfl rfl rfl (fun _ hk => hk) rfl⟩, ?_, ht.serving.employed⟩,
        ht.measured, ht.kept⟩
    exact ht.serving.provided.narrows
      (narrows_controller rfl rfl rfl rfl (fun _ => rfl) fun _ => rfl)

/-- No machine is removed, and what a job holds is given back with its last request: the job is
still among the retired ones. -/
def Releases (t : JobQueue × Controller) (op : Operation) : Prop :=
  Served t op ∧ (∀ machines, op = .setMachines machines → Stays machines t) ∧
    ∀ b success, op = .complete b success → ∀ r ∈ (t.2.bmp b).requests.head?,
      r.onDone ∉ t.2.jobs → t.2.outstanding r.onDone = 1 →
        (t.2.retiredJobs.get? r.onDone).isSome

theorem exec_tending {op : Operation} (h : Tending settled 0 t) (hop : Releases t op) :
    wp (exec op) (fun _ => Tending settled 0) (fun _ => Tending settled 0) t := by
  obtain ⟨⟨hstop, hsized, halters⟩, hstays, hremembers⟩ := hop
  have hrules := tending_rules settled 0
  cases op with
  | createJob ownerhost owner keepalive machine tags request =>
    simp only [Controller.exec, wp_bind]
    exact h.createJob.mono (fun _ _ ht => ht) fun _ _ ht => ht
  | jobKeepalive clienthost id => exact hrules.jobKeepalive h
  | powerOnJobBoards clienthost id => exact hrules.setJobBoards h
  | powerOffJobBoards clienthost id => exact hrules.setJobBoards h
  | destroyJob id reason => exact hrules.destroyJob h
  | destroyTimedOutJobs => exact hrules.destroyTimedOutJobs h
  | checkFree => exact hrules.checkFree h
  | setMaxRetiredJobs value =>
    have hserving : wp (exec (.setMaxRetiredJobs value)) (fun _ => Serving Robust settled 0)
        (fun _ => Serving Robust settled 0) t := exec_serving h.serving ⟨hstop, hsized, halters⟩
    exact ⟨hserving, h.measured, h.kept⟩
  | setMachines machines => exact h.setMachines hsized halters (hstays machines rfl)
  | stop => exact absurd rfl hstop
  | complete b success =>
    have hremembered : ∀ r ∈ (t.2.bmp b).requests.head?, Remembered r.onDone t := by
      intro r hr hid hlast
      apply hremembers b success rfl r hr hid
      have hcount := h.serving.tally.count r.onDone
      unfold settled at hcount
      omega
    exact (h.complete hremembered).mono (fun _ _ ht => ht) fun _ _ hf => hf.elim

theorem reachable_tending {s : Setup} (h : ((system s).restrict Releases).Reachable t) :
    Tending settled 0 t := by
  apply h.invariant
  · intro t ht
    rw [ht]
    exact ⟨start_serving s, fun _ hne => absurd rfl hne,
      fun _ _ => iff_of_false (not_placed_of_none rfl) fun hne => hne rfl⟩
  · intro t op t' _ ht hstep
    obtain ⟨hop, hstep⟩ := hstep
    rw [hstep]
    exact wp_same (exec_tending ht hop)

theorem Serving.placed_live (h : Serving Robust debt depth t) (hid : id ∈ t.2.jobs) :
    Placed t.1 id ↔ (t.2.job id).boards ≠ none := by
  rw [h.furnished.boards id]
  constructor
  · intro hplaced
    obtain ⟨j, hj, hp⟩ := hplaced
    exact h.furnished.told id hid j hj hp
  · intro hsome
    obtain ⟨machine, hmachine⟩ := Option.ne_none_iff_exists'.mp hsome
    obtain ⟨j, _, _, hj, -⟩ := h.furnished.hosted id hid machine hmachine
    refine ⟨j, hj, ?_⟩
    by_contra hp
    obtain ⟨-, hb⟩ := h.roster.pending j (by simpa using hp)
    rw [(h.roster.linked.ids id j hj).1] at hb
    exact (h.furnished.boards id).mpr hsome hb

/-- The last request of a job that is gone does nothing if the job is forgotten, and gives back
what it holds otherwise. -/
theorem complete_last {success : Bool} {P : JobQueue → Prop} {r : AtomicRequests}
    (hr : (c.bmp b).requests.head? = some r) (hid : r.onDone ∉ c.jobs)
    (hlast : (c.job r.onDone).bmpRequestsUntilReady = 1)
    (hforgotten : c.retiredJobs.get? r.onDone = none → P q)
    (hfreed : (c.retiredJobs.get? r.onDone).isSome → ∀ c',
      wp (JobQueue.free callbacks r.onDone) (fun _ t => P t.1) (fun _ t => P t.1) (q, c')) :
    wp (complete b success) (fun _ t => P t.1) (fun _ t => P t.1) (q, c) := by
  have hcomplete : wp (countDown r.onDone) (fun _ t => P t.1) (fun _ t => P t.1)
      (q, c.setBmp b (c.bmp b).popped) := by
    have hzero : (((c.setBmp b (c.bmp b).popped).uncounted r.onDone).job
        r.onDone).bmpRequestsUntilReady = 0 := by
      rw [job_uncounted, if_pos rfl]
      change (c.job r.onDone).bmpRequestsUntilReady - 1 = 0
      omega
    simp only [countDown, wp_bind, wp_adjust, wp_controller]
    rw [hzero, if_neg (lt_irrefl 0), if_pos rfl, wp_bind, wp_adjust, wp_bind]
    have hreports (t : JobQueue × Controller) (ht : P t.1) :
        wp (reportReady r.onDone) (fun _ t => P t.1) (fun _ t => P t.1) t := by
      simp only [reportReady, wp_bind, wp_controller]
      split
      · exact ht
      · exact ht
    apply freeRetired_wp
    · exact fun hnone => hreports _ (hforgotten hnone)
    · exact fun hsome => (hfreed hsome _).mono (fun _ t ht => hreports t ht) fun _ _ ht => ht
  apply complete_wp
  · intro hnil
    rw [hnil] at hr
    cases hr
  · intro r' rest hr'
    rw [hr'] at hr
    obtain rfl := Option.some.inj hr
    have hskip : wp (cancelFailed r'.onDone success
        (if success then none else some (c.bmp b).reason))
        (fun _ t => t = (q, c.setBmp b (c.bmp b).popped)) (fun _ _ => False)
        (q, c.setBmp b (c.bmp b).popped) := by
      unfold cancelFailed
      split
      · rfl
      · have hgone : r'.onDone ∉ (c.setBmp b (c.bmp b).popped).jobs := hid
        simp only [Controller.destroyJob, wp_bind, wp_controller]
        rw [if_neg hgone]
        rfl
    rw [bmpOnRequestComplete, wp_bind]
    apply hskip.mono _ fun _ _ hf => hf.elim
    intro _ t ht
    rw [ht]
    exact hcomplete

theorem free_forgets :
    wp (JobQueue.free callbacks id) (fun _ t => t.1.jobs.get? id = none)
      (fun _ t => t.1.jobs.get? id = none) t := by
  obtain ⟨q, c⟩ := t
  have hprocess : ProcessRules callbacks (fun t => t.1.jobs.get? id = none)
      fun _ t => t.1.jobs.get? id = none := by
    refine ⟨fun q c m j rest h _ _ => ?_, fun _ _ _ _ _ h _ _ => h⟩
    apply (wp_trivial _).mono _ fun _ _ _ => h
    intro res a _
    cases res with
    | none => exact h
    | some al => exact (wp_trivial _).mono (fun _ _ _ => h) fun _ _ _ => h
  have hdropped : (q.dropped id).jobs.get? id = none := Dict.get?_erase_self _ _
  apply free_wp fun t ht => processQueue_wp (q := t.1) (w := t.2) hprocess ht
  · exact fun hnone => hnone
  · exact fun _ _ _ => hdropped
  · exact fun _ _ _ => hdropped
  · exact fun _ _ _ _ _ _ => (wp_trivial _).mono (fun _ _ _ => hdropped) fun _ _ _ => hdropped

/-- In every run in which the last request of a job that is gone is completed while the job is
still among the retired ones, just the live jobs with boards and the jobs that still wait for
requests are allocated. If the job is not, it stays allocated. -/
theorem boards_released {s : Setup} (h : ((system s).restrict Releases).Reachable t) :
    (∀ id, Placed t.1 id ↔ id ∈ t.2.jobs ∧ (t.2.job id).boards ≠ none ∨
      id ∉ t.2.jobs ∧ 0 < t.2.outstanding id) ∧
    ∀ b success r, (t.2.bmp b).requests.head? = some r → r.onDone ∉ t.2.jobs →
      t.2.outstanding r.onDone = 1 →
        ((next t (.complete b success)).1.jobs.get? r.onDone = none ↔
          (t.2.retiredJobs.get? r.onDone).isSome) := by
  have ht := reachable_tending h
  have hcount (id : ℕ) : (t.2.job id).bmpRequestsUntilReady = t.2.outstanding id := by
    rw [ht.serving.tally.count]
    exact Int.add_zero _
  refine ⟨fun id => ?_, fun b success r hr hid hlast => ?_⟩
  · by_cases hid : id ∈ t.2.jobs
    · rw [ht.serving.placed_live hid]
      simp only [hid, true_and, not_true_eq_false, false_and, or_false]
    · rw [ht.kept id hid, hcount]
      simp only [hid, not_false_eq_true, false_and, false_or, true_and]
      omega
  · obtain ⟨q, c⟩ := t
    have hone : (c.job r.onDone).bmpRequestsUntilReady = 1 := by
      rw [hcount]
      exact congrArg _ hlast
    have hplaced : Placed q r.onDone := (ht.kept r.onDone hid).mpr (by rw [hone]; exact one_ne_zero)
    apply wp_same (m := complete b success)
      (I := fun t' => t'.1.jobs.get? r.onDone = none ↔ (c.retiredJobs.get? r.onDone).isSome)
    apply complete_last (P := fun q' =>
      q'.jobs.get? r.onDone = none ↔ (c.retiredJobs.get? r.onDone).isSome) hr hid hone
    · intro hnone
      rw [hnone]
      exact iff_of_false (fun h => not_placed_of_none h hplaced) nofun
    · intro hsome c'
      exact free_forgets.mono (fun _ _ hn => iff_of_true hn hsome) fun _ _ hn => iff_of_true hn hsome

/-- A job is destroyed when its board is on. -/
def retiring : List Operation := poweringOn ++ [.complete 0 true, .destroyJob 1 none]

theorem boards_released_retiring :
    Placed (runs Setup.quiet.start retiring).1 1 ∧
      (next (runs Setup.quiet.start retiring) (.complete 0 true)).1.jobs.get? 1 = none := by
  have h : ((system Setup.quiet).restrict Releases).Reachable
      (runs Setup.quiet.start retiring) := by
    apply reachable_runs (.start rfl)
    refine ⟨⟨⟨nofun, sized_oneBoard, fun _ _ _ hold => ?_⟩, fun _ _ _ _ hold => ?_, nofun⟩,
      ⟨⟨nofun, trivial, trivial⟩, nofun, nofun⟩, ⟨⟨nofun, trivial, trivial⟩, nofun, ?_⟩,
      ⟨⟨nofun, trivial, trivial⟩, nofun, nofun⟩, trivial⟩
    · cases hold
    · cases hold
    · intro b success hop
      cases hop
      decide +kernel
  have hlast : ∀ r ∈ ((runs Setup.quiet.start retiring).2.bmp 0).requests.head?,
      r.onDone = 1 := by decide +kernel
  have hsome : ((runs Setup.quiet.start retiring).2.bmp 0).requests.head?.isSome := by
    decide +kernel
  obtain ⟨hplaced, hreleased⟩ := boards_released h
  obtain ⟨r, hr⟩ := Option.isSome_iff_exists.mp hsome
  have hone : r.onDone = 1 := hlast r hr
  have hgone : 1 ∉ (runs Setup.quiet.start retiring).2.jobs ∧
      (runs Setup.quiet.start retiring).2.outstanding 1 = 1 ∧
      ((runs Setup.quiet.start retiring).2.retiredJobs.get? 1).isSome := by decide +kernel
  have hfreed := hreleased 0 true r hr
  rw [hone] at hfreed
  refine ⟨(hplaced 1).mpr (.inr ⟨hgone.1, ?_⟩), (hfreed hgone.1 hgone.2.1).mpr hgone.2.2⟩
  rw [hgone.2.1]
  exact Nat.one_pos

/-- If no retired jobs are kept, the job stays allocated for ever. -/
theorem boards_not_released :
    (system Setup.forgetful).Reachable
      (next (runs Setup.forgetful.start retiring) (.complete 0 true)) ∧
    ¬∀ id, Placed (next (runs Setup.forgetful.start retiring) (.complete 0 true)).1 id ↔
      id ∈ (next (runs Setup.forgetful.start retiring) (.complete 0 true)).2.jobs ∧
        ((next (runs Setup.forgetful.start retiring) (.complete 0 true)).2.job id).boards ≠ none ∨
      id ∉ (next (runs Setup.forgetful.start retiring) (.complete 0 true)).2.jobs ∧
        0 < (next (runs Setup.forgetful.start retiring) (.complete 0 true)).2.outstanding id := by
  refine ⟨.next (.next (.next (.next (.next (.start rfl) rfl) rfl) rfl) rfl) rfl, fun h => ?_⟩
  have hplaced : Placed (next (runs Setup.forgetful.start retiring) (.complete 0 true)).1 1 :=
    ⟨0, by decide +kernel, by decide +kernel⟩
  obtain hlive | hwaits := (h 1).mp hplaced
  · have hgone : 1 ∉ (next (runs Setup.forgetful.start retiring) (.complete 0 true)).2.jobs := by
      decide +kernel
    exact hgone hlive.1
  · have hidle : (next (runs Setup.forgetful.start retiring) (.complete 0 true)).2.outstanding 1 =
        0 := by decide +kernel
    rw [hidle] at hwaits
    exact absurd hwaits.2 (lt_irrefl 0)

end SpallocServer.Controller
