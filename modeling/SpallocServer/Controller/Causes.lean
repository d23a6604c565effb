import SpallocServer.Controller.Deeds

namespace SpallocServer.Controller

open Foundation Prog JobQueue

variable {q : JobQueue} {c c' c₀ : Controller} {t : JobQueue × Controller} {id k : ℕ}
  {depth : ℤ}

def Done (ok : Controller → Deed → Prop) (c₀ : Controller) (depth : ℤ)
    (t : JobQueue × Controller) : Prop := Roster depth t ∧ Does ok c₀ t.2

section Calls

variable {ok : Controller → Deed → Prop}

theorem Roster.unretired (h : Roster depth (q, c)) (hid : id ∈ c.jobs) :
    c.retiredJobs.get? id = none := by
  by_contra hne
  exact h.gone id (Option.isSome_iff_ne_none.mpr hne) hid

theorem done_process (hok : Lenient ok) (hh : InPlace c₀) :
    ProcessRules callbacks (Done ok c₀ depth) fun _ => Done ok c₀ depth where
  alloc q c m j rest h hhead hp := by
    have hb := (h.1.pending j hp).2
    apply (((roster_steps depth).alloc q c m j rest h.1 hhead hp).and (wp_trivial _)).mono
    · intro res a hres
      cases res with
      | none => exact ⟨hres.1, h.2⟩
      | some al =>
        exact hres.1.and (onAllocate_does hok h.2 hb ((h.2.inPlace hh).power _ hb))
    · exact fun _ a ha => ⟨ha.1, h.2⟩
  skip q c m j rest h hh hp := ⟨(roster_steps depth).skip q c m j rest h.1 hh hp, h.2⟩

theorem processQueue_does (hok : Lenient ok) (hh : InPlace c₀) (h : Done ok c₀ depth t) :
    wp (processQueue callbacks) (fun _ => Done ok c₀ depth) (fun _ => Done ok c₀ depth) t :=
  processQueue_wp (q := t.1) (w := t.2) (done_process hok hh) h

def worded (c : Controller) (id : ℕ) (reason : Option String) : Option String :=
  if (c.job id).boards = none then some ("Cancelled: " ++ reason.getD "") else reason

theorem destroyQueued_does {reason : Option String} (hok : Lenient ok) (hh : InPlace c₀)
    (h : Done ok c₀ depth (q, c))
    (hend : ∀ names, id ∈ c.jobs →
      ok { c with changedMachines := names } (.retire id (c.worded id reason))) :
    wp (JobQueue.destroyJob callbacks id reason) (fun _ => Done ok c₀ depth)
      (fun _ => Done ok c₀ depth) (q, c) := by
  have hids := h.1.indexed.ids
  apply destroyJob_wp fun _ => processQueue_does hok hh
  · exact fun _ => h
  · intro j hj hp
    obtain ⟨hlive, hb⟩ := h.1.pending j hp
    rw [hids id j hj] at hlive hb
    have hcancel := (roster_steps depth).cancel q c j reason h.1 hp
    rw [hids id j hj] at hcancel ⊢
    apply hcancel.and (onCancel_does hok h.2 (fun hid => ?_) (h.1.unretired hlive) hb)
    have hallowed := hend c.changedMachines hid
    rwa [worded, if_pos hb] at hallowed
  · intro j hj hp
    rw [hids id j hj]
    by_cases hlive : id ∈ c.jobs
    · apply (roster_free h.1 hlive hj hp).and
      apply onFree_does hok h.2 (fun names hm => ?_) (h.1.unretired hlive)
      have hb : (c.job id).boards ≠ none := fun hn => hm (((h.2.inPlace hh).machine id).mp hn)
      have hallowed := hend names hlive
      rwa [worded, if_neg hb] at hallowed
    · exact onFree_wp (fun _ => h) (fun hid => absurd hid hlive) fun _ hid => absurd hid hlive

theorem destroyJob_does {reason : Option String} (hok : Lenient ok) (hh : InPlace c₀)
    (h : Done ok c₀ depth t)
    (hend : ∀ names, id ∈ t.2.jobs →
      ok { t.2 with changedMachines := names } (.retire id (t.2.worded id reason))) :
    wp (destroyJob id reason) (fun _ => Done ok c₀ depth) (fun _ => Done ok c₀ depth) t := by
  simp only [destroyJob, wp_bind, wp_controller]
  split
  · exact destroyQueued_does (q := t.1) (c := t.2) hok hh h hend
  · exact h

def unsuitable : Option String := some ("Cancelled: " ++ "No suitable machines available.")

theorem offer_done {j : ℕ} {machines : List ℕ} (h : Done ok c₀ depth (q, c))
    (hp : (q.job j).pending = true) (hm : ∀ m ∈ machines, m ∈ q.machines.values) :
    wp (offer j machines) (fun _ t => Done ok c₀ depth t ∧ t.2 = c ∧ t.1.job = q.job)
      (fun _ => Done ok c₀ depth) (q, c) := by
  induction machines generalizing q with
  | nil => exact ⟨h, rfl, rfl⟩
  | cons m machines ih =>
    have hm' : ∀ n ∈ machines, n ∈ q.machines.values := fun n hn =>
      hm n (List.mem_cons_of_mem m hn)
    simp only [JobQueue.offer, wp_bind, wp_queue]
    cases hposs : (q.machine m).allocator.allocPossible (q.job j).request with
    | error e => exact h
    | ok possible =>
      rw [wp_ofExcept_ok]
      cases possible with
      | false => exact ih h hp hm'
      | true =>
        simp only [if_true, wp_bind, wp_change]
        have hroster := (roster_steps depth).offer q c j m h.1 hp (hm m List.mem_cons_self) hposs
        exact (ih ⟨hroster, h.2⟩ hp hm').mono (fun _ _ ht => ht) fun _ _ he => he

theorem enqueueJob_does {j : ℕ} (hok : Lenient ok) (hh : InPlace c₀) (h : Done ok c₀ depth (q, c))
    (hp : (q.job j).pending = true)
    (hend : ∀ c, (c.job (q.job j).id).boards = none → ok c (.retire (q.job j).id unsuitable)) :
    wp (enqueueJob callbacks j) (fun _ => Done ok c₀ depth) (fun _ => Done ok c₀ depth) (q, c) := by
  simp only [enqueueJob, wp_bind, wp_queue]
  split
  · exact h
  rw [wp_bind]
  cases hashable (q.job j).machineName with
  | error e => exact h
  | ok _ =>
  rw [wp_ofExcept_ok, wp_bind]
  apply (offer_done h hp fun _ hm => mem_candidates hm).mono _ fun _ _ he => he
  rintro found ⟨q', c'⟩ ⟨hdone, rfl, hjob⟩
  dsimp only at hjob
  cases found with
  | true => exact processQueue_does hok hh hdone
  | false =>
    rw [if_pos (by simp), wp_bind]
    have hb := (hdone.1.pending j (hjob ▸ hp)).2
    dsimp only at hb
    rw [hjob] at hb
    apply (destroyQueued_does hok hh hdone fun names _ => ?_).mono _ fun _ _ he => he
    · exact fun _ t ht => processQueue_does hok hh ht
    · have hunsuitable : c'.worded (q.job j).id (some "No suitable machines available.") =
          unsuitable := if_pos hb
      rw [hunsuitable]
      exact hend _ hb

theorem regenerateLoop_does (hok : Lenient ok) (hh : InPlace c₀)
    (hend : ∀ c id, (c.job id).boards = none → ok c (.retire id unsuitable)) {jobs : List ℕ}
    (h : Done ok c₀ depth t) :
    wp (regenerateLoop callbacks jobs) (fun _ => Done ok c₀ depth) (fun _ => Done ok c₀ depth)
      t := by
  induction jobs generalizing t with
  | nil => exact h
  | cons j rest ih =>
    obtain ⟨q, c⟩ := t
    have hrest (q₀ : JobQueue) (t : JobQueue × Controller) (ht : Done ok c₀ depth t) :
        wp (if t.1.jobs.keys ≠ q₀.jobs.keys ∧ rest ≠ [] then raise mutated
          else regenerateLoop callbacks rest) (fun _ => Done ok c₀ depth)
          (fun _ => Done ok c₀ depth) t := by
      split
      · exact ht
      · exact ih ht
    simp only [regenerateLoop, wp_bind, wp_queue]
    cases hp : (q.job j).pending with
    | false => exact hrest q (q, c) h
    | true =>
      rw [if_pos rfl, wp_bind]
      apply (enqueueJob_does hok hh h hp fun c => hend c _).mono _ fun _ _ he => he
      exact fun _ t ht => hrest q t ht

theorem exit_does (hok : Lenient ok) (hh : InPlace c₀)
    (hend : ∀ c id, (c.job id).boards = none → ok c (.retire id unsuitable))
    (h : Done ok c₀ (depth + 1) t) :
    wp (JobQueue.exit callbacks) (fun _ => Done ok c₀ depth) (fun _ => Done ok c₀ depth) t := by
  obtain ⟨q, c⟩ := t
  have hpost : q.postpone = depth + 1 := h.1.postpone
  have hback : Done ok c₀ depth ({ q with postpone := q.postpone - 1 }, c) := by
    rw [hpost, Int.add_sub_cancel]
    exact ⟨h.1.postponed depth, h.2⟩
  simp only [JobQueue.exit, wp_bind, wp_change, regenerateQueues, wp_queue]
  split
  · exact hback
  · rw [wp_bind, wp_change]
    exact regenerateLoop_does hok hh hend ⟨hback.1.queue_congr sameBooks_cleared rfl, hback.2⟩

theorem done_sweep (hok : Lenient ok) (hh : InPlace c₀)
    (hend : ∀ c id, (c.job id).boards ≠ none → ok c (.retire id (some "Machine removed.")))
    (depth : ℤ) (m : ℕ) :
    SweepRules depth m (fun t => Does ok c₀ t.2) fun _ t => Does ok c₀ t.2 where
  freed q c id j hr h _ _ _ := by
    by_cases hlive : id ∈ c.jobs
    · apply onFree_does hok h (fun names hm => ?_) (hr.unretired hlive)
      exact hend _ id fun hn => hm (((h.inPlace hh).machine id).mp hn)
    · exact onFree_wp (fun _ => h) (fun hid => absurd hid hlive) fun _ hid => absurd hid hlive
  free _ _ _ _ _ _ _ h _ _ _ _ _ := h

structure Reassigning (ok : Controller → Deed → Prop) : Prop where
  lenient : Lenient ok
  arrange : ∀ c, ok c .arrange
  removed : ∀ c id, (c.job id).boards ≠ none → ok c (.retire id (some "Machine removed."))
  unsuitable : ∀ c id, (c.job id).boards = none → ok c (.retire id unsuitable)

theorem notes_registered (c : Controller) (name : String) (machine : Configuration.Machine) :
    Notes c (c.registered name machine) :=
  registered_induct (P := Notes c)
    ⟨rfl, rfl, rfl, rfl, rfl, rfl, rfl, Finset.Subset.refl _, Finset.Subset.refl _⟩
    fun _ _ _ h => ⟨h.nextId, h.jobs, h.job, h.maxRetiredJobs, h.retiredJobs, h.clock, h.reads,
      h.changedJobs, h.changedMachines⟩

theorem done_assign (hok : Reassigning ok) (hh : InPlace c₀) {machines : Machines} :
    AssignRules machines (fun _ => Done ok c₀ 1) fun _ => Done ok c₀ 1 := by
  have harrange {c c' : Controller} (h : Does ok c₀ c) (hn : Notes c c') : Does ok c₀ c' :=
    h.step (hok.arrange c) (d := .arrange) hn
  have hnotes {c : Controller} (machines : Dict String Configuration.Machine)
      (controllers : Dict String (Dict (ℤ × ℤ) ℕ)) :
      Notes c { c with machines := machines, bmpControllers := controllers } :=
    ⟨rfl, rfl, rfl, rfl, rfl, rfl, rfl, Finset.Subset.refl _, Finset.Subset.refl _⟩
  have hroster : AssignRules machines (fun _ => Roster 1) fun _ => Roster 1 := roster_assign
  exact {
    postponed := fun _ t h => h.1.postpone.symm ▸ Int.one_pos
    remove := fun l name t h _ => by
      obtain ⟨q, c⟩ := t
      apply SweepRules.removeMachine (done_sweep hok.lenient hh hok.removed 2) h.1 Int.one_pos
        fun _ _ => h.2
      · exact fun _ => h
      · intro m q' c' _ _ ht _ _ hr
        exact ⟨fun _ => ⟨hr, ht⟩,
          fun _ => ⟨hr.tables rfl rfl rfl rfl, harrange ht (hnotes _ c'.bmpControllers)⟩,
          fun _ _ => ⟨hr.tables rfl rfl rfl rfl, harrange ht (hnotes _ _)⟩⟩
      · exact fun _ _ _ hr he => ⟨hr, he⟩
    stop := fun l t h => ⟨hroster.stop l t h.1, harrange h.2
      ⟨rfl, rfl, rfl, rfl, rfl, rfl, rfl, Finset.Subset.refl _, Finset.Subset.refl _⟩⟩
    change := fun name old new q c h hold hnew hminor => by
      obtain ⟨hnone, hsome⟩ := hroster.change name old new q c h.1 hold hnew hminor
      exact ⟨fun hn => ⟨hnone hn, h.2⟩, fun m hm =>
        ⟨hsome m hm, harrange h.2 (hnotes _ c.bmpControllers)⟩⟩
    add := fun name new q c h hn hnew => by
      obtain ⟨hused, hadded⟩ := hroster.add name new q c h.1 hn hnew
      have hregistered := harrange h.2 (notes_registered c name new)
      exact ⟨fun hs => ⟨hused hs, hregistered⟩, fun hn => ⟨hadded hn, hregistered⟩⟩
    move := fun name q c h => by
      obtain ⟨hunknown, hunqueued, hmoved⟩ := hroster.move name q c h.1
      have hlast := harrange h.2 (hnotes (c.machines.moveToEnd name) c.bmpControllers)
      exact ⟨fun hn => ⟨hunknown hn, h.2⟩, fun hn => ⟨hunqueued hn, hlast⟩, ⟨hmoved, hlast⟩⟩ }

theorem setMachines_does (hok : Reassigning ok) (hh : InPlace c₀) {machines : Machines}
    (h : Done ok c₀ 0 t) :
    wp (setMachines machines) (fun _ => Done ok c₀ 0) (fun _ => Done ok c₀ 0) t := by
  have hinside : Done ok c₀ 1 ({ t.1 with postpone := t.1.postpone + 1 }, t.2) := by
    rw [h.1.postpone]
    exact ⟨Roster.postponed (q := t.1) (c := t.2) h.1 1, h.2⟩
  have hexit {t : JobQueue × Controller} (ht : Done ok c₀ (0 + 1) t) :=
    exit_does hok.lenient hh hok.unsuitable ht
  apply ((done_assign hok hh).reassigns hinside (fun _ _ _ ht => hexit ht)
    fun _ _ ht => hexit ht).mono _ fun _ _ he => he
  rintro _ _ ⟨u, hu, rfl⟩
  refine ⟨Roster.tables (q := u.1) (c := u.2) hu.1 rfl rfl rfl rfl,
    hu.2.noted hok.lenient ⟨rfl, rfl, rfl, rfl, rfl, rfl, rfl, Finset.Subset.refl _, ?_⟩ rfl⟩
  exact fun _ hname => Finset.mem_union_left _ (Finset.mem_union_left _
    (Finset.mem_union_left _ hname))

theorem aliveUntil_due {seconds : Option ℚ} {E : Error → Controller → Prop}
    {Q : Option Keepalive → Controller → Prop}
    (h : Q (c.due seconds) { c with reads := c.ticked seconds }) :
    wp (aliveUntil seconds) Q E c := by
  cases seconds with
  | none => exact h
  | some seconds => exact h

theorem createJob_does {ownerhost owner : Option String} {keepalive : Option (Option ℚ)}
    {machine : Option MachineName} {tags : Option Tags} {request : Request}
    (hok : Lenient ok) (hh : InPlace c₀) (h : Done ok c₀ depth (q, c))
    (hlist : ∀ owner' seconds, owner = some owner' → keepalive = some seconds →
      ok c (.enlist owner' seconds ownerhost))
    (hend : ∀ c', (c'.job c.nextId).boards = none → ok c' (.retire c.nextId unsuitable)) :
    wp (createJob ownerhost owner keepalive machine tags request) (fun _ => Done ok c₀ depth)
      (fun _ => Done ok c₀ depth) (q, c) := by
  unfold createJob
  cases owner with
  | none => exact h
  | some owner =>
    cases keepalive with
    | none => exact h
    | some seconds =>
      simp only [wp_bind, wp_controller, wp_adjust, wp_own]
      apply aliveUntil_due
      have hlisted : Does ok c₀ (c.enlisted owner seconds ownerhost) :=
        h.2.step (hlist owner seconds rfl rfl) (d := .enlist owner seconds ownerhost) rfl
      have henlisted : Done ok c₀ depth (q, c.enlisted owner seconds ownerhost) :=
        ⟨h.1.enlisted, hlisted⟩
      change wp (JobQueue.createJob callbacks (some c.nextId) machine tags request) _ _
        (q, c.enlisted owner seconds ownerhost)
      have hreport (t : JobQueue × Controller) (ht : Done ok c₀ depth t) : Done ok c₀ depth
          (t.1, { t.2 with changedJobs := insert c.nextId t.2.changedJobs }) :=
        ⟨Roster.tables (q := t.1) (c := t.2) ht.1 rfl rfl rfl rfl, ht.2.noted hok
          { Notes.refl t.2 with changedJobs := Finset.subset_insert _ _ } rfl⟩
      simp only [JobQueue.createJob, wp_bind, wp_queue]
      split
      · exact henlisted
      next hunused =>
      rw [wp_bind]
      cases jobTags machine tags with
      | error e => exact henlisted
      | ok tags' =>
      rw [wp_ofExcept_ok, wp_bind, wp_change]
      have hnone := Option.not_isSome_iff_eq_none.mp hunused
      have hjob : (q.created ⟨c.nextId, true, machine, tags', request, none, none⟩).job q.nextJob =
          ⟨c.nextId, true, machine, tags', request, none, none⟩ := JobQueue.job_setJob_self _ _
      have hcreated : Done ok c₀ depth (q.created ⟨c.nextId, true, machine, tags', request, none,
          none⟩, c.enlisted owner seconds ownerhost) :=
        ⟨h.1.created hnone machine tags' request, hlisted⟩
      apply (enqueueJob_does (j := q.nextJob) hok hh hcreated ?_ ?_).mono
        (fun _ t ht => hreport t ht) fun _ _ he => he
      · rw [hjob]
      · rw [hjob]
        exact hend

theorem destroyTimedOutJobs_does (hok : Lenient ok) (hh : InPlace c₀) (h : Done ok c₀ depth (q, c))
    (hend : ∀ c' id alive, (c'.job id).keepalive = some alive →
      alive.keepaliveUntil < c.clock c.reads →
      ok c' (.retire id (c'.worded id (some "Job timed out.")))) :
    wp destroyTimedOutJobs (fun _ => Done ok c₀ depth) (fun _ => Done ok c₀ depth) (q, c) := by
  simp only [destroyTimedOutJobs, wp_bind, wp_own, timestamp, wp_state, wp_update, wp_pure,
    wp_controller]
  have hread : Done ok c₀ depth (q, { c with reads := c.reads + 1 }) :=
    ⟨h.1.same rfl rfl rfl fun _ => rfl, h.2.routine hok (d := .read) trivial rfl⟩
  apply wp_forEach (I := fun _ => Done ok c₀ depth) _ hread
  intro id rest t _ ht
  simp only [wp_bind, wp_controller]
  split
  · next alive hk =>
    split
    · next hlate => exact destroyJob_does hok hh ht fun names _ => hend _ id alive hk hlate
    · exact ht
  · exact ht

theorem countDown_does (hok : Lenient ok) (hh : InPlace c₀) (h : Done ok c₀ depth t) :
    wp (countDown id) (fun _ => Done ok c₀ depth) (fun _ => Done ok c₀ depth) t := by
  have hcount : wp (bmpOnRequestComplete id true none) (fun _ => Done ok c₀ depth)
      (fun _ => Done ok c₀ depth) t := by
    have huncount {q : JobQueue} {c : Controller} (ht : Done ok c₀ depth (q, c)) :
        Done ok c₀ depth (q, c.uncounted id) :=
      ⟨ht.1.uncounted id, ht.2.routine hok (d := .uncount id) trivial rfl⟩
    apply bmpOnRequestComplete_reports (J := Done ok c₀ depth) (K := Done ok c₀ depth) h
    · intro hs
      cases hs
    · exact fun q c ht _ => huncount ht
    · exact fun q c ht _ => huncount ht
    · intro q c ht hone
      have hready : Done ok c₀ depth (q, (c.uncounted id).readied id) :=
        ⟨ht.1.readied id, ht.2.routine hok (d := .ready id) trivial ⟨hone, rfl⟩⟩
      apply freeRetired_wp
      · exact fun _ => hready
      · intro hretired
        apply hready.1.free_wp (ht.1.gone _ hretired) fun _ => processQueue_does hok hh
        · exact fun _ => hready
        · exact fun j m a b hj hheld hm hrun => ⟨hready.1.freed hj hheld hm hrun, hready.2⟩
    · exact fun q c ht _ => ⟨ht.1.tables rfl rfl rfl rfl, ht.2.noted hok
        { Notes.refl c with changedJobs := Finset.subset_insert _ _ } rfl⟩
    · exact fun _ _ ht _ => ht
  simpa only [bmpOnRequestComplete, cancelFailed, if_true, wp_bind, wp_pure] using hcount

def failure (c : Controller) (b : ℕ) : Option String :=
  some ("Machine configuration failed." ++ (" Error: " ++ (c.bmp b).reason))

theorem complete_does {b : ℕ} {success : Bool} (hok : Lenient ok) (hh : InPlace c₀)
    (h : Done ok c₀ depth (q, c))
    (hend : ∀ c' r rest, (c.bmp b).requests = r :: rest → success = false →
      ok c' (.retire r.onDone (c'.worded r.onDone (c.failure b)))) :
    wp (complete b success) (fun _ => Done ok c₀ depth) (fun _ => Done ok c₀ depth) (q, c) := by
  apply complete_wp
  · exact fun _ => h
  intro r rest hr
  have hpopped : Done ok c₀ depth (q, c.setBmp b (c.bmp b).popped) :=
    ⟨h.1.tables rfl rfl rfl rfl,
      h.2.noted hok ⟨rfl, rfl, rfl, rfl, rfl, rfl, rfl, Finset.Subset.refl _,
        Finset.Subset.refl _⟩ rfl⟩
  simp only [bmpOnRequestComplete, wp_bind]
  cases success with
  | true => exact countDown_does hok hh hpopped
  | false =>
    apply (destroyJob_does hok hh hpopped fun names _ => hend _ r rest hr rfl).mono _
      fun _ _ he => he
    exact fun _ t ht => countDown_does hok hh ht

end Calls

/-- What a job may go for while an operation is carried out that began with the first
controller. -/
def Operation.Ends (c₀ c : Controller) (id : ℕ) (reason : Option String) : Operation → Prop
  | .createJob .. => id = c₀.nextId ∧ reason = unsuitable ∧ (c.job id).boards = none
  | .destroyJob id' reason' => id = id' ∧ reason = c.worded id reason'
  | .destroyTimedOutJobs => ∃ alive, (c.job id).keepalive = some alive ∧
      alive.keepaliveUntil < c₀.clock c₀.reads ∧ reason = c.worded id (some "Job timed out.")
  | .setMachines _ => reason = some "Machine removed." ∧ (c.job id).boards ≠ none ∨
      reason = unsuitable ∧ (c.job id).boards = none
  | .complete b success => success = false ∧ ∃ r rest, (c₀.bmp b).requests = r :: rest ∧
      id = r.onDone ∧ reason = c.worded id (c₀.failure b)
  | _ => False

def Operation.Tends (id : ℕ) (host : Option String) : Operation → Prop
  | .jobKeepalive host' id' | .powerOnJobBoards host' id' | .powerOffJobBoards host' id' =>
    id' = id ∧ host' = host
  | _ => False

/-- What may be done to the jobs by an operation that began with the first controller. Apart from
what clients do, a job is kept alive only when it is started. -/
def Operation.Allows (op : Operation) (c₀ c : Controller) : Deed → Prop
  | .arrange => ∃ machines, op = .setMachines machines
  | .enlist owner seconds host => ∃ machine tags request,
      op = .createJob host (some owner) (some seconds) machine tags request
  | .retire id reason => op.Ends c₀ c id reason
  | .limit value => op = .setMaxRetiredJobs value
  | .keep id host => op.Tends id host ∨ (c.job id).power = none
  | _ => True

theorem allows_lenient (op : Operation) (c₀ : Controller) : Lenient (op.Allows c₀) := by
  intro c d hd
  cases d with
  | arrange => exact hd.elim
  | enlist owner seconds host => exact hd.elim
  | retire id reason => exact hd.elim
  | limit value => exact hd.elim
  | keep id host => exact .inr hd
  | _ => trivial

theorem exec_does (op : Operation) (h : Roster 0 t) (hh : InPlace t.2) :
    wp (exec op) (fun _ => Done (op.Allows t.2) t.2 0) (fun _ => Done (op.Allows t.2) t.2 0)
      t := by
  have hok := allows_lenient op t.2
  have hdone : Done (op.Allows t.2) t.2 0 t := ⟨h, .refl t.2⟩
  have hown {m : Prog Error Controller Unit}
      (hm : wp m (fun _ => Does (op.Allows t.2) t.2) (fun _ => Does (op.Allows t.2) t.2) t.2)
      (hop : exec op = own m) : wp (exec op) (fun _ t' => Does (op.Allows t.2) t.2 t'.2)
        (fun _ t' => Does (op.Allows t.2) t.2 t'.2) t := by
    rw [hop, wp_own (q := t.1) (c := t.2)]
    exact hm
  have hroster {Q : Unit → JobQueue × Controller → Prop}
      {E : Error → JobQueue × Controller → Prop} (hwp : wp (exec op) Q E t) :=
    (exec_roster h).and hwp
  cases op with
  | createJob ownerhost owner keepalive machine tags request =>
    simp only [exec, wp_bind]
    apply (createJob_does (q := t.1) (c := t.2) hok hh hdone ?_ ?_).mono (fun _ _ ht => ht)
      fun _ _ he => he
    · rintro owner' seconds rfl rfl
      exact ⟨machine, tags, request, rfl⟩
    · exact fun c' hb => ⟨rfl, rfl, hb⟩
  | jobKeepalive clienthost id =>
    exact hroster (hown (jobKeepalive_does (.refl t.2) fun _ => .inl ⟨rfl, rfl⟩) rfl)
  | powerOnJobBoards clienthost id =>
    exact hroster (hown (setJobBoards_does hok (.refl t.2) fun _ => .inl ⟨rfl, rfl⟩) rfl)
  | powerOffJobBoards clienthost id =>
    exact hroster (hown (setJobBoards_does hok (.refl t.2) fun _ => .inl ⟨rfl, rfl⟩) rfl)
  | destroyJob id reason => exact destroyJob_does hok hh hdone fun names _ => ⟨rfl, rfl⟩
  | destroyTimedOutJobs =>
    exact destroyTimedOutJobs_does (q := t.1) (c := t.2) hok hh hdone
      fun c' id alive hk hlate => ⟨alive, hk, hlate, rfl⟩
  | checkFree =>
    apply checkFree_wp (q := t.1) (w := t.2) (done_process hok hh) _ hdone
    intro q c m ht hm
    apply ((roster_steps 0).free q c m ht.1 hm).mono
    · exact fun _ a ha => ⟨ha, ht.2⟩
    · exact fun _ a ha => ⟨ha, ht.2⟩
  | setMaxRetiredJobs value =>
    have hlimit : wp (setMaxRetiredJobs value)
        (fun _ => Does ((Operation.setMaxRetiredJobs value).Allows t.2) t.2)
        (fun _ => Does ((Operation.setMaxRetiredJobs value).Allows t.2) t.2) t.2 := by
      simp only [setMaxRetiredJobs_nat, wp_update]
      exact (Does.refl t.2).step (d := .limit value) rfl rfl
    exact hroster (hown hlimit rfl)
  | setMachines machines =>
    apply setMachines_does ⟨hok, fun _ => ⟨machines, rfl⟩, fun c id hb => .inl ⟨rfl, hb⟩,
      fun c id hb => .inr ⟨rfl, hb⟩⟩ hh hdone
  | stop =>
    have hstopped (bmps : List ℕ) : Done (Operation.stop.Allows t.2) t.2 0 (t.1, t.2.stopped bmps) :=
      ⟨Roster.tables (q := t.1) (c := t.2) h rfl rfl rfl rfl, (Does.refl t.2).noted hok
        ⟨rfl, rfl, rfl, rfl, rfl, rfl, rfl, Finset.Subset.refl _, Finset.Subset.refl _⟩ rfl⟩
    exact stop_wp (q := t.1) (c := t.2) hstopped fun bmps _ => hstopped bmps
  | complete b success =>
    exact complete_does (q := t.1) (c := t.2) hok hh hdone
      fun c' r rest hr hs => ⟨hs, r, rest, hr, rfl, rfl⟩

theorem reachable_inPlace {s : Setup} (h : (system s).Reachable t) : InPlace t.2 := by
  apply h.invariant
  · rintro _ rfl
    exact ⟨fun _ => ⟨fun _ => rfl, fun _ => rfl⟩, fun _ _ => rfl⟩
  · rintro t op _ hr ht rfl
    exact (wp_same (exec_does op (reachable_roster hr) ht)).2.inPlace ht

theorem next_does {s : Setup} (h : (system s).Reachable t) (op : Operation) :
    Does (op.Allows t.2) t.2 (next t op).2 :=
  (wp_same (exec_does op (reachable_roster h) (reachable_inPlace h))).2

end SpallocServer.Controller
