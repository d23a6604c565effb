import SpallocServer.Foundation.System
import SpallocServer.JobQueue.Rules

namespace SpallocServer.JobQueue

open Foundation Prog

/-- A call of one of the callbacks, with its arguments. -/
inductive Event where
  | allocated (id : ℕ) (machine : String) (boards : Finset Board) (periphery : Finset BoardLink)
    (torus : WrapAround)
  | freed (id : ℕ) (reason : Option String)
  | cancelled (id : ℕ) (reason : Option String)

/-- Which callback was called. -/
inductive Kind where
  | allocate
  | free
  | cancel
  deriving DecidableEq, Repr

namespace Event

def id : Event → ℕ
  | .allocated id _ _ _ _ => id
  | .freed id _ => id
  | .cancelled id _ => id

def kind : Event → Kind
  | .allocated _ _ _ _ _ => .allocate
  | .freed _ _ => .free
  | .cancelled _ _ => .cancel

end Event

/-- The callbacks issued for a job. -/
def history (log : List Event) (id : ℕ) : List Kind := (log.filter (·.id = id)).map Event.kind

/-- Callbacks that only keep a record. -/
def recorder : Callbacks (List Event) where
  onAllocate id machine boards periphery torus :=
    update (· ++ [.allocated id machine boards periphery torus])
  onFree id reason := update (· ++ [.freed id reason])
  onCancel id reason := update (· ++ [.cancelled id reason])

theorem history_append (log : List Event) (e : Event) (id : ℕ) :
    history (log ++ [e]) id = if e.id = id then history log id ++ [e.kind] else history log id := by
  unfold history
  rw [List.filter_append, List.map_append, List.filter_singleton]
  by_cases h : e.id = id <;> simp [h]

end SpallocServer.JobQueue

namespace SpallocServer

open Foundation Prog JobQueue

/-- A call of a method of a job queue, with its arguments. -/
inductive JobQueueCall where
  | createJob (id : Option ℕ) (machine : Option MachineName) (tags : Option Tags)
    (request : Request)
  | destroyJob (id : ℕ) (reason : Option String)
  | free (id : ℕ)
  | checkFree
  | addMachine (name : String) (width height : ℤ) (tags : Option (Finset String))
    (deadBoards : Finset Board) (deadLinks : Finset BoardLink)
  | modifyMachine (name : String) (tags : Option (Finset String))
    (deadBoards : Option (Finset Board)) (deadLinks : Option (Finset BoardLink))
  | moveMachineToEnd (name : String)
  | removeMachine (name : String)
  | enter
  | exit

def JobQueueCall.exec {ω : Type} (cb : Callbacks ω) : JobQueueCall → Call ω Unit
  | .createJob id machine tags request => JobQueue.createJob cb id machine tags request
  | .destroyJob id reason => JobQueue.destroyJob cb id reason
  | .free id => JobQueue.free cb id
  | .checkFree => JobQueue.checkFree cb
  | .addMachine name width height tags deadBoards deadLinks =>
    JobQueue.addMachine cb name width height tags deadBoards deadLinks
  | .modifyMachine name tags deadBoards deadLinks =>
    JobQueue.modifyMachine cb name tags deadBoards deadLinks
  | .moveMachineToEnd name => JobQueue.moveMachineToEnd name
  | .removeMachine name => JobQueue.removeMachine cb name
  | .enter => JobQueue.enter
  | .exit => JobQueue.exit cb

/-- A job queue, the callbacks it has issued, and the ids its caller has used: those it has
created jobs under, and those of the jobs it has destroyed. -/
structure Schedule where
  queue : JobQueue
  log : List Event
  created : List ℕ
  destroyed : List ℕ

namespace Schedule

/-- The call returns or raises, and the caller remembers the id it named. -/
def run (s : Schedule) (c : JobQueueCall) : Except Error Unit × Schedule :=
  let (res, q, log) := (c.exec recorder).run (s.queue, s.log)
  (res, {
    queue := q
    log := log
    created := match c with
      | .createJob (some id) _ _ _ => id :: s.created
      | _ => s.created
    destroyed := match c with
      | .destroyJob id _ => id :: s.destroyed
      | _ => s.destroyed })

/-- Ids are unique, a job is destroyed at most once and while it is there, it is freed only
after that, and blocks are left only after they are entered. -/
def Disciplined (s : Schedule) : JobQueueCall → Prop
  | .createJob (some id) _ _ _ => id ∉ s.created
  | .destroyJob id _ => id ∉ s.destroyed ∧ (s.queue.jobs.get? id).isSome
  | .free id => id ∈ s.destroyed
  | .exit => 0 < s.queue.postpone
  | _ => True

/-- No machine is removed from under a job that was destroyed and is not freed yet. -/
def Clear (s : Schedule) : JobQueueCall → Prop
  | .removeMachine name => ∀ m, s.queue.machines.get? name = some m →
      ∀ j ∈ s.queue.jobs.values, (s.queue.job j).machine = some m →
        (s.queue.job j).id ∉ s.destroyed
  | _ => True

/-- A new job queue. -/
structure Setup where
  secondsBeforeFree : ℤ
  clock : ℕ → ℕ → ℤ
  setPop : SetPop

def Setup.start (c : Setup) : Schedule where
  queue := .new c.secondsBeforeFree c.clock c.setPop
  log := []
  created := []
  destroyed := []

def system (c : Setup) : System Schedule JobQueueCall where
  init s := s = c.start
  step s call s' := s' = (s.run call).2

end Schedule

namespace JobQueue

structure Orderly (destroyed used : List ℕ) (q : JobQueue) (log : List Event) : Prop where
  known : ∀ j, (q.job j).pending = true → q.jobs.get? (q.job j).id = some j
  unplaced : ∀ j, (q.job j).pending = true → (q.job j).machine = none
  ids : ∀ id j, q.jobs.get? id = some j → (q.job j).id = id ∧ j < q.nextJob
  fresh : ∀ id, id ∉ used → q.jobs.get? id = none ∧ history log id = []
  waiting : ∀ id j, q.jobs.get? id = some j → (q.job j).pending = true → history log id = []
  running : ∀ id j, q.jobs.get? id = some j → (q.job j).pending = false →
    history log id = [.allocate] ∨ (history log id = [.allocate, .free] ∧ id ∈ destroyed)
  gone : ∀ id, q.jobs.get? id = none →
    history log id <+: [.allocate, .free] ∨ history log id <+: [.cancel]
  spent : destroyed ⊆ used
  finished : ∀ id j, id ∈ destroyed → q.jobs.get? id = some j → (q.job j).pending = false

variable {destroyed used : List ℕ} {q q' : JobQueue} {log : List Event} {e : Event}

theorem Orderly.congr (h : Orderly destroyed used q log) (hjob : q'.job = q.job)
    (hjobs : q'.jobs = q.jobs) (hnext : q'.nextJob = q.nextJob) :
    Orderly destroyed used q' log := by
  obtain ⟨h1, h2, h3, h4, h5, h6, h7, h8, h9⟩ := h
  rw [← hjob] at h1 h2 h3 h5 h6 h9
  rw [← hjobs] at h1 h3 h4 h5 h6 h7 h9
  rw [← hnext] at h3
  exact ⟨h1, h2, h3, h4, h5, h6, h7, h8, h9⟩

theorem Orderly.inj (h : Orderly destroyed used q log) {i id j : ℕ}
    (hi : q.jobs.get? i = some j) (hid : q.jobs.get? id = some j) : i = id :=
  (h.ids i j hi).1.symm.trans (h.ids id j hid).1

theorem Orderly.use (h : Orderly destroyed used q log) (id : ℕ) :
    Orderly destroyed (id :: used) q log :=
  { h with
    fresh := fun i hi => h.fresh i fun hu => hi (List.mem_cons_of_mem _ hu)
    spent := fun _ hi => List.mem_cons_of_mem _ (h.spent hi) }

theorem Orderly.mem_used (h : Orderly destroyed used q log) {id j : ℕ}
    (hj : q.jobs.get? id = some j) : id ∈ used := by
  by_contra hu
  rw [(h.fresh id hu).1] at hj
  cases hj

theorem Orderly.ended (h : Orderly destroyed used q log) {id : ℕ} (hu : id ∈ used)
    (hn : q.jobs.get? id = none) : Orderly (id :: destroyed) used q log :=
  { h with
    running := fun i j hj hp =>
      (h.running i j hj hp).imp_right fun hr => ⟨hr.1, List.mem_cons_of_mem _ hr.2⟩
    spent := List.cons_subset.mpr ⟨hu, h.spent⟩
    finished := by
      intro i j hi hj
      obtain rfl | hi := List.mem_cons.mp hi
      · rw [hn] at hj
        cases hj
      · exact h.finished i j hi hj }

theorem withdrawn_job (q : JobQueue) (i j : ℕ) :
    ((q.withdrawn j).job i).id = (q.job i).id ∧
      (((q.withdrawn j).job i).pending = if i = j then false else (q.job i).pending) ∧
      ((q.withdrawn j).job i).machine = (q.job i).machine := by
  by_cases h : i = j
  · subst h
    rw [withdrawn, job_setJob_self, if_pos rfl]
    exact ⟨rfl, rfl, rfl⟩
  · rw [withdrawn, job_setJob_ne h, if_neg h]
    exact ⟨rfl, rfl, rfl⟩

theorem placed_job (q : JobQueue) (i j m allocationId : ℕ) :
    ((q.placed j m allocationId).job i).id = (q.job i).id ∧
      (((q.placed j m allocationId).job i).pending =
        if i = j then false else (q.job i).pending) ∧
      ((q.placed j m allocationId).job i).machine =
        if i = j then some m else (q.job i).machine := by
  by_cases h : i = j
  · subst h
    rw [placed, job_setJob_self, if_pos rfl, if_pos rfl]
    exact ⟨rfl, rfl, rfl⟩
  · rw [placed, job_setJob_ne h, if_neg h, if_neg h]
    exact ⟨rfl, rfl, rfl⟩

theorem Orderly.placed (h : Orderly destroyed used q log) {j m allocationId : ℕ}
    (hp : (q.job j).pending = true) (hid : e.id = (q.job j).id) (hk : e.kind = .allocate) :
    Orderly destroyed used (q.placed j m allocationId) (log ++ [e]) := by
  have hj := h.known j hp
  have hrec (i : ℕ) := placed_job q i j m allocationId
  have hhist (id : ℕ) : history (log ++ [e]) id =
      if (q.job j).id = id then history log id ++ [.allocate] else history log id := by
    rw [history_append, hid, hk]
  have hother (id : ℕ) (hne : q.jobs.get? id ≠ some j) :
      history (log ++ [e]) id = history log id := by
    rw [hhist, if_neg]
    rintro rfl
    exact hne hj
  refine ⟨fun i hi => ?_, fun i hi => ?_, fun id i hi => ?_, fun id hc => ?_,
    fun id i hi hpi => ?_, fun id i hi hpi => ?_, fun id hn => ?_, h.spent, fun id i hd hi => ?_⟩
  · rw [(hrec i).2.1] at hi
    rw [(hrec i).1]
    split at hi
    · cases hi
    · exact h.known i hi
  · rw [(hrec i).2.1] at hi
    split at hi
    · cases hi
    · next hij =>
      rw [(hrec i).2.2, if_neg hij]
      exact h.unplaced i hi
  · rw [(hrec i).1]
    exact h.ids id i hi
  · obtain ⟨hn, hh⟩ := h.fresh id hc
    exact ⟨hn, (hother id (by simp [hn])).trans hh⟩
  · rw [(hrec i).2.1] at hpi
    split at hpi
    · cases hpi
    · next hij =>
      rw [hother id fun he => hij (Option.some.inj (hi.symm.trans he))]
      exact h.waiting id i hi hpi
  · rw [(hrec i).2.1] at hpi
    split at hpi
    · next hij =>
      subst hij
      rw [hhist, h.inj hi hj, if_pos rfl, h.waiting _ i hj hp]
      exact .inl rfl
    · next hij =>
      rw [hother id fun he => hij (Option.some.inj (hi.symm.trans he))]
      exact h.running id i hi hpi
  · rw [hother id (by simp [show q.jobs.get? id = none from hn])]
    exact h.gone id hn
  · rw [(hrec i).2.1, h.finished id i hd hi, ite_self]

theorem Orderly.cancelled (h : Orderly destroyed used q log) {j : ℕ}
    (hp : (q.job j).pending = true) (hid : e.id = (q.job j).id) (hk : e.kind = .cancel) :
    Orderly destroyed used ((q.withdrawn j).dropped (q.job j).id) (log ++ [e]) := by
  have hj := h.known j hp
  have hrec (i : ℕ) := withdrawn_job q i j
  have hget (id i : ℕ) (hi : ((q.withdrawn j).dropped (q.job j).id).jobs.get? id = some i) :
      (q.job j).id ≠ id ∧ q.jobs.get? id = some i ∧ i ≠ j := by
    rw [dropped, Dict.get?_erase] at hi
    split at hi
    · cases hi
    · next hne =>
      refine ⟨hne, hi, ?_⟩
      rintro rfl
      exact hne (h.inj hj hi)
  have hother (id : ℕ) (hne : (q.job j).id ≠ id) :
      history (log ++ [e]) id = history log id := by
    rw [history_append, hid, if_neg hne]
  refine ⟨fun i hi => ?_, fun i hi => ?_, fun id i hi => ?_, fun id hc => ?_,
    fun id i hi hpi => ?_, fun id i hi hpi => ?_, fun id hn => ?_, h.spent, fun id i hd hi => ?_⟩
  · rw [dropped, (hrec i).2.1] at hi
    split at hi
    · cases hi
    · next hij =>
      have hi' := h.known i hi
      rw [dropped, (hrec i).1, Dict.get?_erase, if_neg]
      · exact hi'
      · intro he
        rw [← he, hj] at hi'
        exact hij (Option.some.inj hi').symm
  · rw [dropped, (hrec i).2.1] at hi
    split at hi
    · cases hi
    · rw [dropped, (hrec i).2.2]
      exact h.unplaced i hi
  · obtain ⟨-, hi', -⟩ := hget id i hi
    rw [dropped, (hrec i).1]
    exact h.ids id i hi'
  · obtain ⟨hn, hh⟩ := h.fresh id hc
    have hne : (q.job j).id ≠ id := by
      rintro rfl
      rw [hj] at hn
      cases hn
    rw [hother id hne, dropped, Dict.get?_erase, if_neg hne]
    exact ⟨hn, hh⟩
  · obtain ⟨hne, hi', hij⟩ := hget id i hi
    rw [dropped, (hrec i).2.1, if_neg hij] at hpi
    rw [hother id hne]
    exact h.waiting id i hi' hpi
  · obtain ⟨hne, hi', hij⟩ := hget id i hi
    rw [dropped, (hrec i).2.1, if_neg hij] at hpi
    rw [hother id hne]
    exact h.running id i hi' hpi
  · by_cases hne : (q.job j).id = id
    · subst hne
      rw [history_append, hid, if_pos rfl, h.waiting _ j hj hp, hk]
      exact .inr (List.prefix_refl _)
    · rw [dropped, Dict.get?_erase, if_neg hne] at hn
      rw [hother id hne]
      exact h.gone id hn
  · rw [dropped, (hrec i).2.1, h.finished id i hd (hget id i hi).2.1, ite_self]

theorem Orderly.freed (h : Orderly destroyed used q log) {id j : ℕ}
    (hj : q.jobs.get? id = some j) (hp : (q.job j).pending = false) (hd : id ∉ destroyed)
    (hid : e.id = id) (hk : e.kind = .free) :
    Orderly (id :: destroyed) used q (log ++ [e]) := by
  have hother (i : ℕ) (hne : id ≠ i) : history (log ++ [e]) i = history log i := by
    rw [history_append, hid, if_neg hne]
  have hself : history (log ++ [e]) id = [.allocate, .free] := by
    obtain hr | ⟨-, hr⟩ := h.running id j hj hp
    · rw [history_append, hid, if_pos rfl, hr, hk]
      rfl
    · exact absurd hr hd
  refine ⟨h.known, h.unplaced, h.ids, fun i hc => ?_, fun i k hi hpi => ?_, fun i k hi hpi => ?_,
    fun i hn => ?_, List.cons_subset.mpr ⟨h.mem_used hj, h.spent⟩, fun i k hi hk => ?_⟩
  · obtain ⟨hn, hh⟩ := h.fresh i hc
    refine ⟨hn, ?_⟩
    rw [hother i]
    · exact hh
    · rintro rfl
      rw [hj] at hn
      cases hn
  · rw [hother i]
    · exact h.waiting i k hi hpi
    · rintro rfl
      rw [Option.some.inj (hi.symm.trans hj), hp] at hpi
      cases hpi
  · by_cases hne : id = i
    · subst hne
      exact .inr ⟨hself, List.mem_cons_self⟩
    · rw [hother i hne]
      exact (h.running i k hi hpi).imp_right fun hr => ⟨hr.1, List.mem_cons_of_mem _ hr.2⟩
  · rw [hother i]
    · exact h.gone i hn
    · rintro rfl
      rw [hj] at hn
      cases hn
  · obtain rfl | hi := List.mem_cons.mp hi
    · rw [Option.some.inj (hk.symm.trans hj)]
      exact hp
    · exact h.finished i k hi hk

theorem Orderly.dropped {destroyed' : List ℕ} (h : Orderly destroyed used q log) {id j : ℕ}
    (hj : q.jobs.get? id = some j) (hp : (q.job j).pending = false)
    (hd : ∀ i ∈ destroyed, i ≠ id → i ∈ destroyed') (hd' : destroyed' ⊆ destroyed) :
    Orderly destroyed' used (q.dropped id) log := by
  have hget (i k : ℕ) (hi : (q.dropped id).jobs.get? i = some k) :
      i ≠ id ∧ q.jobs.get? i = some k := by
    rw [JobQueue.dropped, Dict.get?_erase] at hi
    split at hi
    · cases hi
    · next hne => exact ⟨Ne.symm hne, hi⟩
  refine ⟨fun i hi => ?_, h.unplaced, fun i k hi => h.ids i k (hget i k hi).2, fun i hc => ?_,
    fun i k hi hpi => h.waiting i k (hget i k hi).2 hpi, fun i k hi hpi => ?_, fun i hn => ?_,
    fun i hi => h.spent (hd' hi), fun i k hi hk => h.finished i k (hd' hi) (hget i k hk).2⟩
  · have hi' := h.known i hi
    rw [JobQueue.dropped, Dict.get?_erase, if_neg]
    · exact hi'
    · intro he
      have hpi : (q.job i).pending = true := hi
      rw [show (q.job i).id = id from he.symm, hj] at hi'
      rw [Option.some.inj hi', hpi] at hp
      cases hp
  · obtain ⟨hn, hh⟩ := h.fresh i hc
    refine ⟨?_, hh⟩
    rw [JobQueue.dropped, Dict.get?_erase, hn, ite_self]
  · obtain ⟨hne, hi'⟩ := hget i k hi
    exact (h.running i k hi' hpi).imp_right fun hr => ⟨hr.1, hd i hr.2 hne⟩
  · by_cases hne : id = i
    · subst hne
      obtain hr | ⟨hr, -⟩ := h.running id j hj hp
      · rw [hr]
        exact .inl ⟨[.free], rfl⟩
      · rw [hr]
        exact .inl (List.prefix_refl _)
    · rw [JobQueue.dropped, Dict.get?_erase, if_neg hne] at hn
      exact h.gone i hn

theorem Orderly.created (h : Orderly destroyed used q log) (job : Job)
    (hp : job.pending = true) (hm : job.machine = none) (hc : job.id ∉ used) :
    Orderly destroyed (job.id :: used) (q.created job) log := by
  obtain ⟨hnone, hempty⟩ := h.fresh job.id hc
  have hrec (i : ℕ) : (q.created job).job i = if i = q.nextJob then job else q.job i := by
    by_cases hi : i = q.nextJob
    · subst hi
      rw [if_pos rfl]
      exact job_setJob_self _ _
    · rw [if_neg hi]
      exact job_setJob_ne hi _
  have hget (id : ℕ) : (q.created job).jobs.get? id =
      if job.id = id then some q.nextJob else q.jobs.get? id := Dict.get?_set _ _ _ _
  have hold (id i : ℕ) (hi : q.jobs.get? id = some i) : i ≠ q.nextJob := by
    have := (h.ids id i hi).2
    omega
  refine ⟨fun i hi => ?_, fun i hi => ?_, fun id i hi => ?_, fun id hc' => ?_,
    fun id i hi hpi => ?_, fun id i hi hpi => ?_, fun id hn => ?_,
    fun id hi => List.mem_cons_of_mem _ (h.spent hi), fun id i hd hi => ?_⟩
  · rw [hrec] at hi ⊢
    split at hi
    · next he => rw [if_pos he, hget, if_pos rfl, he]
    · next hne =>
      have hi' := h.known i hi
      rw [if_neg hne, hget, if_neg]
      · exact hi'
      · intro he
        rw [← he, hnone] at hi'
        cases hi'
  · rw [hrec] at hi ⊢
    split at hi
    · next he =>
      rw [if_pos he]
      exact hm
    · next hne =>
      rw [if_neg hne]
      exact h.unplaced i hi
  · rw [hget] at hi
    rw [hrec]
    split at hi
    · next he =>
      obtain rfl := Option.some.inj hi
      rw [if_pos rfl]
      exact ⟨he, Nat.lt_succ_self _⟩
    · rw [if_neg (hold id i hi)]
      exact ⟨(h.ids id i hi).1, Nat.lt_succ_of_lt (h.ids id i hi).2⟩
  · rw [List.mem_cons, not_or] at hc'
    rw [hget, if_neg (Ne.symm hc'.1)]
    exact h.fresh id hc'.2
  · rw [hget] at hi
    rw [hrec] at hpi
    split at hi
    · next he =>
      subst he
      exact hempty
    · rw [if_neg (hold id i hi)] at hpi
      exact h.waiting id i hi hpi
  · rw [hget] at hi
    rw [hrec] at hpi
    split at hi
    · obtain rfl := Option.some.inj hi
      rw [if_pos rfl, hp] at hpi
      cases hpi
    · rw [if_neg (hold id i hi)] at hpi
      exact h.running id i hi hpi
  · rw [hget] at hn
    split at hn
    · cases hn
    · exact h.gone id hn
  · rw [hget, if_neg] at hi
    · rw [hrec, if_neg (hold id i hi)]
      exact h.finished id i hd hi
    · rintro rfl
      exact hc (h.spent hd)

/-- The callbacks are orderly, and the depth of the atomic blocks is as stated. -/
def Kept (destroyed used : List ℕ) (depth : ℤ → Prop) (t : JobQueue × List Event) : Prop :=
  Orderly destroyed used t.1 t.2 ∧ depth t.1.postpone

variable {depth : ℤ → Prop} {t : JobQueue × List Event}

theorem Kept.congr (h : Kept destroyed used depth (q, log)) (hjob : q'.job = q.job)
    (hjobs : q'.jobs = q.jobs) (hnext : q'.nextJob = q.nextJob)
    (hpost : q'.postpone = q.postpone) : Kept destroyed used depth (q', log) := by
  refine ⟨h.1.congr hjob hjobs hnext, ?_⟩
  dsimp only
  rw [hpost]
  exact h.2

theorem kept_rules (destroyed used : List ℕ) (depth : ℤ → Prop) :
    EnqueueRules recorder (Kept destroyed used depth) fun _ => Kept destroyed used depth where
  alloc q log m j rest h _ hp := by
    have hset (a : Allocator) : Kept destroyed used depth (q.setAllocator m a, log) :=
      h.congr rfl rfl rfl rfl
    apply (wp_trivial _).mono
    · intro res a _
      cases res with
      | none => exact hset a
      | some al => exact ⟨(hset a).1.placed hp rfl rfl, h.2⟩
    · intro _ a _
      exact hset a
  skip q log m j rest h _ _ := h.congr rfl rfl rfl rfl
  known q log j h hp := h.1.known j hp
  offer q log j m h _ _ _ := h.congr rfl rfl rfl rfl
  refused q log j e h _ := h
  cancel q log j reason h hp := ⟨h.1.cancelled hp rfl rfl, h.2⟩

theorem regenerateQueues_kept (h : Kept destroyed used depth t) :
    wp (regenerateQueues recorder) (fun _ => Kept destroyed used depth)
      (fun _ => Kept destroyed used depth) t :=
  regenerateQueues_wp (kept_rules destroyed used depth)
    (fun _ _ h => h.congr rfl rfl rfl rfl) (fun _ h => h) h

theorem createJob_kept {id : ℕ} {machine : Option MachineName} {tags : Option Tags}
    {request : Request} (h : Kept destroyed used depth t) (hid : id ∉ used) :
    wp (createJob recorder (some id) machine tags request)
      (fun _ => Kept destroyed (id :: used) depth)
      (fun _ => Kept destroyed (id :: used) depth) t := by
  obtain ⟨q, log⟩ := t
  have hused : Kept destroyed (id :: used) depth (q, log) := ⟨h.1.use id, h.2⟩
  simp only [createJob, wp_bind, wp_queue]
  split
  · exact hused
  rw [wp_bind]
  cases jobTags machine tags with
  | error e => exact hused
  | ok tags =>
    rw [wp_ofExcept_ok, wp_bind, wp_change]
    apply enqueueJob_wp (kept_rules destroyed (id :: used) depth)
    · have hnew := h.1.created ⟨id, true, machine, tags, request, none, none⟩ rfl rfl hid
      exact ⟨hnew, h.2⟩
    · change ((q.setJob _ _).job _).pending = true
      rw [job_setJob_self]

theorem destroyJob_kept {id : ℕ} {reason : Option String} (h : Kept destroyed used depth t)
    (hid : id ∉ destroyed) (hj : (t.1.jobs.get? id).isSome) :
    wp (destroyJob recorder id reason) (fun _ => Kept (id :: destroyed) used depth)
      (fun _ => Kept (id :: destroyed) used depth) t := by
  obtain ⟨q, log⟩ := t
  apply destroyJob_wp fun t ht => processQueue_wp (kept_rules _ _ _).toProcessRules ht
  · intro hn
    rw [hn] at hj
    cases hj
  · intro j hj hp
    obtain rfl := (h.1.ids id j hj).1
    refine ⟨(h.1.cancelled hp rfl rfl).ended (h.1.mem_used hj) ?_, h.2⟩
    exact Dict.get?_erase_self _ _
  · intro j hj hp
    exact ⟨h.1.freed hj hp hid (h.1.ids id j hj).1 rfl, h.2⟩

theorem free_kept {id : ℕ} (h : Kept destroyed used depth t) (hid : id ∈ destroyed) :
    wp (free recorder id) (fun _ => Kept destroyed used depth)
      (fun _ => Kept destroyed used depth) t := by
  obtain ⟨q, log⟩ := t
  have hdrop (j : ℕ) (hj : q.jobs.get? id = some j) :
      Kept destroyed used depth (q.dropped id, log) :=
    ⟨h.1.dropped hj (h.1.finished id j hid hj) (fun _ hi _ => hi) fun _ hi => hi, h.2⟩
  apply free_wp fun t ht => processQueue_wp (kept_rules _ _ _).toProcessRules ht
  · intro _
    exact h
  · intro j hj _
    exact hdrop j hj
  · intro j hj _
    exact hdrop j hj
  · intro j m allocationId hj _ _
    apply (wp_trivial _).mono <;> intro _ a _ <;> exact (hdrop j hj).congr rfl rfl rfl rfl

theorem addMachine_kept {name : String} {width height : ℤ} {tags : Option (Finset String)}
    {deadBoards : Finset Board} {deadLinks : Finset BoardLink}
    (h : Kept destroyed used depth t) :
    wp (addMachine recorder name width height tags deadBoards deadLinks)
      (fun _ => Kept destroyed used depth) (fun _ => Kept destroyed used depth) t := by
  simp only [addMachine, wp_bind, wp_queue]
  split
  · exact h
  · rw [wp_bind, wp_change]
    exact regenerateQueues_kept (h.congr rfl rfl rfl rfl)

theorem modifyMachine_kept {name : String} {tags : Option (Finset String)}
    {deadBoards : Option (Finset Board)} {deadLinks : Option (Finset BoardLink)}
    (h : Kept destroyed used depth t) :
    wp (modifyMachine recorder name tags deadBoards deadLinks)
      (fun _ => Kept destroyed used depth) (fun _ => Kept destroyed used depth) t := by
  simp only [modifyMachine, wp_bind, wp_queue]
  cases t.1.machines.get? name with
  | none => exact h
  | some m =>
    dsimp only
    rw [wp_bind, wp_change]
    exact regenerateQueues_kept (h.congr rfl rfl rfl rfl)

theorem moveMachineToEnd_kept {name : String} (h : Kept destroyed used depth t) :
    wp (moveMachineToEnd name) (fun _ => Kept destroyed used depth)
      (fun _ => Kept destroyed used depth) t := by
  simp only [moveMachineToEnd, wp_bind, wp_queue]
  split
  · exact h
  · exact h.congr rfl rfl rfl rfl

theorem checkFree_kept (h : Kept destroyed used depth t) :
    wp (checkFree recorder) (fun _ => Kept destroyed used depth)
      (fun _ => Kept destroyed used depth) t := by
  obtain ⟨q, log⟩ := t
  apply checkFree_wp (kept_rules destroyed used depth).toProcessRules _ h
  intro q log m h _
  apply (wp_trivial _).mono <;> intro _ a _ <;> exact h.congr rfl rfl rfl rfl

theorem enter_kept (h : Kept destroyed used depth t) :
    wp (enter (ω := List Event)) (fun _ => Kept destroyed used fun p => depth (p - 1))
      (fun _ _ => False) t := by
  refine ⟨h.1.congr rfl rfl rfl, ?_⟩
  dsimp only
  rw [add_sub_cancel_right]
  exact h.2

theorem exit_kept (h : Kept destroyed used (fun p => depth (p - 1)) t) :
    wp (exit recorder) (fun _ => Kept destroyed used depth)
      (fun _ => Kept destroyed used depth) t := by
  simp only [exit, wp_bind, wp_change]
  exact regenerateQueues_kept ⟨h.1.congr rfl rfl rfl, h.2⟩

theorem sweep_kept {id j m : ℕ} (reason : Option String)
    (h : Kept destroyed used depth (q, log)) (hpost : q.postpone ≠ 0)
    (hj : q.jobs.get? id = some j) (hm : (q.job j).machine = some m) (hid : id ∉ destroyed) :
    wp (destroyJob recorder id reason >>= fun _ => free recorder id)
      (fun _ t => Kept destroyed used depth t ∧ t.1.postpone = q.postpone ∧ t.1.job = q.job ∧
        t.1.machines = q.machines ∧ t.1.jobs = q.jobs.erase id)
      (fun _ => Kept destroyed used depth) (q, log) := by
  have hp : (q.job j).pending = false := by
    by_contra hp
    rw [h.1.unplaced j (by simpa using hp)] at hm
    cases hm
  have hfreed (w : List Event) (hw : Orderly (id :: destroyed) used q w) :
      Kept destroyed used depth (q.dropped id, w) :=
    ⟨hw.dropped hj hp (fun i hi hne => (List.mem_cons.mp hi).resolve_left hne)
      fun _ hi => List.mem_cons_of_mem _ hi, h.2⟩
  rw [wp_bind]
  have hdestroy : wp (destroyJob recorder id reason)
      (fun _ t => q = t.1 ∧ Orderly (id :: destroyed) used q t.2)
      (fun _ => Kept destroyed used depth) (q, log) := by
    apply destroyJob_wp (I := fun t => q = t.1 ∧ Orderly (id :: destroyed) used q t.2)
    · rintro ⟨_, w⟩ ⟨rfl, hw⟩
      exact processQueue_postponed hpost ⟨rfl, hw⟩
    · intro hn
      rw [hj] at hn
      cases hn
    · intro i hi hp'
      rw [← Option.some.inj (hj.symm.trans hi), hp] at hp'
      cases hp'
    · intro i hi hp'
      exact ⟨rfl, h.1.freed hi hp' hid (h.1.ids id i hi).1 rfl⟩
  apply hdestroy.mono _ fun _ _ he => he
  rintro _ ⟨_, w⟩ ⟨rfl, hw⟩
  have hkept := hfreed w hw
  apply free_wp (I := fun t => Kept destroyed used depth t ∧ t.1.postpone = q.postpone ∧
    t.1.job = q.job ∧ t.1.machines = q.machines ∧ t.1.jobs = q.jobs.erase id)
  · intro t ht
    exact processQueue_postponed (ht.2.1 ▸ hpost) ht
  · intro hn
    rw [hj] at hn
    cases hn
  · intro _ _ _
    exact hkept
  · intro _ _ _
    exact hkept
  · intro i m' allocationId _ _ _
    apply (wp_trivial _).mono <;> intro _ a _
    · exact ⟨hkept.congr rfl rfl rfl rfl, rfl, rfl, rfl, rfl⟩
    · exact hkept.congr rfl rfl rfl rfl

theorem removeMachine_kept {name : String} (h : Kept destroyed used (0 ≤ ·) (q, log))
    (hclear : ∀ m, q.machines.get? name = some m → ∀ j ∈ q.jobs.values,
      (q.job j).machine = some m → (q.job j).id ∉ destroyed) :
    wp (removeMachine recorder name) (fun _ => Kept destroyed used (0 ≤ ·))
      (fun _ => Kept destroyed used (0 ≤ ·)) (q, log) := by
  have hdepth : 0 ≤ q.postpone := h.2
  have hleave (t : JobQueue × List Event) (ht : Kept destroyed used (· = q.postpone + 1) t) :
      Kept destroyed used (fun p => 0 ≤ p - 1) t := by
    refine ⟨ht.1, ?_⟩
    rw [ht.2]
    dsimp only
    rw [add_sub_cancel_right]
    exact hdepth
  apply removeMachine_sweeps (F := fun _ => Kept destroyed used (· = q.postpone + 1))
    (K := fun _ => Kept destroyed used (· = q.postpone + 1))
  · exact fun id j hj => (h.1.ids id j hj).1
  · exact fun _ => h
  · exact fun m _ => ⟨h.1.congr rfl rfl rfl, rfl⟩
  · intro m j rest t hm hs hk hj
    obtain ⟨q', log'⟩ := t
    have hin : j ∈ q.jobs.values := by
      have hget := hs.known j List.mem_cons_self
      have hj' : j ∈ q'.jobs.values := Dict.mem_values.mpr ⟨_, hget⟩
      rw [hs.values] at hj'
      exact (List.mem_filter.mp hj').1
    have hpost : q'.postpone ≠ 0 := by
      have hpost := hk.2
      dsimp only at hpost
      omega
    have hturn := sweep_kept (some "Machine removed.") hk hpost (hs.known j List.mem_cons_self)
      (hs.job ▸ hj) (hclear m hm j hin hj)
    exact hturn.mono (fun _ _ ht => ⟨ht.1, ht.2.2⟩) fun _ _ he => he
  · exact fun m t _ _ ht => exit_kept (hleave _ (ht.congr rfl rfl rfl rfl))
  · exact fun _ t ht => exit_kept (hleave t ht)

end JobQueue

namespace Schedule

open JobQueue

variable {s : Schedule} {c : JobQueueCall}

def Lawful (s : Schedule) : Prop :=
  Kept s.destroyed s.created (0 ≤ ·) (s.queue, s.log)

theorem run_lawful (h : s.Lawful) (hc : s.Disciplined c) (hclear : s.Clear c) :
    (s.run c).2.Lawful := by
  have hrun := wp_same (m := c.exec recorder) (s := (s.queue, s.log))
    (I := Kept (s.run c).2.destroyed (s.run c).2.created (0 ≤ ·)) ?_
  · exact hrun
  cases c with
  | createJob id machine tags request =>
    cases id with
    | none =>
      change wp (createJob recorder none machine tags request) _ _ _
      simp only [createJob, wp_bind, wp_queue]
      exact h
    | some id => exact createJob_kept h hc
  | destroyJob id reason => exact destroyJob_kept h hc.1 hc.2
  | free id => exact free_kept h hc
  | checkFree => exact checkFree_kept h
  | addMachine name width height tags deadBoards deadLinks => exact addMachine_kept h
  | modifyMachine name tags deadBoards deadLinks => exact modifyMachine_kept h
  | moveMachineToEnd name => exact moveMachineToEnd_kept h
  | removeMachine name => exact removeMachine_kept h hclear
  | enter =>
    apply (enter_kept h).mono
    · rintro _ t ⟨ho, hp⟩
      exact ⟨ho, by dsimp only at hp ⊢; omega⟩
    · intro _ _ hf
      exact hf.elim
  | exit =>
    apply exit_kept
    refine ⟨h.1, ?_⟩
    have hdepth : 0 < s.queue.postpone := hc
    dsimp only
    omega

theorem start_lawful (c : Setup) : c.start.Lawful :=
  ⟨{ known := nofun, unplaced := nofun, ids := nofun, fresh := fun _ _ => ⟨rfl, rfl⟩
     waiting := nofun, running := nofun, gone := fun _ _ => .inr (List.nil_prefix)
     spent := fun _ hi => hi, finished := nofun }, le_rfl⟩

theorem reachable_lawful {c : Setup}
    (h : (((system c).restrict Disciplined).restrict Clear).Reachable s) : s.Lawful := by
  apply h.invariant
  · rintro _ rfl
    exact start_lawful c
  · rintro s call _ - hs ⟨hclear, hc, rfl⟩
    exact run_lawful hs hc hclear

/-- The callbacks of every job are a beginning of an allocation and its release, or of a
cancellation, as long as no machine is removed from under a destroyed job. -/
theorem history_lawful (c : Setup)
    (h : (((system c).restrict Disciplined).restrict Clear).Reachable s) (id : ℕ) :
    history s.log id <+: [.allocate, .free] ∨ history s.log id <+: [.cancel] := by
  obtain ⟨ho, -⟩ := reachable_lawful h
  cases hj : s.queue.jobs.get? id with
  | none => exact ho.gone id hj
  | some j =>
    cases hp : (s.queue.job j).pending with
    | true =>
      rw [ho.waiting id j hj hp]
      exact .inr List.nil_prefix
    | false =>
      obtain hr | ⟨hr, -⟩ := ho.running id j hj hp
      · rw [hr]
        exact .inl ⟨[.free], rfl⟩
      · rw [hr]
        exact .inl (List.prefix_refl _)

/-- The states along some calls, made one after the other. -/
def runs (s : Schedule) (calls : List JobQueueCall) : Schedule :=
  calls.foldl (fun s c => (s.run c).2) s

def Setup.quiet : Setup := ⟨0, fun _ _ => 0, .least⟩

theorem reachable_run {c : Setup} {ok : Schedule → JobQueueCall → Prop}
    (h : ((system c).restrict ok).Reachable s) (call : JobQueueCall) (hok : ok s call) :
    ((system c).restrict ok).Reachable (s.run call).2 := .next h ⟨hok, rfl⟩

theorem reachable_run_clear {c : Setup}
    (h : (((system c).restrict Disciplined).restrict Clear).Reachable s) (call : JobQueueCall)
    (hclear : s.Clear call) (hc : s.Disciplined call) :
    (((system c).restrict Disciplined).restrict Clear).Reachable (s.run call).2 :=
  .next h ⟨hclear, hc, rfl⟩

def orderlyRemoval : List JobQueueCall :=
  [.addMachine "m" 1 1 none ∅ ∅, .createJob (some 1) none none { args := .nil },
    .destroyJob 1 none, .free 1, .removeMachine "m"]

theorem history_lawful_orderlyRemoval :
    history (runs Setup.quiet.start orderlyRemoval).log 1 <+: [.allocate, .free] ∨
      history (runs Setup.quiet.start orderlyRemoval).log 1 <+: [.cancel] := by
  have h0 : (((system Setup.quiet).restrict Disciplined).restrict Clear).Reachable
      Setup.quiet.start := .start rfl
  have h1 := reachable_run_clear h0 (.addMachine "m" 1 1 none ∅ ∅) trivial trivial
  have h2 := reachable_run_clear h1 (.createJob (some 1) none none { args := .nil }) trivial
    List.not_mem_nil
  have h3 := reachable_run_clear h2 (.destroyJob 1 none) trivial
    ⟨List.not_mem_nil, by decide +kernel⟩
  have h4 := reachable_run_clear h3 (.free 1) trivial (List.mem_singleton_self 1)
  have hempty : (runs Setup.quiet.start (orderlyRemoval.take 4)).queue.jobs.values = [] := by
    decide +kernel
  have h5 := reachable_run_clear h4 (.removeMachine "m") (fun m _ j hj => ?_) trivial
  · exact history_lawful Setup.quiet h5 1
  · change j ∈ (runs Setup.quiet.start (orderlyRemoval.take 4)).queue.jobs.values at hj
    rw [hempty] at hj
    cases hj

def heldRemoval : List JobQueueCall :=
  [.addMachine "m" 1 1 none ∅ ∅, .createJob (some 1) none none { args := .nil },
    .destroyJob 1 none, .removeMachine "m"]

theorem heldRemoval_freed_twice :
    ¬ ∀ s, ((system Setup.quiet).restrict Disciplined).Reachable s → ∀ id,
      history s.log id <+: [.allocate, .free] ∨ history s.log id <+: [.cancel] := by
  intro h
  have h0 : ((system Setup.quiet).restrict Disciplined).Reachable Setup.quiet.start :=
    .start rfl
  have h1 := reachable_run h0 (.addMachine "m" 1 1 none ∅ ∅) trivial
  have h2 := reachable_run h1 (.createJob (some 1) none none { args := .nil })
    List.not_mem_nil
  have h3 := reachable_run h2 (.destroyJob 1 none) ⟨List.not_mem_nil, by decide +kernel⟩
  have h4 := reachable_run h3 (.removeMachine "m") trivial
  have hlog : history (runs Setup.quiet.start heldRemoval).log 1 =
      [.allocate, .free, .free] := by
    decide +kernel
  have hlaw : history (runs Setup.quiet.start heldRemoval).log 1 <+: [.allocate, .free] ∨
      history (runs Setup.quiet.start heldRemoval).log 1 <+: [.cancel] :=
    h _ h4 1
  rw [hlog] at hlaw
  revert hlaw
  decide

end Schedule

end SpallocServer
