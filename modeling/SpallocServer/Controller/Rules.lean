import Mathlib.Data.String.Basic
import SpallocServer.Foundation.System
import SpallocServer.JobQueue.Rules
import SpallocServer.Controller.Commands

namespace SpallocServer.Controller

open Foundation Prog JobQueue

variable {q : JobQueue} {c : Controller} {t : JobQueue × Controller} {id : ℕ} {α : Type}
  {I : JobQueue × Controller → Prop} {E : Error → JobQueue × Controller → Prop}

@[simp] theorem wp_controller {Q : Controller → JobQueue × Controller → Prop} :
    wp controller Q E t ↔ Q t.2 t := Iff.rfl

@[simp] theorem wp_adjust {Q : Unit → JobQueue × Controller → Prop}
    (f : Controller → Controller) : wp (adjust f) Q E t ↔ Q () (t.1, f t.2) := Iff.rfl

theorem wp_own {Q : α → JobQueue × Controller → Prop} (m : Prog Error Controller α) :
    wp (own m) Q E (q, c) ↔
      wp m (fun a c' => Q a (q, c')) (fun e c' => E e (q, c')) c :=
  wp_zoom _ _ m

/-- What is done to one job and to one machine turns `H` into `I`, with `E` for what may be
raised. -/
structure Steps (H I : JobQueue × Controller → Prop) (E : Error → JobQueue × Controller → Prop) :
    Prop where
  alloc : ∀ q c m j rest, H (q, c) → q.Head m j rest → (q.job j).pending = true →
    wp (Allocator.alloc (q.job j).request) (fun res a =>
      match res with
      | none => I (q.setAllocator m a, c)
      | some al =>
        wp (onAllocate (q.job j).id (q.machine m).name al.boards al.periphery al.torus)
          (fun _ c' => I ((q.setAllocator m a).placed j m al.id, c'))
          (fun e c' => E e ((q.setAllocator m a).placed j m al.id, c')) c)
      (fun e a => E e (q.setAllocator m a, c)) (q.machine m).allocator
  skip : ∀ q c m j rest, H (q, c) → q.Head m j rest → (q.job j).pending = false →
    I (q.setQueue m rest, c)
  offer : ∀ q c j m, H (q, c) → (q.job j).pending = true → m ∈ q.machines.values →
    (q.machine m).allocator.allocPossible (q.job j).request = .ok true →
    I (q.setQueue m ((q.machine m).queue ++ [j]), c)
  cancel : ∀ q c j reason, H (q, c) → (q.job j).pending = true →
    wp (onCancel (q.job j).id reason)
      (fun _ c' => I ((q.withdrawn j).dropped (q.job j).id, c'))
      (fun e c' => E e (q.withdrawn j, c')) c
  freed : ∀ q c id j reason, H (q, c) → id ∈ c.jobs → q.jobs.get? id = some j →
    (q.job j).pending = false →
    wp (onFree id reason) (fun _ c' => I (q, c')) (fun e c' => E e (q, c')) c
  read : ∀ q c reads, H (q, c) → I (q, { c with reads := reads })
  refresh : ∀ q c id lasthost alive reads, H (q, c) → I (q, c.refreshed id lasthost alive reads)
  power : ∀ q c id power linkEnable, H (q, c) → id ∈ c.jobs → (c.job id).boards ≠ none →
    wp (setJobPowerAndLinks id power linkEnable) (fun _ c' => I (q, c'))
      (fun e c' => E e (q, c')) c
  free : ∀ q c m, H (q, c) → m ∈ q.machines.values →
    wp Allocator.checkFree (fun _ a => I (q.setAllocator m a, c))
      (fun e a => E e (q.setAllocator m a, c)) (q.machine m).allocator

namespace Steps

variable {H H' J : JobQueue × Controller → Prop} {F : Error → JobQueue × Controller → Prop}

theorem and (h : Steps H I E) (h' : Steps H J F) :
    Steps H (fun t => I t ∧ J t) fun e t => E e t ∧ F e t where
  alloc q c m j rest hs hh hp := by
    apply ((h.alloc q c m j rest hs hh hp).and (h'.alloc q c m j rest hs hh hp)).mono _
      fun _ _ he => he
    intro res a ⟨hI, hJ⟩
    cases res with
    | none => exact ⟨hI, hJ⟩
    | some al => exact hI.and hJ
  skip q c m j rest hs hh hp := ⟨h.skip q c m j rest hs hh hp, h'.skip q c m j rest hs hh hp⟩
  offer q c j m hs hp hm ho := ⟨h.offer q c j m hs hp hm ho, h'.offer q c j m hs hp hm ho⟩
  cancel q c j reason hs hp := (h.cancel q c j reason hs hp).and (h'.cancel q c j reason hs hp)
  freed q c id j reason hs hid hj hp :=
    (h.freed q c id j reason hs hid hj hp).and (h'.freed q c id j reason hs hid hj hp)
  read q c reads hs := ⟨h.read q c reads hs, h'.read q c reads hs⟩
  refresh q c id lasthost alive reads hs :=
    ⟨h.refresh q c id lasthost alive reads hs, h'.refresh q c id lasthost alive reads hs⟩
  power q c id power linkEnable hs hid hb :=
    (h.power q c id power linkEnable hs hid hb).and (h'.power q c id power linkEnable hs hid hb)
  free q c m hs hm := (h.free q c m hs hm).and (h'.free q c m hs hm)

theorem mono (h : Steps H I E) (hH : ∀ t, H' t → H t) (hI : ∀ t, I t → J t)
    (hE : ∀ e t, E e t → F e t) : Steps H' J F where
  alloc q c m j rest hs hh hp := by
    apply (h.alloc q c m j rest (hH _ hs) hh hp).mono _ fun e a he => hE e _ he
    intro res a hres
    cases res with
    | none => exact hI _ hres
    | some al => exact hres.mono (fun _ _ ht => hI _ ht) fun e _ he => hE e _ he
  skip q c m j rest hs hh hp := hI _ (h.skip q c m j rest (hH _ hs) hh hp)
  offer q c j m hs hp hm ho := hI _ (h.offer q c j m (hH _ hs) hp hm ho)
  cancel q c j reason hs hp :=
    (h.cancel q c j reason (hH _ hs) hp).mono (fun _ _ ht => hI _ ht) fun e _ he => hE e _ he
  freed q c id j reason hs hid hj hp :=
    (h.freed q c id j reason (hH _ hs) hid hj hp).mono (fun _ _ ht => hI _ ht)
      fun e _ he => hE e _ he
  read q c reads hs := hI _ (h.read q c reads (hH _ hs))
  refresh q c id lasthost alive reads hs := hI _ (h.refresh q c id lasthost alive reads (hH _ hs))
  power q c id power linkEnable hs hid hb :=
    (h.power q c id power linkEnable (hH _ hs) hid hb).mono (fun _ _ ht => hI _ ht)
      fun e _ he => hE e _ he
  free q c m hs hm :=
    (h.free q c m (hH _ hs) hm).mono (fun _ _ ht => hI _ ht) fun e _ he => hE e _ he

end Steps

/-- The jobs are known by their ids. -/
structure Indexed (q : JobQueue) : Prop where
  known : ∀ j, (q.job j).pending = true → q.jobs.get? (q.job j).id = some j
  ids : ∀ id j, q.jobs.get? id = some j → (q.job j).id = id

/-- An invariant of the job queue and the controller, with `E` for what may be raised. -/
structure JobRules (I : JobQueue × Controller → Prop)
    (E : Error → JobQueue × Controller → Prop) : Prop extends Steps I I E where
  indexed : ∀ t, I t → Indexed t.1
  lost : ∀ q c id, I (q, c) → id ∈ c.jobs → q.jobs.get? id = none → E .attributeError (q, c)

namespace JobRules

variable {F : Error → JobQueue × Controller → Prop}

theorem weaken (h : JobRules I E) (hE : ∀ e t, E e t → F e t) : JobRules I F where
  toSteps := h.toSteps.mono (fun _ ht => ht) (fun _ ht => ht) hE
  indexed := h.indexed
  lost q c id ht hid hn := hE _ _ (h.lost q c id ht hid hn)

theorem toProcessRules (h : JobRules I E) : ProcessRules callbacks I E := ⟨h.alloc, h.skip⟩

theorem enqueue (h : JobRules I E) (hE : ∀ e t, E e t → F e t) (hF : ∀ e t, I t → F e t) :
    EnqueueRules callbacks I F :=
  have h' := h.toSteps.mono (fun _ ht => ht) (fun _ ht => ht) hE
  ⟨⟨h'.alloc, h'.skip⟩, fun q c j ht => (h.indexed (q, c) ht).known j, h'.offer,
    fun q c _ e ht _ => hF e (q, c) ht, h'.cancel⟩

theorem processQueue (h : JobRules I E) (ht : I t) :
    wp (JobQueue.processQueue callbacks) (fun _ => I) E t :=
  processQueue_wp (q := t.1) (w := t.2) h.toProcessRules ht

theorem destroyQueued (h : JobRules I E) {reason : Option String} (ht : I t) (hid : id ∈ t.2.jobs) :
    wp (JobQueue.destroyJob callbacks id reason) (fun _ => I) E t := by
  obtain ⟨q, c⟩ := t
  have hids := (h.indexed (q, c) ht).ids
  apply destroyJob_wp (fun _ => h.processQueue)
  · exact fun hn => h.lost q c id ht hid hn
  · intro j hj hp
    have hcancel := h.cancel q c j reason ht hp
    rwa [hids id j hj] at hcancel ⊢
  · intro j hj hp
    rw [hids id j hj]
    exact h.freed q c id j reason ht hid hj hp

theorem destroyJob (h : JobRules I E) {reason : Option String} (ht : I t) :
    wp (destroyJob id reason) (fun _ => I) E t := by
  simp only [Controller.destroyJob, wp_bind, wp_controller]
  split
  · next hid => exact h.destroyQueued ht hid
  · exact ht

theorem destroyTimedOutJobs (h : JobRules I E) (ht : I t) :
    wp destroyTimedOutJobs (fun _ => I) E t := by
  obtain ⟨q, c⟩ := t
  simp only [Controller.destroyTimedOutJobs, wp_bind, wp_own, timestamp, wp_state, wp_update,
    wp_pure, wp_controller]
  apply wp_forEach (I := fun _ => I) _ (h.read q c _ ht)
  intro id rest t _ ht
  simp only [wp_bind, wp_controller]
  split
  · split
    · exact h.destroyJob ht
    · exact ht
  · exact ht

theorem jobKeepalive (h : JobRules I E) {host : Option String} (ht : I t) :
    wp (own (jobKeepalive host id)) (fun _ => I) E t := by
  rw [wp_own]
  apply jobKeepalive_wp
  exact fun lasthost alive reads => h.refresh t.1 t.2 id lasthost alive reads ht

theorem setJobBoards (h : JobRules I E) {host : Option String} {power : Bool}
    {linkEnable : Option Bool} (ht : I t) :
    wp (own (setJobBoards host id power linkEnable)) (fun _ => I) E t := by
  rw [wp_own]
  apply setJobBoards_wp
  · exact fun _ lasthost alive reads => h.refresh t.1 t.2 id lasthost alive reads ht
  · intro hid hb lasthost alive reads
    apply h.power t.1 _ id power linkEnable (h.refresh t.1 t.2 id lasthost alive reads ht) hid
    unfold refreshed
    rwa [job_setJob, if_pos rfl]

theorem checkFree (h : JobRules I E) (ht : I t) : wp checkFree (fun _ => I) E t :=
  checkFree_wp (q := t.1) (w := t.2) h.toProcessRules h.free ht

end JobRules

theorem createQueued_wp (h : EnqueueRules callbacks I E) {machine : Option MachineName}
    {tags : Option Tags} {request : Request}
    (hused : (q.jobs.get? id).isSome → E (.valueError s!"job_id {id} is not unique") (q, c))
    (hbarred : ∀ e, q.jobs.get? id = none → Barred machine tags → E e (q, c))
    (hcreated : ∀ tags, q.jobs.get? id = none →
      I (q.created ⟨id, true, machine, tags, request, none, none⟩, c)) :
    wp (JobQueue.createJob callbacks (some id) machine tags request) (fun _ => I) E (q, c) := by
  simp only [JobQueue.createJob, wp_bind, wp_queue]
  split
  · next hs => exact hused hs
  next hs =>
  have hnone := Option.not_isSome_iff_eq_none.mp hs
  rw [wp_bind]
  cases htags : jobTags machine tags with
  | error e => exact hbarred e hnone (jobTags_error_iff.mp ⟨e, htags⟩)
  | ok tags =>
  rw [wp_ofExcept_ok, wp_bind, wp_change]
  apply enqueueJob_wp h (hcreated _ hnone)
  change ((q.setJob q.nextJob _).job q.nextJob).pending = true
  rw [job_setJob_self]

theorem createJob_wp {ownerhost owner : Option String} {keepalive : Option (Option ℚ)}
    {machine : Option MachineName} {tags : Option Tags} {request : Request}
    {Q : ℕ → JobQueue × Controller → Prop}
    (hmissing : owner = none ∨ keepalive = none → E .keyError (q, c))
    (hjob : ∀ owner alive reads,
      wp (JobQueue.createJob callbacks (some c.nextId) machine tags request)
        (fun _ t => Q c.nextId (t.1, { t.2 with changedJobs := insert c.nextId t.2.changedJobs }))
        E (q, Controller.createdJob { c with nextId := c.nextId + 1, reads := reads } c.nextId
          owner alive ownerhost)) :
    wp (createJob ownerhost owner keepalive machine tags request) Q E (q, c) := by
  unfold createJob
  cases owner with
  | none => exact hmissing (.inl rfl)
  | some owner =>
    cases keepalive with
    | none => exact hmissing (.inr rfl)
    | some keepalive =>
      simp only [wp_bind, wp_controller, wp_adjust, wp_own]
      apply aliveUntil_wp
      intro alive reads
      exact hjob owner alive reads

/-- `J` holds while a completed request of the job is still counted, and `K` while it is not yet
known that a job is ready. -/
theorem bmpOnRequestComplete_reports {J K : JobQueue × Controller → Prop} {success : Bool}
    {reason : Option String} (ht : J t)
    (hdestroy : success = false → ∀ reason t, J t → wp (destroyJob id reason) (fun _ => J) E t)
    (hnegative : ∀ q c, J (q, c) → (c.job id).bmpRequestsUntilReady < 1 →
      E .assertionError (q, c.uncounted id))
    (hmore : ∀ q c, J (q, c) → 1 < (c.job id).bmpRequestsUntilReady → I (q, c.uncounted id))
    (hlast : ∀ q c, J (q, c) → (c.job id).bmpRequestsUntilReady = 1 →
      wp (freeRetired id) (fun _ => K) E (q, (c.uncounted id).readied id))
    (hlive : ∀ q c, K (q, c) → id ∈ c.jobs →
      I (q, { c with changedJobs := insert id c.changedJobs }))
    (hgone : ∀ q c, K (q, c) → id ∉ c.jobs → I (q, c)) :
    wp (bmpOnRequestComplete id success reason) (fun _ => I) E t := by
  have hcount (t : JobQueue × Controller) (ht : J t) : wp (countDown id) (fun _ => I) E t := by
    have hone : ((t.2.uncounted id).job id).bmpRequestsUntilReady =
        (t.2.job id).bmpRequestsUntilReady - 1 := by
      unfold uncounted
      rw [Controller.job_setJob, if_pos rfl]
    simp only [countDown, wp_bind, wp_adjust, wp_controller, hone]
    split
    · exact hnegative t.1 t.2 ht (by omega)
    split
    · rw [wp_bind, wp_adjust, wp_bind]
      apply (hlast t.1 t.2 ht (by omega)).mono _ fun _ _ he => he
      intro _ t' ht'
      simp only [reportReady, wp_bind, wp_controller]
      split
      · next hid => exact hlive t'.1 t'.2 ht' hid
      · next hid => exact hgone t'.1 t'.2 ht' hid
    · exact hmore t.1 t.2 ht (by omega)
  simp only [bmpOnRequestComplete, wp_bind, cancelFailed]
  split
  · exact hcount t ht
  · next hs =>
    exact (hdestroy (Bool.eq_false_iff.mpr hs) _ t ht).mono (fun _ _ h' => hcount _ h')
      fun _ _ he => he

theorem bmpOnRequestComplete_wp {J : JobQueue × Controller → Prop} {success : Bool}
    {reason : Option String} (ht : J t)
    (hdestroy : success = false → ∀ reason t, J t → wp (destroyJob id reason) (fun _ => J) E t)
    (hnegative : ∀ q c, J (q, c) → (c.job id).bmpRequestsUntilReady < 1 →
      E .assertionError (q, c.uncounted id))
    (hmore : ∀ q c, J (q, c) → 1 < (c.job id).bmpRequestsUntilReady → I (q, c.uncounted id))
    (hlast : ∀ q c, J (q, c) → (c.job id).bmpRequestsUntilReady = 1 →
      wp (freeRetired id) (fun _ => I) E (q, (c.uncounted id).readied id))
    (hchanged : ∀ q c ids, I (q, c) → I (q, { c with changedJobs := ids })) :
    wp (bmpOnRequestComplete id success reason) (fun _ => I) E t :=
  bmpOnRequestComplete_reports ht hdestroy hnegative hmore hlast
    (fun q c ht _ => hchanged q c _ ht) fun _ _ ht _ => ht

namespace JobRules

variable {F : Error → JobQueue × Controller → Prop}

/-- A job that is refused may be left with the controller only. `J` holds when it is known that
there is a new job. -/
theorem createJob_reports {J : JobQueue × Controller → Prop} (h : JobRules I E)
    {ownerhost owner : Option String} {keepalive : Option (Option ℚ)} {machine : Option MachineName}
    {tags : Option Tags} {request : Request} (hE : ∀ e t, E e t → F e t)
    (hF : ∀ e t, I t → F e t) (hmissing : F .keyError (q, c))
    (hrefused : ∀ e owner alive reads, (q.jobs.get? c.nextId).isSome ∨ Barred machine tags →
      F e (q, Controller.createdJob { c with nextId := c.nextId + 1, reads := reads } c.nextId
        owner alive ownerhost))
    (hcreated : ∀ owner alive reads tags, q.jobs.get? c.nextId = none →
      I (q.created ⟨c.nextId, true, machine, tags, request, none, none⟩,
        Controller.createdJob { c with nextId := c.nextId + 1, reads := reads } c.nextId owner alive
          ownerhost))
    (hreports : ∀ q c', I (q, c') →
      J (q, { c' with changedJobs := insert c.nextId c'.changedJobs })) :
    wp (createJob ownerhost owner keepalive machine tags request) (fun _ => J) F (q, c) := by
  apply createJob_wp
  · exact fun _ => hmissing
  intro owner alive reads
  have hqueued : wp (JobQueue.createJob callbacks (some c.nextId) machine tags request)
      (fun _ => I) F (q, Controller.createdJob { c with nextId := c.nextId + 1, reads := reads }
        c.nextId owner alive ownerhost) := by
    apply createQueued_wp (h.enqueue hE hF)
    · exact fun hused => hrefused _ owner alive reads (.inl hused)
    · exact fun _ _ hbarred => hrefused _ owner alive reads (.inr hbarred)
    · exact fun tags hnone => hcreated owner alive reads tags hnone
  exact hqueued.mono (fun _ t ht => hreports t.1 t.2 ht) fun _ _ he => he

theorem createJob (h : JobRules I E) {ownerhost owner : Option String}
    {keepalive : Option (Option ℚ)} {machine : Option MachineName} {tags : Option Tags}
    {request : Request} (hE : ∀ e t, E e t → F e t) (hF : ∀ e t, I t → F e t) (ht : I (q, c))
    (hrefused : ∀ e owner alive reads, (q.jobs.get? c.nextId).isSome ∨ Barred machine tags →
      F e (q, Controller.createdJob { c with nextId := c.nextId + 1, reads := reads } c.nextId
        owner alive ownerhost))
    (hcreated : ∀ owner alive reads tags, q.jobs.get? c.nextId = none →
      I (q.created ⟨c.nextId, true, machine, tags, request, none, none⟩,
        Controller.createdJob { c with nextId := c.nextId + 1, reads := reads } c.nextId owner alive
          ownerhost))
    (hchanged : ∀ q c ids, I (q, c) → I (q, { c with changedJobs := ids })) :
    wp (createJob ownerhost owner keepalive machine tags request) (fun _ => I) F (q, c) :=
  h.createJob_reports hE hF (hF .keyError (q, c) ht) hrefused hcreated
    fun q c ht => hchanged q c _ ht

theorem exit (h : JobRules I E) (hE : ∀ e t, E e t → F e t) (hF : ∀ e t, I t → F e t)
    (hclear : ∀ q c, I (q, c) → I (q.cleared, c))
    (ht : I ({ q with postpone := q.postpone - 1 }, c)) :
    wp (JobQueue.exit callbacks) (fun _ => I) F (q, c) := by
  simp only [JobQueue.exit, wp_bind, wp_change]
  exact regenerateQueues_wp (h.enqueue hE hF) hclear (fun t ht => hF mutated t ht) ht

end JobRules

theorem freeRetired_wp {Q : Unit → JobQueue × Controller → Prop}
    (hkept : c.retiredJobs.get? id = none → Q () (q, c))
    (hfree : (c.retiredJobs.get? id).isSome → wp (JobQueue.free callbacks id) Q E (q, c)) :
    wp (freeRetired id) Q E (q, c) := by
  simp only [freeRetired, wp_bind, wp_controller]
  split
  · next hs => exact hfree hs
  · next hs => exact hkept (Option.not_isSome_iff_eq_none.mp hs)

theorem complete_wp {b : ℕ} {success : Bool} {Q : Unit → JobQueue × Controller → Prop}
    (hidle : (c.bmp b).requests = [] → Q () (q, c))
    (hnext : ∀ r rest, (c.bmp b).requests = r :: rest →
      wp (bmpOnRequestComplete r.onDone success (if success then none else some (c.bmp b).reason))
        Q E (q, c.setBmp b (c.bmp b).popped)) :
    wp (complete b success) Q E (q, c) := by
  simp only [complete, wp_bind, wp_controller]
  cases hr : (c.bmp b).requests with
  | nil => exact hidle hr
  | cons r rest =>
    dsimp only
    rw [wp_bind, wp_adjust]
    exact hnext r rest hr

/-- What clients and the threads of the BMP controllers do. -/
inductive Operation where
  | createJob (ownerhost owner : Option String) (keepalive : Option (Option ℚ))
    (machine : Option MachineName) (tags : Option Tags) (request : Request)
  | jobKeepalive (clienthost : Option String) (id : ℕ)
  | powerOnJobBoards (clienthost : Option String) (id : ℕ)
  | powerOffJobBoards (clienthost : Option String) (id : ℕ)
  | destroyJob (id : ℕ) (reason : Option String)
  | destroyTimedOutJobs
  | checkFree
  | setMaxRetiredJobs (value : ℕ)
  | setMachines (machines : Machines)
  | stop
  | complete (b : ℕ) (success : Bool)

def exec : Operation → Call Unit
  | .createJob ownerhost owner keepalive machine tags request => do
    let _ ← createJob ownerhost owner keepalive machine tags request
  | .jobKeepalive clienthost id => own (jobKeepalive clienthost id)
  | .powerOnJobBoards clienthost id => own (powerOnJobBoards clienthost id)
  | .powerOffJobBoards clienthost id => own (powerOffJobBoards clienthost id)
  | .destroyJob id reason => destroyJob id reason
  | .destroyTimedOutJobs => destroyTimedOutJobs
  | .checkFree => checkFree
  | .setMaxRetiredJobs value => own (setMaxRetiredJobs value)
  | .setMachines machines => setMachines machines
  | .stop => own stop
  | .complete b success => complete b success

/-- The arguments of a new controller. -/
structure Setup where
  nextId : ℕ
  maxRetiredJobs : ℕ
  secondsBeforeFree : ℤ
  /-- What each allocator, and the controller, will read from their clocks. -/
  now : ℕ → ℕ → ℤ
  time : ℕ → ℚ
  utcnow : ℕ → ℚ
  setPop : SetPop
  boardOrder : SetOrder Board
  linkOrder : SetOrder BoardLink
  nameOrder : SetOrder String

def Setup.start (s : Setup) : JobQueue × Controller :=
  (.new s.secondsBeforeFree s.now s.setPop,
    .new s.nextId s.maxRetiredJobs s.time s.utcnow s.boardOrder s.linkOrder s.nameOrder)

def system (s : Setup) : System (JobQueue × Controller) Operation where
  init t := t = s.start
  step t op t' := t' = ((exec op).run t).2

/-- The operation does not raise. -/
def Returns (t : JobQueue × Controller) (op : Operation) : Prop := ((exec op).run t).1.isOk

instance (t : JobQueue × Controller) (op : Operation) : Decidable (Returns t op) :=
  inferInstanceAs (Decidable (_ = true))

/-- The state after an operation. -/
def next (t : JobQueue × Controller) (op : Operation) : JobQueue × Controller :=
  ((exec op).run t).2

/-- The state after some operations, one after the other. -/
def runs (t : JobQueue × Controller) (ops : List Operation) : JobQueue × Controller :=
  ops.foldl next t

theorem reachable_runs {s : Setup} {ok : JobQueue × Controller → Operation → Prop}
    {ops : List Operation} (h : ((system s).restrict ok).Reachable t)
    (hok : System.Along next ok t ops) : ((system s).restrict ok).Reachable (runs t ops) :=
  h.along (fun _ _ => rfl) hok

/-- A controller whose clocks stand still, and whose sets are visited in order. -/
def Setup.quiet : Setup where
  nextId := 1
  maxRetiredJobs := 1200
  secondsBeforeFree := 0
  now _ _ := 0
  time _ := 0
  utcnow _ := 0
  setPop := .least
  boardOrder := .sorted Board.key
  linkOrder := .sorted BoardLink.key
  nameOrder := .sorted (.refl String)

def oneBoard : Machines where
  dict := Dict.empty.set "m" (.ofBoard "m" {"default"} "bmp" "board")
  named name machine h := by
    rw [Dict.get?_set] at h
    split at h
    · next hn =>
      cases h
      exact hn
    · cases h

end SpallocServer.Controller
