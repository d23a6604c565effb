import SpallocServer.Allocator.Refusal
import SpallocServer.Allocator.Service
import SpallocServer.JobQueue.Correspondence

namespace SpallocServer.JobQueue

open Foundation Prog Allocator

/-- The queue at a time: this is what all clocks will answer. -/
def atTime (q : JobQueue) (t : ℤ) : JobQueue :=
  { q with
    clock := fun _ _ => t
    machine := fun m => { q.machine m with
      allocator := { (q.machine m).allocator with clock := fun _ => t } } }

/-- The queue of the machine is empty, or its head would be refused if nothing more were
freed. -/
def Blocked (q : JobQueue) (m : ℕ) : Prop :=
  (q.machine m).queue = [] ∨ ∃ j rest, (q.machine m).queue = j :: rest ∧
    (q.job j).pending = true ∧ (q.machine m).allocator.Denies (q.job j).request

def Idle (q : JobQueue) (t : ℤ) (m : ℕ) : Prop :=
  (q.machine m).queue = [] ∨ ∃ j rest, (q.machine m).queue = j :: rest ∧
    (q.job j).pending = true ∧ (q.machine m).allocator.Still t ∧
    (q.machine m).allocator.Denies (q.job j).request

variable {ω : Type} {cb : Callbacks ω} {q q' : JobQueue} {w : ω} {s : JobQueue × ω} {t p : ℤ}
  {n m j : ℕ}

theorem Idle.blocked (h : q.Idle t m) : q.Blocked m := by
  obtain hn | ⟨j, rest, hq, hp, -, hd⟩ := h
  · exact .inl hn
  · exact .inr ⟨j, rest, hq, hp, hd⟩

theorem Idle.congr (h : q.Idle t m) (hjob : q'.job = q.job)
    (hmach : q'.machine m = q.machine m) : q'.Idle t m := by
  unfold Idle
  rw [hjob, hmach]
  exact h

structure Entered (q : JobQueue) : Prop where
  refs : ∀ j ∈ q.jobs.values, j < q.nextJob
  queued : ∀ m, ∀ j ∈ (q.machine m).queue, j < q.nextJob ∧ (q.job j).request.Good

structure Working (t p : ℤ) (n : ℕ) (s : JobQueue × ω) : Prop where
  entered : s.1.Entered
  clock : s.1.clock = fun _ _ => t
  clocks : ∀ m, (s.1.machine m).allocator.clock = fun _ => t
  postpone : s.1.postpone = p
  nextJob : s.1.nextJob = n

structure Finished (t p : ℤ) (n : ℕ) (s : JobQueue × ω) : Prop extends Working t p n s where
  idle : p = 0 → ∀ m ∈ s.1.machines.values, s.1.Idle t m

theorem Working.congr {w' : ω} (h : Working t p n (q, w))
    (hreq : ∀ j, (q'.job j).request = (q.job j).request)
    (hjobs : ∀ j ∈ q'.jobs.values, j ∈ q.jobs.values)
    (hqueue : ∀ m, ∀ j ∈ (q'.machine m).queue, j ∈ (q.machine m).queue)
    (hclock : q'.clock = q.clock)
    (hclocks : ∀ m, (q'.machine m).allocator.clock = (q.machine m).allocator.clock)
    (hpost : q'.postpone = q.postpone) (hnext : q'.nextJob = q.nextJob) :
    Working t p n (q', w') := by
  refine ⟨⟨fun j hj => ?_, fun m j hj => ?_⟩, hclock.trans h.clock,
    fun m => (hclocks m).trans (h.clocks m), hpost.trans h.postpone, hnext.trans h.nextJob⟩
  · dsimp only at hj ⊢
    rw [hnext]
    exact h.entered.refs j (hjobs j hj)
  · dsimp only at hj ⊢
    rw [hnext, hreq]
    exact h.entered.queued m j (hqueue m j hj)

theorem Working.setAllocator {w' : ω} {a : Allocator} (h : Working t p n (q, w))
    (ha : a.clock = (q.machine m).allocator.clock) :
    Working t p n (q.setAllocator m a, w') := by
  refine h.congr (fun _ => rfl) (fun _ hj => hj) (fun k i hi => ?_) rfl (fun k => ?_) rfl rfl
  · rwa [queue_setAllocator] at hi
  · rw [machine_setAllocator]
    split
    · next hk =>
      rw [hk]
      exact ha
    · rfl

theorem Working.setQueue {l : List ℕ} (h : Working t p n (q, w))
    (hl : ∀ i ∈ l, i < q.nextJob ∧ (q.job i).request.Good) :
    Working t p n (q.setQueue m l, w) := by
  refine ⟨⟨h.entered.refs, fun k i hi => ?_⟩, h.clock, fun k => ?_, h.postpone, h.nextJob⟩
  · dsimp only at hi ⊢
    rw [machine_setQueue] at hi
    split at hi
    · exact hl i hi
    · exact h.entered.queued k i hi
  · dsimp only
    rw [machine_setQueue]
    split
    · exact h.clocks k
    · exact h.clocks k

theorem request_setJob {job : Job} (hr : job.request = (q.job j).request) (i : ℕ) :
    ((q.setJob j job).job i).request = (q.job i).request := by
  rw [job_setJob]
  split
  · next h => rw [h, hr]
  · rfl

theorem Working.withdrawn {w' : ω} (h : Working t p n (q, w)) :
    Working t p n (q.withdrawn j, w') :=
  h.congr (request_setJob rfl) (fun _ hj => hj) (fun _ _ hj => hj) rfl (fun _ => rfl) rfl rfl

theorem Working.placed {w' : ω} {id : ℕ} (h : Working t p n (q, w)) :
    Working t p n (q.placed j m id, w') :=
  h.congr (request_setJob rfl) (fun _ hj => hj) (fun _ _ hj => hj) rfl (fun _ => rfl) rfl rfl

theorem Working.dropped {w' : ω} {id : ℕ} (h : Working t p n (q, w)) :
    Working t p n (q.dropped id, w') := by
  refine h.congr (fun _ => rfl) (fun j hj => ?_) (fun _ _ hj => hj) rfl (fun _ => rfl) rfl rfl
  obtain ⟨k, hk⟩ := Dict.mem_values.mp hj
  exact Dict.mem_values.mpr ⟨k, (dropped_get hk).2⟩

theorem wp_any {α σ : Type} {m : Prog Error σ α} {s : σ} :
    wp m (fun _ _ => True) (fun _ _ => True) s := wp_trivial m

theorem working_rules (t p : ℤ) (n : ℕ) :
    ProcessRules cb (Working t p n) fun _ _ => True where
  alloc q w m j rest h _ _ := by
    apply (alloc_registers _ _).mono _ fun _ _ _ => trivial
    intro res a hr
    have hset : Working t p n (q.setAllocator m a, w) := h.setAllocator hr.setup.clock
    cases res with
    | none => exact hset
    | some al =>
      apply wp_any.mono _ fun _ _ _ => trivial
      exact fun _ _ _ => hset.placed
  skip q w m j rest h hh _ := by
    apply h.setQueue
    intro i hi
    apply h.entered.queued m i
    rw [hh.queue]
    exact List.mem_cons_of_mem j hi

theorem tryJob_idle {rest : List ℕ} (h : Working t p n (q, w))
    (hq : (q.machine m).queue = j :: rest) (hp : (q.job j).pending = true) :
    wp (tryJob cb j m) (fun started s => started = false → s.1.Idle t m ∧
      s.1.job = q.job ∧ ∀ k, k ≠ m → s.1.machine k = q.machine k) (fun _ _ => True) (q, w) := by
  have hgood : (q.job j).request.Good := by
    apply (h.entered.queued m j _).2
    dsimp only
    rw [hq]
    exact List.mem_cons_self
  simp only [tryJob, wp_bind, wp_queue, wp_onAllocator]
  apply (alloc_refused (h.clocks m) hgood).mono _ fun _ _ _ => trivial
  intro res a hres
  cases res with
  | none =>
    intro _
    obtain ⟨hstill, hd⟩ := hres rfl
    refine ⟨.inr ⟨j, rest, ?_, hp, ?_, ?_⟩, rfl, fun k hk => ?_⟩
    · dsimp only
      rw [queue_setAllocator]
      exact hq
    · dsimp only
      rwa [machine_setAllocator, if_pos rfl]
    · dsimp only
      rwa [machine_setAllocator, if_pos rfl]
    · exact machine_setMachine_ne hk _
  | some al =>
    simp only [wp_bind, wp_change, wp_report]
    apply wp_any.mono _ fun _ _ _ => trivial
    exact fun _ _ _ hf => absurd hf (by simp)

theorem processHead_idle (k : ℕ) (h : Working t p n (q, w))
    (hm : m ∈ q.machines.values) (hk : (q.machine m).queue.length ≤ k) :
    wp (processHead cb m k) (fun started s => started = false → s.1.Idle t m ∧
      s.1.job = q.job ∧ ∀ k, k ≠ m → s.1.machine k = q.machine k) (fun _ _ => True) (q, w) := by
  induction k generalizing q w with
  | zero =>
    have hq := List.length_eq_zero_iff.mp (Nat.le_zero.mp hk)
    exact fun _ => ⟨.inl hq, rfl, fun _ _ => rfl⟩
  | succ k ih =>
    simp only [processHead, wp_bind, wp_queue]
    cases hq : (q.machine m).queue with
    | nil => exact fun _ => ⟨.inl hq, rfl, fun _ _ => rfl⟩
    | cons j rest =>
      dsimp only
      cases hp : (q.job j).pending with
      | false =>
        rw [if_pos (by simp), wp_bind, wp_change]
        have hrules : ProcessRules cb (Working t p n) fun _ _ => True := working_rules t p n
        have hskip := hrules.skip q w m j rest h ⟨hm, hq⟩ hp
        have hlen : ((q.setQueue m rest).machine m).queue.length ≤ k := by
          rw [machine_setQueue, if_pos rfl]
          rw [hq, List.length_cons] at hk
          exact Nat.le_of_succ_le_succ hk
        apply (ih (q := q.setQueue m rest) hskip hm hlen).mono _ fun _ _ _ => trivial
        intro started s hs hf
        obtain ⟨hidle, hjob, hmach⟩ := hs hf
        refine ⟨hidle, hjob, fun k hk => ?_⟩
        rw [hmach k hk]
        exact machine_setMachine_ne hk _
      | true =>
        rw [if_neg (by simp), wp_bind]
        apply (tryJob_idle h hq hp).mono _ fun _ _ _ => trivial
        intro started s hs
        cases started with
        | false => exact fun _ => hs rfl
        | true => exact fun hf => absurd hf nofun

theorem processMachines_idle {machines : List ℕ} (h : Working t p n (q, w))
    (hm : ∀ m ∈ machines, m ∈ q.machines.values) :
    wp (processMachines cb machines) (fun started s => started = false →
      (∀ m ∈ machines, s.1.Idle t m) ∧ s.1.job = q.job ∧
        ∀ k, k ∉ machines → s.1.machine k = q.machine k) (fun _ _ => True) (q, w) := by
  induction machines generalizing q w with
  | nil => exact fun _ => ⟨fun _ hm => absurd hm List.not_mem_nil, rfl, fun _ _ => rfl⟩
  | cons m machines ih =>
    have hmem := hm m List.mem_cons_self
    simp only [processMachines, wp_bind, wp_queue]
    apply ((processHead_idle _ h hmem le_rfl).and
      (processHead_wp (working_rules t p n) _ h hmem)).mono _ fun _ _ _ => trivial
    rintro started ⟨q', w'⟩ ⟨hhead, hw, hmach⟩
    dsimp only at hhead hmach
    have hm' : ∀ k ∈ machines, k ∈ q'.machines.values := fun k hk => by
      rw [hmach]
      exact hm k (List.mem_cons_of_mem m hk)
    rw [wp_bind]
    apply (ih hw hm').mono _ fun _ _ _ => trivial
    intro started' s hrest hf
    obtain ⟨rfl, rfl⟩ := Bool.or_eq_false_iff.mp hf
    obtain ⟨hidle, hjob, hsame⟩ := hhead rfl
    obtain ⟨hidle', hjob', hsame'⟩ := hrest rfl
    refine ⟨fun k hk => ?_, hjob'.trans hjob, fun k hk => ?_⟩
    · by_cases hin : k ∈ machines
      · exact hidle' k hin
      · obtain rfl := (List.mem_cons.mp hk).resolve_right hin
        exact hidle.congr hjob' (hsame' k hin)
    · rw [List.mem_cons, not_or] at hk
      rw [hsame' k hk.2, hsame k hk.1]

theorem processLoop_finished (k : ℕ) (h : Working t p n (q, w)) (hk : q.queued < k) :
    wp (processLoop cb k) (fun _ s => ∀ m ∈ s.1.machines.values, s.1.Idle t m)
      (fun _ _ => True) (q, w) := by
  induction k generalizing q w with
  | zero => omega
  | succ k ih =>
    have hm : ∀ m ∈ q.machines.values, m ∈ q.machines.values := fun m hm => hm
    simp only [processLoop, wp_bind, wp_queue]
    apply (((processMachines_idle h hm).and (processMachines_wp (working_rules t p n) h hm)).and
      (processMachines_shrinks hm)).mono _ fun _ _ _ => trivial
    rintro started ⟨q', w'⟩ ⟨⟨hidle, hw, hmach⟩, -, -, hless⟩
    dsimp only at hidle hmach hless
    cases started with
    | false =>
      intro m hm'
      dsimp only at hm'
      rw [hmach] at hm'
      exact (hidle rfl).1 m hm'
    | true =>
      have hlt := hless rfl
      exact ih hw (by omega)

theorem processQueue_finished (h : Working t p n s) :
    wp (processQueue cb) (fun _ => Finished t p n) (fun _ _ => True) s := by
  obtain ⟨q, w⟩ := s
  have hpost := h.postpone
  simp only [processQueue, wp_bind, wp_queue]
  split
  · next hne => exact ⟨h, fun hp => absurd (hpost.trans hp) hne⟩
  · apply ((processLoop_wp (working_rules t p n) _ h).and
      (processLoop_finished _ h (Nat.lt_succ_self _))).mono _ fun _ _ _ => trivial
    rintro _ s ⟨⟨hw, -⟩, hidle⟩
    exact ⟨hw, fun _ => hidle⟩

theorem destroyJob_finished {id : ℕ} {reason : Option String} (h : Working t p n s) :
    wp (destroyJob cb id reason) (fun _ => Finished t p n) (fun _ _ => True) s := by
  obtain ⟨q, w⟩ := s
  apply destroyJob_wp fun _ ht => processQueue_finished ht
  · exact fun _ => trivial
  · intro j _ _
    apply wp_any.mono _ fun _ _ _ => trivial
    intro _ w' _
    have hwithdrawn : Working t p n (q.withdrawn j, w') := h.withdrawn
    exact hwithdrawn.dropped
  · intro j _ _
    apply wp_any.mono _ fun _ _ _ => trivial
    exact fun _ _ _ => h.congr (fun _ => rfl) (fun _ hj => hj) (fun _ _ hj => hj) rfl
      (fun _ => rfl) rfl rfl

theorem offer_working {machines : List ℕ} (h : Working t p n (q, w)) (hj : j < n) :
    wp (offer j machines) (fun _ => Working t p n) (fun _ _ => True) (q, w) := by
  induction machines generalizing q with
  | nil => exact h
  | cons m machines ih =>
    simp only [offer, wp_bind, wp_queue]
    cases hposs : (q.machine m).allocator.allocPossible (q.job j).request with
    | error e => trivial
    | ok possible =>
      rw [wp_ofExcept_ok]
      cases possible with
      | false => exact ih h
      | true =>
        simp only [if_true, wp_bind, wp_change]
        have hqueue : Working t p n (q.setQueue m ((q.machine m).queue ++ [j]), w) := by
          apply h.setQueue
          intro i hi
          obtain hi | hi := List.mem_append.mp hi
          · exact h.entered.queued m i hi
          · obtain rfl := List.mem_singleton.mp hi
            exact ⟨hj.trans_eq h.nextJob.symm, good_of_possible hposs⟩
        apply (ih hqueue).mono _ fun _ _ _ => trivial
        exact fun _ _ ht => ht

theorem enqueueJob_finished (h : Working t p n s) (hj : j < n) :
    wp (enqueueJob cb j) (fun _ => Finished t p n) (fun _ _ => True) s := by
  obtain ⟨q, w⟩ := s
  simp only [enqueueJob, wp_bind, wp_queue]
  split
  · next hne => exact ⟨h, fun hp => absurd (h.postpone.trans hp) hne⟩
  · rw [wp_bind]
    cases hashable (q.job j).machineName with
    | error e => trivial
    | ok _ =>
    rw [wp_ofExcept_ok, wp_bind]
    apply (offer_working h hj).mono _ fun _ _ _ => trivial
    intro found s hs
    split
    · rw [wp_bind]
      apply (destroyJob_finished hs).mono _ fun _ _ _ => trivial
      exact fun _ _ ht => processQueue_finished ht.toWorking
    · exact processQueue_finished hs

theorem Working.cleared (h : Working t p n (q, w)) : Finished t p n (q.cleared, w) := by
  have hempty (m : ℕ) (hm : m ∈ q.machines.values) : (q.cleared.machine m).queue = [] := by
    rw [machine_cleared, if_pos hm]
  refine ⟨h.congr (fun _ => rfl) (fun _ hj => hj) (fun m j hj => ?_) rfl (fun m => ?_) rfl rfl,
    fun _ m hm => .inl (hempty m hm)⟩
  · rw [machine_cleared] at hj
    split at hj
    · exact absurd hj List.not_mem_nil
    · exact hj
  · rw [machine_cleared]
    split <;> rfl

theorem regenerateQueues_finished (h : Working t p n s) :
    wp (regenerateQueues cb) (fun _ => Finished t p n) (fun _ _ => True) s := by
  have hloop (jobs : List ℕ) (s : JobQueue × ω) (h : Finished t p n s) (hjobs : ∀ j ∈ jobs, j < n) :
      wp (regenerateLoop cb jobs) (fun _ => Finished t p n) (fun _ _ => True) s := by
    induction jobs generalizing s with
    | nil => exact h
    | cons j rest ih =>
      have hrest (q₀ : JobQueue) (u : JobQueue × ω) (hu : Finished t p n u) :
          wp (if u.1.jobs.keys ≠ q₀.jobs.keys ∧ rest ≠ [] then raise mutated
            else regenerateLoop cb rest) (fun _ => Finished t p n) (fun _ _ => True) u := by
        split
        · trivial
        · exact ih u hu fun i hi => hjobs i (List.mem_cons_of_mem j hi)
      simp only [regenerateLoop, wp_bind, wp_queue]
      split
      · rw [wp_bind]
        apply (enqueueJob_finished h.toWorking (hjobs j List.mem_cons_self)).mono _
          fun _ _ _ => trivial
        exact fun _ u hu => hrest s.1 u hu
      · exact hrest s.1 s h
  obtain ⟨q, w⟩ := s
  simp only [regenerateQueues, wp_bind, wp_queue]
  split
  · next hne => exact ⟨h, fun hp => absurd (h.postpone.trans hp) hne⟩
  · rw [wp_bind, wp_change]
    exact hloop _ _ h.cleared fun j hj => (h.entered.refs j hj).trans_eq h.nextJob

theorem createJob_finished {id : Option ℕ} {machine : Option MachineName} {tags : Option Tags}
    {request : Request} (h : Working t p n s) :
    wp (createJob cb id machine tags request) (fun _ => Finished t p (n + 1))
      (fun _ _ => True) s := by
  simp only [createJob, wp_bind, wp_queue]
  cases id with
  | none => trivial
  | some id =>
    dsimp only
    split
    · trivial
    next hnone =>
    rw [wp_bind]
    cases jobTags machine tags with
    | error e => trivial
    | ok tags =>
    rw [wp_ofExcept_ok, wp_bind, wp_change]
    apply enqueueJob_finished _ (h.nextJob.trans_lt (Nat.lt_succ_self n))
    refine ⟨⟨fun j hj => ?_, fun m j hj => ?_⟩, h.clock, h.clocks, h.postpone,
      congrArg (· + 1) h.nextJob⟩
    · obtain ⟨k, hk⟩ := Dict.mem_values.mp hj
      dsimp only [created] at hk ⊢
      rw [Dict.get?_set] at hk
      split at hk
      · exact (Option.some.inj hk).symm.trans_lt (Nat.lt_succ_self _)
      · exact Nat.lt_succ_of_lt (h.entered.refs j (Dict.mem_values.mpr ⟨k, hk⟩))
    · obtain ⟨hlt, hgood⟩ := h.entered.queued m j hj
      refine ⟨Nat.lt_succ_of_lt hlt, ?_⟩
      dsimp only [created]
      rwa [job_setJob_ne (Nat.ne_of_lt hlt)]

theorem free_finished {id : ℕ} (h : Working t p n s) (hid : (s.1.jobs.get? id).isSome) :
    wp (free cb id) (fun _ => Finished t p n) (fun _ _ => True) s := by
  obtain ⟨q, w⟩ := s
  apply free_wp fun _ ht => processQueue_finished ht
  · intro hn
    dsimp only at hid
    rw [hn] at hid
    cases hid
  · exact fun _ _ _ => trivial
  · exact fun _ _ _ => trivial
  · intro j m a _ _ _
    apply (free_setup _ a).mono _ fun _ _ _ => trivial
    intro _ b hb
    have hdropped : Working t p n (q.dropped id, w) := h.dropped
    exact hdropped.setAllocator hb.clock

theorem free_working {id : ℕ} (h : Working t p n s) :
    wp (free cb id) (fun _ => Working t p n) (fun _ _ => True) s := by
  cases hid : s.1.jobs.get? id with
  | none =>
    simp only [free, wp_bind, wp_queue, hid]
    exact h
  | some j =>
    have hsome : (s.1.jobs.get? id).isSome := by rw [hid]; rfl
    apply (free_finished h hsome).mono _ fun _ _ _ => trivial
    exact fun _ _ ht => ht.toWorking

theorem Working.setPostpone (h : Working t p n (q, w)) (p' : ℤ) :
    Working t p' n ({ q with postpone := p' }, w) :=
  ⟨⟨h.entered.refs, h.entered.queued⟩, h.clock, h.clocks, rfl, h.nextJob⟩

theorem exit_finished (h : Working t p n s) :
    wp (exit cb) (fun _ => Finished t (p - 1) n) (fun _ _ => True) s := by
  obtain ⟨q, w⟩ := s
  simp only [exit, wp_bind, wp_change]
  apply regenerateQueues_finished
  have hleft := h.setPostpone (p - 1)
  rwa [← h.postpone] at hleft ⊢

theorem addMachine_finished {name : String} {width height : ℤ} {tags : Option (Finset String)}
    {deadBoards : Finset Board} {deadLinks : Finset BoardLink} (h : Working t p n s) :
    wp (addMachine cb name width height tags deadBoards deadLinks) (fun _ => Finished t p n)
      (fun _ _ => True) s := by
  obtain ⟨q, w⟩ := s
  simp only [addMachine, wp_bind, wp_queue]
  split
  · trivial
  rw [wp_bind, wp_change]
  apply regenerateQueues_finished
  have hmach (m : ℕ) : (q.added name width height tags deadBoards deadLinks).machine m =
      if m = q.nextMachine then
        ⟨name, tagsOr tags, .new width height deadBoards deadLinks 1 q.secondsBeforeFree
          (q.clock q.nextMachine) q.setPop, []⟩
      else q.machine m := machine_setMachine _ _ _
  refine ⟨⟨h.entered.refs, fun m j hj => ?_⟩, h.clock, fun m => ?_, h.postpone, h.nextJob⟩
  · dsimp only at hj ⊢
    rw [hmach] at hj
    split at hj
    · exact absurd hj List.not_mem_nil
    · exact h.entered.queued m j hj
  · dsimp only
    rw [hmach]
    split
    · exact congrFun h.clock q.nextMachine
    · exact h.clocks m

theorem modifyMachine_finished {name : String} {tags : Option (Finset String)}
    {deadBoards : Option (Finset Board)} {deadLinks : Option (Finset BoardLink)}
    (h : Working t p n s) :
    wp (modifyMachine cb name tags deadBoards deadLinks) (fun _ => Finished t p n)
      (fun _ _ => True) s := by
  obtain ⟨q, w⟩ := s
  simp only [modifyMachine, wp_bind, wp_queue]
  cases q.machines.get? name with
  | none => trivial
  | some m =>
    dsimp only
    rw [wp_bind, wp_change]
    apply regenerateQueues_finished
    refine h.congr (fun _ => rfl) (fun _ hj => hj) (fun k j hj => ?_) rfl (fun k => ?_) rfl rfl
    · rw [machine_setMachine] at hj
      split at hj
      · next hk =>
        rw [hk]
        exact hj
      · exact hj
    · rw [machine_setMachine]
      split
      · next hk =>
        rw [hk]
        rfl
      · rfl

theorem removeMachine_finished {name : String} (h : Working t p n s) :
    wp (removeMachine cb name) (fun _ => Finished t p n) (fun _ _ => True) s := by
  obtain ⟨q, w⟩ := s
  simp only [removeMachine, wp_bind, wp_queue]
  cases q.machines.get? name with
  | none => trivial
  | some m =>
    dsimp only
    rw [enter, wp_bind, wp_change, wp_ensuring, wp_bind]
    have hentered : Working t (p + 1) n ({ q with postpone := q.postpone + 1 }, w) := by
      have hdeeper := h.setPostpone (p + 1)
      rwa [← h.postpone] at hdeeper ⊢
    have hsweep := wp_forEach (E := fun _ _ => True) (l := q.jobs.values)
      (f := fun j => (queue >>= fun q => if (q.job j).machine = some m then
          destroyJob cb (q.job j).id (some "Machine removed.") >>= fun _ =>
            free cb (q.job j).id else pure ()))
      (I := fun _ => Working t (p + 1) n) ?_ hentered
    · apply hsweep.mono
      · intro _ u hu
        rw [wp_change]
        have herased : Working t (p + 1) n ({ u.1 with machines := u.1.machines.erase name }, u.2) :=
          hu.congr (fun _ => rfl) (fun _ hj => hj) (fun _ _ hj => hj) rfl (fun _ => rfl) rfl rfl
        have hexit : wp (exit cb) (fun _ => Finished t (p + 1 - 1) n) (fun _ _ => True)
            ({ u.1 with machines := u.1.machines.erase name }, u.2) := exit_finished herased
        rwa [Int.add_sub_cancel] at hexit
      · intro _ u _
        exact wp_any.mono (fun _ _ _ => trivial) fun _ _ _ => trivial
    · intro j rest u _ hu
      simp only [wp_bind, wp_queue]
      split
      · rw [wp_bind]
        apply (destroyJob_finished hu).mono _ fun _ _ _ => trivial
        exact fun _ _ ht => free_working ht.toWorking
      · exact hu

theorem Blocked.timed {reads : ℕ} (h : q.Blocked m) (k : ℕ) :
    (q.setAllocator k ((q.machine k).allocator.timed (q.machine k).allocator.clock
      reads)).Blocked m := by
  unfold Blocked
  rw [machine_setAllocator]
  split
  · next hk =>
    subst hk
    obtain hn | ⟨j, rest, hq, hp, hd⟩ := h
    · exact .inl hn
    · exact .inr ⟨j, rest, hq, hp, hd.timed _ _⟩
  · exact h

theorem checkFreeMachines_blocked {machines : List ℕ} (h : Working t p n (q, w)) :
    wp (checkFreeMachines machines : Call ω Bool) (fun changed s => Working t p n s ∧
        s.1.machines = q.machines ∧ (∀ m, m ∉ machines → s.1.machine m = q.machine m) ∧
        (changed = false → (∀ m ∈ machines, (s.1.machine m).allocator.Still t) ∧
          ∀ m, q.Blocked m → s.1.Blocked m))
      (fun _ _ => True) (q, w) := by
  induction machines generalizing q with
  | nil =>
    exact ⟨h, rfl, fun _ _ => rfl, fun _ =>
      ⟨fun _ hm => absurd hm List.not_mem_nil, fun _ hb => hb⟩⟩
  | cons m machines ih =>
    simp only [checkFreeMachines, wp_bind, wp_onAllocator]
    apply ((checkFree_still (h.clocks m)).and (checkFree_passes _)).mono _ fun _ _ _ => trivial
    rintro changed a ⟨⟨hstill, hsame⟩, hpasses⟩
    apply (ih (h.setAllocator hpasses.setup.clock)).mono _ fun _ _ _ => trivial
    rintro changed' u ⟨hw, hmach, hframe, hrest⟩
    refine ⟨hw, hmach, fun k hk => ?_, fun hf => ?_⟩
    · rw [List.mem_cons, not_or] at hk
      rw [hframe k hk.2]
      exact machine_setMachine_ne hk.1 _
    · obtain ⟨rfl, rfl⟩ := Bool.or_eq_false_iff.mp hf
      obtain ⟨reads, rfl⟩ := hsame rfl
      obtain ⟨hstill', hblocked⟩ := hrest rfl
      refine ⟨fun k hk => ?_, fun k hb => hblocked k (hb.timed m)⟩
      by_cases hin : k ∈ machines
      · exact hstill' k hin
      · obtain rfl := (List.mem_cons.mp hk).resolve_right hin
        rw [hframe k hin, setAllocator, machine_setMachine_self]
        exact hstill

theorem checkFree_finished (h : Working t p n s)
    (hb : p = 0 → ∀ m ∈ s.1.machines.values, s.1.Blocked m) :
    wp (checkFree cb) (fun _ => Finished t p n) (fun _ _ => True) s := by
  obtain ⟨q, w⟩ := s
  simp only [checkFree, wp_bind, wp_queue]
  split
  · next hne => exact ⟨h, fun hp => absurd (h.postpone.trans hp) hne⟩
  · rw [wp_bind]
    apply (checkFreeMachines_blocked h).mono _ fun _ _ _ => trivial
    rintro changed u ⟨hw, hmach, -, hsame⟩
    cases changed with
    | true => exact processQueue_finished hw
    | false =>
      obtain ⟨hstill, hblocked⟩ := hsame rfl
      refine ⟨hw, fun hp m hm => ?_⟩
      rw [hmach] at hm
      obtain hn | ⟨j, rest, hq, hpend, hd⟩ := hblocked m (hb hp m hm)
      · exact .inl hn
      · exact .inr ⟨j, rest, hq, hpend, hstill m hm, hd⟩

/-- A job queue whose clock stands still during a call. -/
def timedSystem (cb : Callbacks ω) (c : Schedule.Setup) (w : ω) :
    System (JobQueue × ω) (ℤ × JobQueueCall) where
  init s := s = (JobQueue.new c.secondsBeforeFree c.clock c.setPop, w)
  step s call s' := s' = ((call.2.exec cb).run (s.1.atTime call.1, s.2)).2

/-- The call does not raise, and blocks are left only after they are entered. -/
def Succeeds (cb : Callbacks ω) (s : JobQueue × ω) (call : ℤ × JobQueueCall) : Prop :=
  (∃ s', (call.2.exec cb).run (s.1.atTime call.1, s.2) = (.ok (), s')) ∧
    (call.2 = .exit → 0 < s.1.postpone)

/-- The call ends with the processing of the queues. -/
def Processes (q : JobQueue) : JobQueueCall → Prop
  | .free id => (q.jobs.get? id).isSome
  | .enter => False
  | .moveMachineToEnd _ => False
  | _ => True

/-- Between calls outside of atomic blocks, only the time stands in the way of an idle queue. -/
structure Settled (s : JobQueue × ω) : Prop where
  entered : s.1.Entered
  depth : 0 ≤ s.1.postpone
  blocked : s.1.postpone = 0 → ∀ m ∈ s.1.machines.values, s.1.Blocked m

theorem Settled.working (h : Settled s) (t : ℤ) :
    Working t s.1.postpone s.1.nextJob (s.1.atTime t, s.2) :=
  ⟨⟨h.entered.refs, h.entered.queued⟩, rfl, fun _ => rfl, rfl, rfl⟩

theorem Settled.atTime (h : Settled s) (t : ℤ) : Settled (s.1.atTime t, s.2) := by
  refine ⟨⟨h.entered.refs, h.entered.queued⟩, h.depth, fun hp m hm => ?_⟩
  obtain hn | ⟨j, rest, hq, hpend, hd⟩ := h.blocked hp m hm
  · exact .inl hn
  · exact .inr ⟨j, rest, hq, hpend, hd.timed _ _⟩

theorem Finished.settled (h : Finished t p n s) (hp : 0 ≤ p) : Settled s :=
  ⟨h.entered, hp.trans_eq h.postpone.symm, fun h0 m hm =>
    (h.idle (h.postpone.symm.trans h0) m hm).blocked⟩

theorem exec_finished {call : JobQueueCall} (h : Settled s) (t : ℤ)
    (hexit : call = .exit → 0 < s.1.postpone) (hc : s.1.Processes call) :
    wp (call.exec cb) (fun _ s' => ∃ p n, 0 ≤ p ∧ Finished t p n s') (fun _ _ => True)
      (s.1.atTime t, s.2) := by
  have hw := h.working t
  have hsame {m : Call ω Unit} {n' : ℕ}
      (hm : wp m (fun _ => Finished t s.1.postpone n') (fun _ _ => True) (s.1.atTime t, s.2)) :
      wp m (fun _ s' => ∃ p n, 0 ≤ p ∧ Finished t p n s') (fun _ _ => True)
        (s.1.atTime t, s.2) :=
    hm.mono (fun _ _ hf => ⟨_, _, h.depth, hf⟩) fun _ _ _ => trivial
  cases call with
  | createJob id machine tags request => exact hsame (createJob_finished hw)
  | destroyJob id reason => exact hsame (destroyJob_finished hw)
  | free id => exact hsame (free_finished hw hc)
  | checkFree => exact hsame (checkFree_finished hw (h.atTime t).blocked)
  | addMachine name width height tags deadBoards deadLinks => exact hsame (addMachine_finished hw)
  | modifyMachine name tags deadBoards deadLinks => exact hsame (modifyMachine_finished hw)
  | moveMachineToEnd name => exact hc.elim
  | removeMachine name => exact hsame (removeMachine_finished hw)
  | enter => exact hc.elim
  | exit =>
    have hdepth := hexit rfl
    exact (exit_finished hw).mono (fun _ _ hf => ⟨_, _, by omega, hf⟩) fun _ _ _ => trivial

theorem exec_settled {call : JobQueueCall} (h : Settled s) (t : ℤ)
    (hexit : call = .exit → 0 < s.1.postpone) :
    wp (call.exec cb) (fun _ => Settled) (fun _ _ => True) (s.1.atTime t, s.2) := by
  by_cases hc : s.1.Processes call
  · apply (exec_finished h t hexit hc).mono _ fun _ _ _ => trivial
    rintro _ s' ⟨p, n, hp, hf⟩
    exact hf.settled hp
  have hs := h.atTime t
  cases call with
  | free id =>
    have hnone : s.1.jobs.get? id = none := Option.not_isSome_iff_eq_none.mp hc
    change wp (JobQueue.free cb id) _ _ _
    simp only [free, wp_bind, wp_queue, JobQueue.atTime, hnone]
    exact hs
  | enter =>
    refine ⟨⟨hs.entered.refs, hs.entered.queued⟩, ?_, fun hp => ?_⟩
    · exact h.depth.trans (Int.le_add_one le_rfl)
    · have hdepth := h.depth
      have hzero : s.1.postpone + 1 = 0 := hp
      omega
  | moveMachineToEnd name =>
    change wp (JobQueue.moveMachineToEnd name) _ _ _
    simp only [moveMachineToEnd, wp_bind, wp_queue]
    split
    · trivial
    refine ⟨⟨hs.entered.refs, hs.entered.queued⟩, hs.depth, fun hp m hm => ?_⟩
    obtain ⟨k, hk⟩ := Dict.mem_values.mp hm
    dsimp only at hk
    rw [Dict.get?_moveToEnd] at hk
    exact hs.blocked hp m (Dict.mem_values.mpr ⟨k, hk⟩)
  | _ => exact absurd trivial hc

theorem reachable_settled {c : Schedule.Setup}
    (h : ((timedSystem cb c w).restrict (Succeeds cb)).Reachable s) : Settled s := by
  apply h.invariant
  · rintro _ rfl
    exact ⟨⟨nofun, fun _ _ hj => absurd hj List.not_mem_nil⟩, le_rfl, fun _ => nofun⟩
  · rintro s ⟨t, call⟩ _ - hs ⟨⟨⟨s', hrun⟩, hexit⟩, rfl⟩
    dsimp only at hrun ⊢
    rw [hrun]
    exact wp_of_eq_ok (exec_settled hs t hexit) hrun

def timedRuns (cb : Callbacks ω) (s : JobQueue × ω) (calls : List (ℤ × JobQueueCall)) :
    JobQueue × ω :=
  calls.foldl (fun s call => ((call.2.exec cb).run (s.1.atTime call.1, s.2)).2) s

theorem reachable_timed {c : Schedule.Setup}
    (h : ((timedSystem cb c w).restrict (Succeeds cb)).Reachable s) (t : ℤ) (call : JobQueueCall)
    (hok : ((call.exec cb).run (s.1.atTime t, s.2)).1.isOk) (hexit : call ≠ .exit) :
    ((timedSystem cb c w).restrict (Succeeds cb)).Reachable
      ((call.exec cb).run (s.1.atTime t, s.2)).2 := by
  exact System.Reachable.next (i := (t, call)) h
    ⟨⟨run_of_isOk hok, fun he => absurd he hexit⟩, rfl⟩

/-- The loops of `_process_queue` come to their ends, and after a call that processes the queues,
outside of atomic blocks, no head of a queue can be started at that time. -/
theorem work_conserved {c : Schedule.Setup}
    (h : ((timedSystem cb c w).restrict (Succeeds cb)).Reachable s) {t : ℤ} {call : JobQueueCall}
    {s' : JobQueue × ω} (hexit : call = .exit → 0 < s.1.postpone)
    (hrun : (call.exec cb).run (s.1.atTime t, s.2) = (.ok (), s')) (hc : s.1.Processes call) :
    (∀ u k, (processLoop cb (u.1.queued + 1 + k)).run u =
        (processLoop cb (u.1.queued + 1)).run u) ∧
      (∀ m u k, (processHead cb m ((u.1.machine m).queue.length + k)).run u =
        (processHead cb m (u.1.machine m).queue.length).run u) ∧
      (s'.1.postpone = 0 → ∀ m ∈ s'.1.machines.values,
        ((s'.1.machine m).allocator.clock = fun _ => t) ∧
        ((s'.1.machine m).queue = [] ∨ ∃ j rest, (s'.1.machine m).queue = j :: rest ∧
          (s'.1.job j).pending = true ∧
          ∃ a, (Allocator.alloc (s'.1.job j).request).run (s'.1.machine m).allocator =
            (.ok none, a))) := by
  obtain ⟨p, n, hp, hf⟩ := wp_of_eq_ok (exec_finished (reachable_settled h) t hexit hc) hrun
  refine ⟨fun u k => processLoop_queued k, fun m u k => processHead_queue k,
    fun hpost m hm => ⟨hf.clocks m, ?_⟩⟩
  obtain hn | ⟨j, rest, hq, hpend, hstill, hd⟩ := hf.idle (hf.postpone.symm.trans hpost) m hm
  · exact .inl hn
  · exact .inr ⟨j, rest, hq, hpend, alloc_denied (hf.clocks m) hstill hd⟩

/-- One job has the only machine, and another one waits. -/
def waiting : List (ℤ × JobQueueCall) :=
  [(0, .addMachine "m" 1 1 none ∅ ∅),
    (1, .createJob (some 1) none none { args := .one (.int 3) })]

theorem work_conserved_waiting :
    ∃ s', ((JobQueueCall.createJob (some 2) none none { args := .nil }).exec recorder).run
        ((timedRuns recorder empty waiting).1.atTime 5, (timedRuns recorder empty waiting).2) =
          (.ok (), s') ∧
      (s'.1.postpone = 0 → ∀ m ∈ s'.1.machines.values,
        ((s'.1.machine m).allocator.clock = fun _ => 5) ∧
        ((s'.1.machine m).queue = [] ∨ ∃ j rest, (s'.1.machine m).queue = j :: rest ∧
          (s'.1.job j).pending = true ∧
          ∃ a, (Allocator.alloc (s'.1.job j).request).run (s'.1.machine m).allocator =
            (.ok none, a))) := by
  have h0 : ((timedSystem recorder Schedule.Setup.quiet []).restrict
      (Succeeds recorder)).Reachable empty := .start rfl
  have h1 := reachable_timed h0 0 (.addMachine "m" 1 1 none ∅ ∅) (by decide +kernel) nofun
  have h2 : ((timedSystem recorder Schedule.Setup.quiet []).restrict
      (Succeeds recorder)).Reachable (timedRuns recorder empty waiting) :=
    reachable_timed h1 1 (.createJob (some 1) none none { args := .one (.int 3) })
      (by decide +kernel) nofun
  obtain ⟨s', hrun⟩ := run_of_isOk
    (m := (JobQueueCall.createJob (some 2) none none { args := .nil }).exec recorder)
    (s := ((timedRuns recorder empty waiting).1.atTime 5, (timedRuns recorder empty waiting).2))
    (by decide +kernel)
  have hexit : JobQueueCall.createJob (some 2) none none { args := .nil } = .exit →
      0 < (timedRuns recorder empty waiting).1.postpone := nofun
  exact ⟨s', hrun, (work_conserved h2 hexit hrun trivial).2.2⟩

end SpallocServer.JobQueue
