import SpallocServer.Controller.Assignment
import SpallocServer.Controller.Requests

namespace SpallocServer.Controller

open Foundation Prog JobQueue

variable {q q' : JobQueue} {c c' : Controller} {t : JobQueue × Controller} {id k b : ℕ}
  {debt : ℕ → ℕ} {depth : ℤ} {lost : Prop} {α : Type}

theorem Tracked.created {owner : String} {alive : Option Keepalive} {host : Option String}
    {reads : ℕ} (h : Tracked lost debt depth (q, c)) (hnone : q.jobs.get? c.nextId = none)
    (machine : Option MachineName) (tags : Finset String) (request : Request) :
    Tracked lost debt depth (q.created ⟨c.nextId, true, machine, tags, request, none, none⟩,
      Controller.createdJob { c with nextId := c.nextId + 1, reads := reads } c.nextId owner alive
        host) := by
  obtain ⟨hnew, hkept, hidle⟩ := h.fresh c.nextId le_rfl
  generalize hid : c.nextId = id at hnone hnew hkept hidle
  have hjob (k : ℕ) : (Controller.createdJob { c with nextId := id + 1, reads := reads } id owner
      alive host).job k = if k = id then .new owner (c.utcnow id) alive host else c.job k := job_createdJob
  have hget (k : ℕ) : (q.created ⟨id, true, machine, tags, request, none, none⟩).jobs.get? k =
      if id = k then some q.nextJob else q.jobs.get? k := Dict.get?_set _ _ _ _
  have hrecord (i : ℕ) : (q.created ⟨id, true, machine, tags, request, none, none⟩).job i =
      if i = q.nextJob then ⟨id, true, machine, tags, request, none, none⟩ else q.job i :=
    JobQueue.job_setJob i q.nextJob _
  have hlt (k i : ℕ) (hk : q.jobs.get? k = some i) : i ≠ q.nextJob := (h.ids k i hk).2.ne
  have hcount : Counted debt (Controller.createdJob
      { c with nextId := id + 1, reads := reads } id owner alive host) := by
    refine h.toCounted.congr rfl (fun _ => rfl) rfl fun k => ?_
    rw [hjob]
    split
    · next hk =>
      rw [hk]
      exact hidle.symm
    · rfl
  refine ⟨hcount, fun i hi => ?_, fun k i hk => ?_, fun k hk => ?_, fun k hk => ?_,
    fun k hk => ?_, h.postpone⟩
  · dsimp only at hi ⊢
    rw [hrecord] at hi ⊢
    by_cases hin : i = q.nextJob
    · rw [if_pos hin, hget, if_pos rfl, hin]
      exact ⟨rfl, List.mem_append_right _ (List.mem_singleton_self id)⟩
    · rw [if_neg hin] at hi ⊢
      obtain ⟨hi', hlive⟩ := h.queue i hi
      have hne : id ≠ (q.job i).id := by
        rintro rfl
        exact hnew hlive
      rw [hget, if_neg hne]
      exact ⟨hi', List.mem_append_left _ hlive⟩
  · dsimp only at hk ⊢
    rw [hget] at hk
    rw [hrecord]
    change _ ∧ i < q.nextJob + 1
    split at hk
    · next hk' =>
      cases hk
      rw [if_pos rfl]
      exact ⟨hk', Nat.lt_succ_self _⟩
    · obtain ⟨hi, hlt'⟩ := h.ids k i hk
      rw [if_neg (hlt k i hk)]
      exact ⟨hi, hlt'.trans (Nat.lt_succ_self _)⟩
  · change id + 1 ≤ k at hk
    have hk' : c.nextId ≤ k := by omega
    have hne : k ≠ id := by omega
    dsimp only
    rw [hjob, if_neg hne]
    refine ⟨fun hin => ?_, (h.fresh k hk').2⟩
    obtain hin | hin := List.mem_append.mp hin
    · exact (h.fresh k hk').1 hin
    · exact hne (List.mem_singleton.mp hin)
  · dsimp only
    rw [hjob]
    obtain hk | hk := List.mem_append.mp hk
    · have hne : k ≠ id := by
        rintro rfl
        exact hnew hk
      rw [if_neg hne]
      apply (h.live k hk).congr _ _ rfl rfl rfl
      · rw [hget, if_neg (Ne.symm hne)]
      · intro i hi
        rw [hrecord, if_neg (hlt k i hi)]
    · obtain rfl := List.mem_singleton.mp hk
      rw [if_pos rfl]
      apply Phase.queued q.nextJob
      · rw [hget, if_pos rfl]
      · rw [hrecord, if_pos rfl]
      all_goals rfl
  · intro hin
    obtain hin | hin := List.mem_append.mp hin
    · exact h.gone k hk hin
    · obtain rfl := List.mem_singleton.mp hin
      dsimp only at hk
      change (c.retiredJobs.get? k).isSome = true at hk
      rw [hkept] at hk
      cases hk

theorem Tracked.seen (h : Tracked lost debt depth (q, c)) (ids : Finset ℕ) :
    Tracked lost debt depth (q, { c with changedJobs := ids }) :=
  h.congr (h.toCounted.congr rfl (fun _ => rfl) rfl fun _ => rfl) rfl rfl rfl rfl rfl rfl rfl
    fun _ => ⟨rfl, rfl, rfl⟩

theorem createJob_tracked {ownerhost owner : Option String} {keepalive : Option (Option ℚ)}
    {machine : Option MachineName} {tags : Option Tags} {request : Request}
    (h : Tracked lost debt depth t) :
    wp (createJob ownerhost owner keepalive machine tags request)
      (fun _ => Tracked lost debt depth) (fun _ _ => True) t := by
  obtain ⟨q, c⟩ := t
  apply (tracked_rules lost debt depth).createJob (fun _ _ he => he) (fun _ _ _ => trivial) h
  · exact fun _ _ _ _ _ => trivial
  · exact fun owner alive reads tags hnone => h.created hnone machine tags request
  · exact fun _ _ ids h => h.seen ids

theorem free_tracked (h : Tracked lost debt depth t) (hid : id ∉ t.2.jobs) :
    wp (JobQueue.free callbacks id) (fun _ => Tracked lost debt depth) (fun _ _ => True) t := by
  obtain ⟨q, c⟩ := t
  apply free_wp fun _ => (tracked_rules lost debt depth).processQueue
  · exact fun _ => h
  · exact fun _ _ _ => trivial
  · exact fun _ _ _ => trivial
  · intro j m allocationId _ _ _
    apply (wp_trivial _).mono _ fun _ _ _ => trivial
    exact fun _ _ _ => (h.dropped hid).queue_congr rfl rfl rfl rfl

def owing (id : ℕ) : ℕ → ℕ := fun k => if k = id then 1 else 0

def settled : ℕ → ℕ := fun _ => 0

theorem Counted.uncounted (h : Counted (owing id) c) : Counted settled (c.uncounted id) := by
  refine ⟨h.known, h.idle, fun k => ?_⟩
  have hk := h.count k
  change _ = ((c.outstanding k : ℕ) : ℤ) + _
  rw [job_uncounted]
  unfold owing at hk
  unfold settled
  split
  · next hid =>
    subst hid
    rw [if_pos rfl] at hk
    dsimp only
    omega
  · next hid =>
    rw [if_neg hid] at hk
    exact hk

theorem Tracked.rewrites {debt' : ℕ → ℕ} (h : Tracked lost debt depth (q, c)) (hr : Rewrites id c c')
    (hlt : id < c.nextId) (hcount : Counted debt' c')
    (hphase : id ∈ c.jobs → Phase lost q (c'.job id) id) : Tracked lost debt' depth (q, c') := by
  refine ⟨hcount, ?_, h.ids, fun k hk => ?_, fun k hk => ?_, ?_, h.postpone⟩
  · dsimp only
    rw [hr.jobs]
    exact h.queue
  · dsimp only at hk ⊢
    rw [hr.nextId] at hk
    rw [hr.jobs, hr.retiredJobs, hr.job k (by omega)]
    exact h.fresh k hk
  · dsimp only at hk ⊢
    rw [hr.jobs] at hk
    by_cases hkid : k = id
    · subst hkid
      exact hphase hk
    · rw [hr.job k hkid]
      exact h.live k hk
  · dsimp only
    rw [hr.retiredJobs, hr.jobs]
    exact h.gone

theorem Tracked.waiting (h : Tracked lost (owing id) depth (q, c)) (hlive : id ∈ c.jobs) :
    ∃ j boards, q.jobs.get? id = some j ∧ (q.job j).pending = false ∧
      (c.job id).boards = some boards ∧ boards.Nonempty ∧ (c.job id).state = .power := by
  have hcount := h.count id
  unfold owing at hcount
  rw [if_pos rfl] at hcount
  dsimp only at hcount
  cases h.live id hlive with
  | queued _ _ _ _ _ hidle =>
    dsimp only at hidle
    omega
  | stranded _ _ _ hidle =>
    dsimp only at hidle
    omega
  | placed j hj hp hboards hstate =>
    obtain ⟨boards, hb, hne⟩ := hboards
    obtain ⟨-, hz⟩ | ⟨hs, -⟩ := hstate
    · dsimp only at hz
      omega
    · exact ⟨j, boards, hj, hp, hb, hne, hs⟩

theorem Tracked.owing_lt (h : Tracked lost (owing id) depth (q, c)) : id < c.nextId := by
  by_contra hn
  have hz := (h.fresh id (Nat.not_lt.mp hn)).2.2
  have hcount := h.count id
  unfold owing at hcount
  rw [if_pos rfl] at hcount
  dsimp only at hcount hz
  omega

theorem Tracked.uncounted (h : Tracked lost (owing id) depth (q, c))
    (hmore : 1 < (c.job id).bmpRequestsUntilReady) :
    Tracked lost settled depth (q, c.uncounted id) := by
  apply h.rewrites rewrites_uncounted h.owing_lt h.toCounted.uncounted
  intro hlive
  obtain ⟨j, boards, hj, hp, hb, hne, hs⟩ := h.waiting hlive
  rw [job_uncounted, if_pos rfl]
  refine .placed j hj hp ⟨boards, hb, hne⟩ (.inr ⟨hs, ?_⟩)
  dsimp only
  omega

theorem Tracked.readied (h : Tracked lost (owing id) depth (q, c))
    (hlast : (c.job id).bmpRequestsUntilReady = 1) :
    Tracked lost settled depth (q, (c.uncounted id).readied id) := by
  have hcount : Counted settled ((c.uncounted id).readied id) := by
    apply h.toCounted.uncounted.rewrites rewrites_readied
    rw [Controller.readied, job_setJob, if_pos rfl]
  apply h.rewrites (rewrites_uncounted.trans rewrites_readied) h.owing_lt hcount
  intro hlive
  obtain ⟨j, boards, hj, hp, hb, hne, -⟩ := h.waiting hlive
  rw [Controller.readied, job_setJob, if_pos rfl, job_uncounted, if_pos rfl]
  refine .placed j hj hp ⟨boards, hb, hne⟩ (.inl ⟨rfl, ?_⟩)
  dsimp only
  omega

theorem waits_readied (h : (c.job id).bmpRequestsUntilReady = 1) :
    (((c.uncounted id).readied id).job id).bmpRequestsUntilReady = 0 := by
  rw [Controller.readied, job_setJob, if_pos rfl, job_uncounted, if_pos rfl]
  dsimp only
  omega

theorem Counted.not_owed {r : AtomicRequests} (h : Counted settled c)
    (hidle : (c.job id).bmpRequestsUntilReady = 0) (hr : r ∈ (c.bmp b).requests) :
    r.onDone ≠ id := by
  have hb : b ∈ Finset.range c.nextBmp := by
    rw [Finset.mem_range]
    by_contra hn
    rw [h.idle b (Nat.not_lt.mp hn)] at hr
    cases hr
  have hnone : c.outstanding id = 0 := by
    have hcount := h.count id
    unfold settled at hcount
    omega
  have hzero := Finset.sum_eq_zero_iff.mp hnone b hb
  intro heq
  exact List.countP_eq_zero.mp hzero r hr (decide_eq_true heq)

theorem bmpOnRequestComplete_tracked {success : Bool} {reason : Option String}
    (h : Tracked lost (owing id) depth t) :
    wp (bmpOnRequestComplete id success reason) (fun _ => Tracked lost settled depth)
      (fun _ _ => True) t := by
  apply bmpOnRequestComplete_wp h
  · exact fun _ reason t h => (tracked_rules lost (owing id) depth).destroyJob h
  · exact fun _ _ _ _ => trivial
  · exact fun _ _ h hmore => h.uncounted hmore
  · intro q c h hlast
    apply freeRetired_wp
    · exact fun _ => h.readied hlast
    · exact fun hretired => free_tracked (h.readied hlast) ((h.readied hlast).gone id hretired)
  · exact fun _ _ ids h => h.seen ids

theorem Counted.popped {r : AtomicRequests} {rest : List AtomicRequests} (h : Counted settled c)
    (hr : (c.bmp b).requests = r :: rest) :
    Counted (owing r.onDone) (c.setBmp b (c.bmp b).popped) := by
  have hb : b < c.nextBmp := by
    by_contra hn
    rw [h.idle b (Nat.not_lt.mp hn)] at hr
    cases hr
  refine ⟨h.known, fun b' hb' => ?_, fun k => ?_⟩
  · change (Function.update c.bmp b _ b').requests = []
    rw [Function.update_of_ne]
    · exact h.idle b' hb'
    · rintro rfl
      exact absurd hb (Nat.not_lt.mpr hb')
  · have hk := h.count k
    unfold settled at hk
    unfold owing
    rw [outstanding_popped hb hr] at hk
    change (c.job k).bmpRequestsUntilReady = _
    rw [hk]
    by_cases hid : k = r.onDone
    · rw [if_pos hid, if_pos hid.symm]
      push_cast
      omega
    · rw [if_neg hid, if_neg (Ne.symm hid)]
      push_cast
      omega

theorem Tracked.popped {r : AtomicRequests} {rest : List AtomicRequests}
    (h : Tracked lost settled depth t) (hr : (t.2.bmp b).requests = r :: rest) :
    Tracked lost (owing r.onDone) depth (t.1, t.2.setBmp b (t.2.bmp b).popped) :=
  ⟨h.toCounted.popped hr, h.queue, h.ids, h.fresh, h.live, h.gone, h.postpone⟩

theorem complete_tracked {success : Bool} (h : Tracked lost settled depth t) :
    wp (complete b success) (fun _ => Tracked lost settled depth) (fun _ _ => True) t := by
  obtain ⟨q, c⟩ := t
  apply complete_wp
  · exact fun _ => h
  · exact fun r rest hr => bmpOnRequestComplete_tracked (h.popped hr)

theorem Tracked.postponed (h : Tracked lost debt depth (q, c)) (p : ℤ) :
    Tracked lost debt p ({ q with postpone := p }, c) :=
  ⟨h.toCounted, h.queue, h.ids, h.fresh,
    fun id hid => (h.live id hid).congr rfl (fun _ _ => rfl) rfl rfl rfl, h.gone, rfl⟩

theorem exit_tracked (depth : ℤ) (h : Tracked lost debt (depth + 1) t) :
    wp (JobQueue.exit callbacks) (fun _ => Tracked lost debt depth) (fun _ _ => True) t := by
  obtain ⟨q, c⟩ := t
  apply (tracked_rules lost debt depth).exit (fun _ _ he => he) (fun _ _ _ => trivial)
    (fun _ _ h => h.queue_congr rfl rfl rfl rfl)
  have hp : q.postpone - 1 = depth := by
    have hpost := h.postpone
    dsimp only at hpost
    omega
  rw [hp]
  exact h.postponed depth

theorem sweep_tracked {reason : Option String} (h : Tracked lost debt depth t) (hdepth : depth ≠ 0) :
    wp (JobQueue.destroyJob callbacks id reason >>= fun _ => free callbacks id)
      (fun _ => Tracked lost debt depth) (fun _ _ => True) t := by
  obtain ⟨q, c⟩ := t
  apply sweep_wp
  · rw [h.postpone]
    exact hdepth
  · exact fun _ => trivial
  · intro j hj hp
    have hcancel := tracked_cancel h hp reason
    rw [(h.ids id j hj).1] at hcancel ⊢
    exact hcancel.mono (fun _ _ ht => ht.1) fun _ _ he => he
  · intro j hj hp
    rw [(h.ids id j hj).1]
    exact (tracked_free h hj hp reason).mono (fun _ _ ht => free_tracked ht.1 ht.2) fun _ _ he => he

theorem removeMachine_tracked {name : String} (h : Tracked lost debt depth t) (hdepth : 0 < depth) :
    wp (removeMachine callbacks name) (fun _ => Tracked lost debt depth) (fun _ _ => True) t := by
  obtain ⟨q, c⟩ := t
  have hpost : q.postpone = depth := h.postpone
  apply removeMachine_postponed (F := fun _ _ => True)
    (J := fun _ _ => Tracked lost debt (depth + 1))
  · rw [hpost]
    exact hdepth
  · exact fun _ => trivial
  · intro m _
    rw [hpost]
    exact h.postponed (depth + 1)
  · intro m rest t ht
    rw [ht.postpone, hpost]
  · exact fun _ _ _ _ h _ => h
  · exact fun m j rest t ht _ => sweep_tracked ht (by omega)
  · intro m t _ ht
    rw [hpost]
    exact (Tracked.postponed (q := t.1) (c := t.2) ht depth).queue_congr rfl rfl rfl rfl
  · exact fun _ _ _ => wp_trivial _

theorem Tracked.tables (h : Tracked lost debt depth (q, c)) (hc : Counted debt c')
    (hn : c'.nextId = c.nextId) (hj : c'.jobs = c.jobs) (hr : c'.retiredJobs = c.retiredJobs)
    (hjob : c'.job = c.job) : Tracked lost debt depth (q, c') :=
  h.congr hc rfl rfl rfl rfl hn hj hr fun k => by
    rw [hjob]
    exact ⟨rfl, rfl, rfl⟩

theorem Counted.unregistered (h : Counted debt c) (name : String) :
    Counted debt (c.unregistered name) := by
  refine ⟨fun name' controllers hget => ?_, h.idle, h.count⟩
  change (c.bmpControllers.erase name).get? name' = some controllers at hget
  rw [Dict.get?_erase] at hget
  split at hget
  · cases hget
  · exact h.known name' controllers hget

theorem Counted.wired (h : Counted debt c) (name : String) (frame : ℤ × ℤ) (hostname : String) :
    Counted debt (c.wired name frame hostname) := by
  have hbmp (b : ℕ) : ((c.wired name frame hostname).bmp b).requests = (c.bmp b).requests := by
    change (Function.update c.bmp c.nextBmp (.new hostname) b).requests = _
    by_cases hb : b = c.nextBmp
    · rw [hb, Function.update_self]
      exact (h.idle c.nextBmp le_rfl).symm
    · rw [Function.update_of_ne hb]
  refine ⟨fun name' controllers hget b hb => ?_, fun b hb => ?_, fun k => ?_⟩
  · change (c.bmpControllers.set name _).get? name' = some controllers at hget
    change b < c.nextBmp + 1
    rw [Dict.get?_set] at hget
    split at hget
    · cases hget
      obtain ⟨frame', hf⟩ := Dict.mem_values.mp hb
      rw [Dict.get?_set] at hf
      split at hf
      · cases hf
        exact Nat.lt_succ_self _
      · cases hold : c.bmpControllers.get? name with
        | none =>
          rw [hold] at hf
          cases hf
        | some controllers =>
          rw [hold] at hf
          exact (h.known name controllers hold b (Dict.mem_values.mpr ⟨_, hf⟩)).trans
            (Nat.lt_succ_self _)
    · exact (h.known name' controllers hget b hb).trans (Nat.lt_succ_self _)
  · rw [hbmp]
    exact h.idle b ((Nat.le_succ _).trans hb)
  · change (c.job k).bmpRequestsUntilReady = _
    have hcount := h.count k
    unfold outstanding at hcount ⊢
    change _ = ((∑ b ∈ Finset.range (c.nextBmp + 1), _ : ℕ) : ℤ) + _
    rw [Finset.sum_range_succ]
    simp only [hbmp, h.idle c.nextBmp le_rfl, List.countP_nil, Nat.add_zero]
    exact hcount

theorem Counted.emptied (h : Counted debt c) (name name' : String)
    (machine : Configuration.Machine) : Counted debt { c with
      machines := c.machines.set name' machine
      bmpControllers := c.bmpControllers.set name Dict.empty } := by
  refine ⟨fun name' controllers hget => ?_, h.idle, h.count⟩
  dsimp only at hget
  rw [Dict.get?_set] at hget
  split at hget
  · cases hget
    exact fun b hb => absurd hb List.not_mem_nil
  · exact h.known name' controllers hget

theorem Counted.registered (h : Counted debt c) (name : String) (machine : Configuration.Machine) :
    Counted debt (c.registered name machine) :=
  registered_induct (P := Counted debt) (h.emptied machine.name name machine)
    fun _ frame hostname h => h.wired machine.name frame hostname

theorem assign_tracked {machines : Machines} :
    AssignRules machines (fun _ => Tracked lost debt 1) fun _ _ => True where
  postponed _ t h := h.postpone.symm ▸ Int.one_pos
  remove l name t h _ := by
    apply (removeMachine_tracked h Int.one_pos).mono _ fun _ _ he => he
    intro _ t' h'
    refine ⟨fun _ => trivial, fun _ => trivial, fun _ _ => ?_⟩
    exact Tracked.tables (q := t'.1) (c := t'.2) h' (h'.toCounted.unregistered name) rfl rfl rfl rfl
  stop l t h := Tracked.tables (q := t.1) (c := t.2) h
    (h.toCounted.congr rfl (requests_stopped l) rfl fun _ => rfl) rfl rfl rfl rfl
  change name old new q c h _ _ _ := by
    refine ⟨fun _ => trivial, fun m _ => ?_⟩
    have hchanged : Tracked lost debt 1 (q, { c with machines := c.machines.set name new }) :=
      h.tables (h.toCounted.congr rfl (fun _ => rfl) rfl fun _ => rfl) rfl rfl rfl rfl
    exact hchanged.queue_congr rfl rfl rfl rfl
  add name new q c h _ _ := by
    obtain ⟨hn, hj, hr, hjob⟩ := registered_jobs c name new
    refine ⟨fun _ => trivial, fun _ => ?_⟩
    exact (h.tables (h.toCounted.registered name new) hn hj hr hjob).queue_congr rfl rfl rfl rfl
  move name q c h := by
    refine ⟨fun _ => trivial, fun _ => trivial, ?_⟩
    have hmoved : Tracked lost debt 1 (q, { c with machines := c.machines.moveToEnd name }) :=
      h.tables (h.toCounted.congr rfl (fun _ => rfl) rfl fun _ => rfl) rfl rfl rfl rfl
    exact hmoved.queue_congr rfl rfl rfl rfl

theorem setMachines_tracked {machines : Machines} (h : Tracked lost debt 0 t) :
    wp (setMachines machines) (fun _ => Tracked lost debt 0) (fun _ _ => True) t := by
  apply assign_tracked.setMachines
  · rw [h.postpone]
    exact Tracked.postponed (q := t.1) (c := t.2) h 1
  · exact fun _ h => exit_tracked 0 h
  · exact fun _ _ _ => wp_trivial _
  · exact fun q c names h => h.tables (h.toCounted.congr rfl (fun _ => rfl) rfl fun _ => rfl) rfl
      rfl rfl rfl

theorem setMaxRetiredJobs_tracked {value : ℕ} (h : Tracked lost debt depth t) :
    wp (own (setMaxRetiredJobs value)) (fun _ => Tracked lost debt depth) (fun _ _ => True) t := by
  obtain ⟨q, c⟩ := t
  simp only [wp_own, setMaxRetiredJobs_nat, wp_update]
  have hold (k : ℕ) (hk : ((c.limited value).retiredJobs.get? k).isSome) : (c.retiredJobs.get? k).isSome := by
    obtain ⟨reason, hr⟩ := Option.isSome_iff_exists.mp hk
    exact Option.isSome_iff_exists.mpr ⟨reason, get?_iterate_dropFirst _ hr⟩
  refine ⟨h.toCounted.congr rfl (fun _ => rfl) rfl fun _ => rfl, h.queue, h.ids, fun k hk => ?_,
    h.live, fun k hk => h.gone k (hold k hk), h.postpone⟩
  obtain ⟨hnew, hkept, hidle⟩ := h.fresh k hk
  refine ⟨hnew, ?_, hidle⟩
  by_contra hne
  have hs := hold k (Option.isSome_iff_ne_none.mpr hne)
  dsimp only at hkept
  rw [hkept] at hs
  cases hs

theorem exec_tracked {op : Operation} (h : Tracked lost settled 0 t) (hop : op ≠ .stop) :
    wp (exec op) (fun _ => Tracked lost settled 0) (fun _ _ => True) t := by
  have hrules := tracked_rules lost settled 0
  cases op with
  | createJob ownerhost owner keepalive machine tags request =>
    simp only [exec, wp_bind]
    exact (createJob_tracked h).mono (fun _ _ ht => ht) fun _ _ he => he
  | jobKeepalive clienthost id => exact hrules.jobKeepalive h
  | powerOnJobBoards clienthost id => exact hrules.setJobBoards h
  | powerOffJobBoards clienthost id => exact hrules.setJobBoards h
  | destroyJob id reason => exact hrules.destroyJob h
  | destroyTimedOutJobs => exact hrules.destroyTimedOutJobs h
  | checkFree => exact hrules.checkFree h
  | setMaxRetiredJobs value => exact setMaxRetiredJobs_tracked h
  | setMachines machines => exact setMachines_tracked h
  | stop => exact absurd rfl hop
  | complete b success => exact complete_tracked h

theorem start_tracked (s : Setup) : Tracked lost settled 0 s.start := by
  refine ⟨⟨nofun, fun _ _ => rfl, fun _ => ?_⟩, nofun, nofun, fun _ _ => ⟨List.not_mem_nil, rfl, rfl⟩,
    fun _ h => absurd h List.not_mem_nil, nofun, rfl⟩
  rfl

/-- The operation does not raise, and does not stop the controller. -/
def Continues (t : JobQueue × Controller) (op : Operation) : Prop := Returns t op ∧ op ≠ .stop

theorem reachable_tracked {s : Setup} (h : ((system s).restrict Continues).Reachable t) :
    Tracked False settled 0 t := by
  apply h.invariant
  · rintro _ rfl
    exact start_tracked s
  · rintro t op _ - ht ⟨⟨hret, hop⟩, rfl⟩
    obtain ⟨t', hrun⟩ := run_of_isOk hret
    have ht' := wp_of_eq_ok (exec_tracked ht hop) hrun
    rw [hrun]
    exact ht'

/-- What a client is told about a job that is there. -/
structure Consistent (t : JobQueue × Controller) (id : ℕ) : Prop where
  queued : (t.2.job id).boards = none ↔ (t.2.job id).state = .queued
  pending : (t.2.job id).boards = none ↔
    ∃ j, t.1.jobs.get? id = some j ∧ (t.1.job j).pending = true
  ready : (t.2.job id).boards ≠ none →
    ((t.2.job id).state = .ready ↔ (t.2.job id).bmpRequestsUntilReady = 0)
  power : (t.2.job id).boards ≠ none →
    ((t.2.job id).state = .power ↔ 0 < (t.2.job id).bmpRequestsUntilReady)

theorem Phase.consistent (h : Phase False t.1 (t.2.job id) id) : Consistent t id := by
  cases h with
  | queued j hj hp hb hs _ =>
    refine ⟨iff_of_true hb hs, iff_of_true hb ⟨j, hj, hp⟩, fun hne => absurd hb hne,
      fun hne => absurd hb hne⟩
  | stranded hlost _ _ _ => exact hlost.elim
  | placed j hj hp hb hs =>
    obtain ⟨boards, hb, -⟩ := hb
    have hne : (t.2.job id).boards ≠ none := by
      rw [hb]
      exact nofun
    refine ⟨iff_of_false hne fun hq => ?_, iff_of_false hne fun ⟨i, hi, hpi⟩ => ?_, fun _ => ?_,
      fun _ => ?_⟩
    · obtain ⟨hr, -⟩ | ⟨hr, -⟩ := hs <;> rw [hq] at hr <;> cases hr
    · obtain rfl := Option.some.inj (hi.symm.trans hj)
      rw [hp] at hpi
      cases hpi
    · obtain ⟨hr, hn⟩ | ⟨hr, hn⟩ := hs
      · exact iff_of_true hr hn
      · exact iff_of_false (by rw [hr]; nofun) hn.ne'
    · obtain ⟨hr, hn⟩ | ⟨hr, hn⟩ := hs
      · exact iff_of_false (by rw [hr]; nofun) (by omega)
      · exact iff_of_true hr hn

/-- When the requests of a job are counted down, it waits for one of them at least. -/
def Asserted (t : JobQueue × Controller) : Prop :=
  ∀ b r rest success reason t', (t.2.bmp b).requests = r :: rest →
    (cancelFailed r.onDone success reason).run (t.1, t.2.setBmp b (t.2.bmp b).popped) =
      (.ok (), t') → 1 ≤ (t'.2.job r.onDone).bmpRequestsUntilReady

theorem Tracked.asserted (h : Tracked lost settled 0 t) : Asserted t := by
  intro b r rest success reason t' hr hrun
  have hfailed : wp (cancelFailed r.onDone success reason) (fun _ => Tracked lost (owing r.onDone) 0)
      (fun _ _ => True) (t.1, t.2.setBmp b (t.2.bmp b).popped) := by
    unfold cancelFailed
    split
    · exact h.popped hr
    · exact (tracked_rules lost (owing r.onDone) 0).destroyJob (h.popped hr)
  have h' := wp_of_eq_ok hfailed hrun
  have hcount := h'.count r.onDone
  unfold owing at hcount
  rw [if_pos rfl] at hcount
  omega

/-- In any run of operations that return, before the controller is stopped, a job waits for as
many requests as are accepted for it and not completed, and its state says so. -/
theorem requests_counted {s : Setup} (h : ((system s).restrict Continues).Reachable t) :
    (∀ id, (t.2.job id).bmpRequestsUntilReady = t.2.outstanding id) ∧ Asserted t ∧
      ∀ id ∈ t.2.jobs, Consistent t id := by
  have ht := reachable_tracked h
  refine ⟨fun id => ?_, ht.asserted, fun id hid => (ht.live id hid).consistent⟩
  rw [ht.count]
  exact Int.add_zero _

/-- A job is created on a machine of one board, and is told its board. -/
def poweringOn : List Operation :=
  [.setMachines oneBoard, .createJob none (some "owner") (some none) none none { args := .nil }]

theorem reachable_poweringOn (s : Setup) : (system s).Reachable (runs s.start poweringOn) :=
  .next (.next (.start rfl) rfl) rfl

theorem requests_counted_poweringOn :
    (runs Setup.quiet.start poweringOn).2.outstanding 1 = 1 ∧
      ((runs Setup.quiet.start poweringOn).2.job 1).bmpRequestsUntilReady =
        (runs Setup.quiet.start poweringOn).2.outstanding 1 := by
  have h : ((system Setup.quiet).restrict Continues).Reachable
      (runs Setup.quiet.start poweringOn) :=
    reachable_runs (.start rfl)
      ⟨⟨by decide +kernel, nofun⟩, ⟨by decide +kernel, nofun⟩, trivial⟩
  exact ⟨by decide +kernel, (requests_counted h).1 1⟩

end SpallocServer.Controller
