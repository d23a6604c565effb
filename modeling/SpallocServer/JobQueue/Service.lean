import SpallocServer.JobQueue.Order

namespace SpallocServer.JobQueue

open Foundation Prog Allocator

/-- The allocators satisfy `S`, what is queued can be asked for, and the jobs are in the order in
which they were created. -/
structure Serviceable (S : Allocator → Prop) (q : JobQueue) : Prop where
  sound : ∀ m ∈ q.machines.values, S (q.machine m).allocator
  queued : ∀ m ∈ q.machines.values, ∀ j ∈ (q.machine m).queue,
    j < q.nextJob ∧ (q.job j).request.Good
  sorted : q.jobs.values.Pairwise (· < ·)

structure Sustained {ω : Type} (S : Allocator → Prop) (machines : Dict String ℕ) (depth : ℤ)
    (t : JobQueue × ω) : Prop extends Agrees machines depth t where
  serviceable : t.1.Serviceable S

variable {ω : Type} {cb : Callbacks ω} {q q' : JobQueue} {w : ω} {t : JobQueue × ω}
  {machines : Dict String ℕ} {depth : ℤ} {j m id : ℕ} {S S' : Allocator → Prop}

theorem Serviceable.fewer (h : q.Serviceable S)
    (hm : ∀ m ∈ q'.machines.values, m ∈ q.machines.values)
    (ha : ∀ m ∈ q'.machines.values, S' (q'.machine m).allocator)
    (hq : ∀ m, ∀ j ∈ (q'.machine m).queue, j ∈ (q.machine m).queue)
    (hr : ∀ j, (q'.job j).request = (q.job j).request) (hnext : q'.nextJob = q.nextJob)
    (hjobs : q'.jobs.values.Sublist q.jobs.values) : q'.Serviceable S' where
  sound := ha
  queued m hin j hj := by
    rw [hr, hnext]
    exact h.queued m (hm m hin) j (hq m j hj)
  sorted := h.sorted.sublist hjobs

theorem Serviceable.mono (h : q.Serviceable S)
    (hS : ∀ m ∈ q.machines.values, S' (q.machine m).allocator) : q.Serviceable S' :=
  ⟨hS, h.queued, h.sorted⟩

theorem Serviceable.setAllocator {a : Allocator} (h : q.Serviceable S) (ha : S a) :
    (q.setAllocator m a).Serviceable S := by
  refine h.fewer (fun _ hm => hm) (fun n hn => ?_) (fun n i hi => ?_) (fun _ => rfl)
    rfl (List.Sublist.refl _)
  · rw [machine_setAllocator]
    split
    · exact ha
    · exact h.sound n hn
  · rwa [queue_setAllocator] at hi

theorem Serviceable.setQueue {l : List ℕ} (h : q.Serviceable S)
    (hl : ∀ j ∈ l, j < q.nextJob ∧ (q.job j).request.Good) : (q.setQueue m l).Serviceable S := by
  refine ⟨fun n hn => ?_, fun n hn i hi => ?_, h.sorted⟩
  · rw [machine_setQueue]
    split
    · next heq => exact heq ▸ h.sound n hn
    · exact h.sound n hn
  · rw [machine_setQueue] at hi
    split at hi
    · exact hl i hi
    · exact h.queued n hn i hi

theorem Serviceable.setJob {job : Job} (h : q.Serviceable S)
    (hr : job.request = (q.job j).request) : (q.setJob j job).Serviceable S := by
  refine h.fewer (fun _ hm => hm) h.sound (fun _ _ hi => hi) (fun i => ?_) rfl (List.Sublist.refl _)
  rw [job_setJob]
  split
  · next hi => rw [hi, hr]
  · rfl

theorem Serviceable.dropped (h : q.Serviceable S) (id : ℕ) : (q.dropped id).Serviceable S :=
  h.fewer (fun _ hm => hm) h.sound (fun _ _ hi => hi) (fun _ => rfl) rfl
    (Dict.values_erase_sublist _ _)

theorem Serviceable.cleared (h : q.Serviceable S) : q.cleared.Serviceable S := by
  refine h.fewer (fun _ hm => hm) (fun m hm => ?_) (fun m i hi => ?_) (fun _ => rfl)
    rfl (List.Sublist.refl _)
  · rw [machine_cleared]
    split
    · exact h.sound m hm
    · exact h.sound m hm
  · rw [machine_cleared] at hi
    split at hi
    · exact absurd hi List.not_mem_nil
    · exact hi

theorem Serviceable.setPostpone (h : q.Serviceable S) (depth : ℤ) :
    ({ q with postpone := depth } : JobQueue).Serviceable S := ⟨h.sound, h.queued, h.sorted⟩

theorem values_created {job : Job} (hnone : q.jobs.get? job.id = none) :
    (q.created job).jobs.values = q.jobs.values ++ [q.nextJob] :=
  Dict.values_set_new hnone q.nextJob

theorem Serviceable.created {job : Job} (h : q.Serviceable S) (hl : q.Linked)
    (hnone : q.jobs.get? job.id = none) : (q.created job).Serviceable S := by
  refine ⟨h.sound, fun m hm i hi => ?_, ?_⟩
  · obtain ⟨hlt, hgood⟩ := h.queued m hm i hi
    refine ⟨Nat.lt_succ_of_lt hlt, ?_⟩
    change ((q.setJob q.nextJob job).job i).request.Good
    rwa [job_setJob_ne (Nat.ne_of_lt hlt)]
  · rw [values_created hnone, List.pairwise_append]
    refine ⟨h.sorted, List.pairwise_singleton _ _, fun i hi j hj => ?_⟩
    obtain rfl := List.mem_singleton.mp hj
    obtain ⟨id, hid⟩ := Dict.mem_values.mp hi
    exact (hl.ids id i hid).2

theorem Serviceable.added {name : String} (h : q.Serviceable S) (hl : q.Linked)
    (hnone : q.machines.get? name = none) {width height : ℤ} (tags : Option (Finset String))
    (deadBoards : Finset Board) (deadLinks : Finset BoardLink)
    (hS : S ((q.added name width height tags deadBoards deadLinks).machine
      q.nextMachine).allocator) :
    (q.added name width height tags deadBoards deadLinks).Serviceable S := by
  have hmem (n : ℕ) (hn : n ∈ (q.added name width height tags deadBoards deadLinks).machines.values) :
      n ∈ q.machines.values ∨ n = q.nextMachine := by
    have hv : (q.added name width height tags deadBoards deadLinks).machines.values =
        q.machines.values ++ [q.nextMachine] := Dict.values_set_new hnone q.nextMachine
    rwa [hv, List.mem_append, List.mem_singleton] at hn
  have hold (n : ℕ) (hn : n ∈ q.machines.values) :
      (q.added name width height tags deadBoards deadLinks).machine n = q.machine n :=
    machine_setMachine_ne (Nat.ne_of_lt (hl.machine_lt hn)) _
  have hself : (q.added name width height tags deadBoards deadLinks).machine q.nextMachine = _ :=
    machine_setMachine_self _ _
  refine ⟨fun n hn => ?_, fun n hn i hi => ?_, h.sorted⟩
  · obtain hn | rfl := hmem n hn
    · rw [hold n hn]
      exact h.sound n hn
    · exact hS
  · obtain hn | rfl := hmem n hn
    · rw [hold n hn] at hi
      exact h.queued n hn i hi
    · rw [hself] at hi
      exact absurd hi List.not_mem_nil

theorem Serviceable.modified (h : q.Serviceable S) (tags : Option (Finset String))
    (deadBoards : Option (Finset Board)) (deadLinks : Option (Finset BoardLink))
    (hr : S ((q.machine m).modified tags deadBoards deadLinks).allocator) :
    (q.setMachine m ((q.machine m).modified tags deadBoards deadLinks)).Serviceable S := by
  refine h.fewer (fun _ hm => hm) (fun n hn => ?_) (fun n i hi => ?_) (fun _ => rfl) rfl
    (List.Sublist.refl _)
  · rw [machine_setMachine]
    split
    · exact hr
    · exact h.sound n hn
  · rw [machine_setMachine] at hi
    split at hi
    · next hn =>
      rw [hn]
      exact hi
    · exact hi

theorem Sustained.congr {w' : ω} (h : Sustained S machines depth (q, w)) (hs : SameBooks q q')
    (hmach : q'.machines = q.machines) (hpost : q'.postpone = q.postpone)
    (hq : q'.Serviceable S) : Sustained S machines depth (q', w') :=
  ⟨h.toAgrees.congr hs hmach hpost, hq⟩

theorem sustained_rules (hS : Stable S) (hcb : Quiet cb) (machines : Dict String ℕ) (depth : ℤ) :
    EnqueueRules cb (Sustained S machines depth) fun _ => Sustained S machines depth where
  alloc q w m j rest h hh hp := by
    obtain ⟨-, hgood⟩ := h.serviceable.queued m hh.machine j (hh.queue ▸ List.mem_cons_self)
    apply (((agrees_rules hcb machines depth).alloc q w m j rest h.toAgrees hh hp).and
      (hS.alloc _ _ (h.serviceable.sound m hh.machine) hgood)).mono _
        fun _ _ he => ⟨he.1, h.serviceable.setAllocator he.2⟩
    intro res a hres
    obtain ⟨hres, ha⟩ := hres
    have hset := h.serviceable.setAllocator (m := m) ha
    cases res with
    | none => exact ⟨hres, hset⟩
    | some al =>
      have hplaced : ((q.setAllocator m a).placed j m al.id).Serviceable S := hset.setJob rfl
      apply hres.mono
      · exact fun _ _ ht => ⟨ht, hplaced⟩
      · exact fun _ _ ht => ⟨ht, hplaced⟩
  skip q w m j rest h hh _ := by
    apply h.congr (sameBooks_setQueue m rest) rfl rfl (h.serviceable.setQueue fun i hi => ?_)
    exact h.serviceable.queued m hh.machine i (hh.queue ▸ List.mem_cons_of_mem j hi)
  known q w j h hp := h.linked.known j hp
  offer q w j m h hp hm hposs := by
    apply h.congr (sameBooks_setQueue m _) rfl rfl (h.serviceable.setQueue fun i hi => ?_)
    obtain hi | hi := List.mem_append.mp hi
    · exact h.serviceable.queued m hm i hi
    · obtain rfl := List.mem_singleton.mp hi
      exact ⟨(h.linked.ids _ i (h.linked.known i hp)).2, good_of_possible hposs⟩
  refused q w j e h _ := h
  cancel q w j reason h hp := by
    have hwithdrawn : (q.withdrawn j).Serviceable S := h.serviceable.setJob rfl
    have hgone := hwithdrawn.dropped (q.job j).id
    apply ((agrees_rules hcb machines depth).cancel q w j reason h.toAgrees hp).mono
    · exact fun _ _ ht => ⟨ht, hgone⟩
    · exact fun _ _ ht => ⟨ht, hwithdrawn⟩

theorem processQueue_sustained (hS : Stable S) (hcb : Quiet cb) (h : Sustained S machines depth t) :
    wp (processQueue cb) (fun _ => Sustained S machines depth) (fun _ => Sustained S machines depth)
      t := processQueue_wp (sustained_rules hS hcb machines depth).toProcessRules h

theorem regenerateQueues_sustained (hS : Stable S) (hcb : Quiet cb) (h : Sustained S machines depth t) :
    wp (regenerateQueues cb) (fun _ => Sustained S machines depth)
      (fun _ => Sustained S machines depth) t :=
  regenerateQueues_wp (sustained_rules hS hcb machines depth)
    (fun _ _ h => h.congr sameBooks_cleared rfl rfl h.serviceable.cleared) (fun _ h => h) h

theorem createJob_sustained (hS : Stable S) (hcb : Quiet cb) {id : Option ℕ} {machine : Option MachineName}
    {tags : Option Tags} {request : Request} (h : Sustained S machines depth t) :
    wp (createJob cb id machine tags request) (fun _ => Sustained S machines depth)
      (fun _ => Sustained S machines depth) t := by
  simp only [createJob, wp_bind, wp_queue]
  cases id with
  | none => exact h
  | some id =>
    dsimp only
    split
    · exact h
    next hnone =>
    rw [wp_bind]
    cases jobTags machine tags with
    | error e => exact h
    | ok tags =>
    rw [wp_ofExcept_ok, wp_bind, wp_change]
    have hnone' : t.1.jobs.get? id = none := Option.not_isSome_iff_eq_none.mp hnone
    apply enqueueJob_wp (sustained_rules hS hcb machines depth)
    · exact ⟨⟨h.linked.created _ rfl rfl rfl hnone', h.machines, h.postpone⟩,
        h.serviceable.created h.linked hnone'⟩
    · change ((t.1.setJob _ _).job _).pending = true
      rw [job_setJob_self]

theorem destroyJob_sustained (hS : Stable S) (hcb : Quiet cb) {reason : Option String}
    (h : Sustained S machines depth t) :
    wp (destroyJob cb id reason) (fun _ => Sustained S machines depth)
      (fun _ => Sustained S machines depth) t := by
  obtain ⟨q, w⟩ := t
  apply destroyJob_wp fun t ht => processQueue_sustained hS hcb ht
  · exact fun _ => h
  · intro j hj hp
    obtain rfl := (h.linked.ids id j hj).1
    exact (sustained_rules hS hcb machines depth).cancel q w j reason h hp
  · intro j hj _
    apply (hcb.onFree _ reason w).mono
    · exact fun _ _ _ => ⟨⟨h.linked, h.machines, h.postpone⟩, h.serviceable⟩
    · exact fun _ _ hf => hf.elim

theorem free_serviceable {Q : Unit → JobQueue × ω → Prop} {E : Error → JobQueue × ω → Prop}
    (hS : Stable S) (h : Sustained S machines depth (q, w))
    (hfair : ∀ j, q.jobs.get? id = some j → (q.job j).pending = false)
    (hunknown : q.jobs.get? id = none → Q () (q, w))
    (hprocess : ∀ j m b, q.jobs.get? id = some j → (q.job j).machine = some m →
      SameSetup (q.machine m).allocator b →
      Sustained S machines depth ((q.dropped id).setAllocator m b, w) →
      wp (processQueue cb) Q E ((q.dropped id).setAllocator m b, w)) :
    wp (free cb id) Q E (q, w) := by
  apply JobQueue.free_wp (I := fun t => ∃ j m b, t = ((q.dropped id).setAllocator m b, w) ∧
    q.jobs.get? id = some j ∧ (q.job j).machine = some m ∧
      SameSetup (q.machine m).allocator b ∧ Sustained S machines depth t)
  · intro t ht
    obtain ⟨j, m, b, rfl, hj, hm, hs, ht⟩ := ht
    exact hprocess j m b hj hm hs ht
  · exact hunknown
  · intro j hj hn
    obtain ⟨m, a, hh, -⟩ := h.linked.free_wp hj (hfair j hj)
    rw [hh.1] at hn
    cases hn
  · intro j hj hn
    obtain ⟨m, a, hh, -⟩ := h.linked.free_wp hj (hfair j hj)
    rw [hh.2] at hn
    cases hn
  · intro j m a hj hjm hja
    obtain ⟨m', a', hh, hm, hfree⟩ := h.linked.free_wp hj (hfair j hj)
    obtain rfl := Option.some.inj (hjm.symm.trans hh.1)
    obtain rfl := Option.some.inj (hja.symm.trans hh.2)
    have htype := (h.linked.image m hm a).mpr ⟨j, Dict.mem_values.mpr ⟨id, hj⟩, hh⟩
    apply ((hfree.and (hS.free _ _ (h.serviceable.sound m hm) htype)).and
      (free_registry (h.linked.registry m hm) a)).mono
    · intro _ b hb
      obtain ⟨⟨hlinked, hsound⟩, -, -, hsame, -⟩ := hb
      exact ⟨j, m, b, rfl, hj, hjm, hsame, ⟨hlinked, h.machines, h.postpone⟩,
        (h.serviceable.dropped id).setAllocator hsound⟩
    · exact fun _ _ hf => hf.1.1.elim

theorem free_sustained (hS : Stable S) (hcb : Quiet cb) (h : Sustained S machines depth t)
    (hfair : ∀ j, t.1.jobs.get? id = some j → (t.1.job j).pending = false) :
    wp (free cb id) (fun _ => Sustained S machines depth) (fun _ => Sustained S machines depth) t :=
  free_serviceable hS h hfair (fun _ => h) fun _ _ _ _ _ _ ht => processQueue_sustained hS hcb ht

theorem checkFree_sustained (hS : Stable S) (hcb : Quiet cb) (h : Sustained S machines depth t) :
    wp (checkFree cb) (fun _ => Sustained S machines depth) (fun _ => Sustained S machines depth)
      t := by
  obtain ⟨q, w⟩ := t
  apply checkFree_wp (sustained_rules hS hcb machines depth).toProcessRules _ h
  intro q w m h hm
  apply ((checkFree_passes _).and (hS.checkFree _ (h.serviceable.sound m hm))).mono
  · exact fun _ _ ha => h.congr (sameBooks_setAllocator ha.1) rfl rfl
      (h.serviceable.setAllocator ha.2)
  · exact fun _ _ ha => h.congr (sameBooks_setAllocator ha.1) rfl rfl
      (h.serviceable.setAllocator ha.2)

theorem sweep_sustained (hS : Stable S) {L : ω → Prop} {reason : Option String}
    (h : Sustained S machines depth (q, w)) (hdepth : depth ≠ 0) (hj : q.jobs.get? id = some j)
    (hm : (q.job j).machine = some m)
    (hfree : wp (cb.onFree (q.job j).id reason) (fun _ => L) (fun _ _ => False) w) :
    wp (destroyJob cb id reason >>= fun _ => free cb id)
      (fun _ t => Sustained S machines depth t ∧ L t.2 ∧ Fixed q t.1 ∧ t.1.job = q.job ∧
        t.1.jobs = q.jobs.erase id ∧ ∀ n, n ≠ m → t.1.machine n = q.machine n)
      (fun _ _ => False) (q, w) := by
  have hp := h.linked.pending_of_machine hm
  rw [wp_bind]
  apply destroyJob_postponed (h.postpone.trans_ne hdepth) hj hp
  apply hfree.mono _ fun _ _ he => he
  intro _ w' hL
  have hs' : Sustained S machines depth (q, w') :=
    ⟨⟨h.linked, h.machines, h.postpone⟩, h.serviceable⟩
  apply free_serviceable hS hs'
  · intro i hi
    rw [← Option.some.inj (hj.symm.trans hi)]
    exact hp
  · intro hn
    rw [hj] at hn
    cases hn
  · intro i n b hi hn hsame hb
    obtain rfl := Option.some.inj (hj.symm.trans hi)
    obtain rfl := Option.some.inj (hm.symm.trans hn)
    apply processQueue_postponed (hb.postpone.trans_ne hdepth)
    refine ⟨hb, hL, (fixed_dropped q id).trans (fixed_setAllocator (q := q.dropped id) hsame), rfl,
      rfl, fun k hk => ?_⟩
    rw [machine_setAllocator, if_neg hk]
    rfl

theorem removeMachine_serves (hS : Stable S) {L : ω → Prop} {name : String}
    {Q : Unit → JobQueue × ω → Prop} {E : Error → JobQueue × ω → Prop} (h : Sustained S machines depth (q, w))
    (hdepth : 0 ≤ depth) (hm : q.machines.get? name = some m) (hL : L w)
    (hfree : ∀ j ∈ q.jobs.values, (q.job j).machine = some m → ∀ w, L w →
      wp (cb.onFree (q.job j).id (some "Machine removed.")) (fun _ => L) (fun _ _ => False) w)
    (hleave : ∀ t, Sustained S (machines.erase name) depth t → L t.2 →
      Fixed { q with machines := q.machines.erase name } t.1 → t.1.job = q.job →
      t.1.jobs.values = q.jobs.values.filter (fun j => (q.job j).machine ≠ some m) →
      (∀ n, n ≠ m → t.1.machine n = q.machine n) → wp (regenerateQueues cb) Q E t) :
    wp (removeMachine cb name) Q E (q, w) := by
  apply removeMachine_sweeps (F := fun _ _ => False)
    (K := fun _ t => Sustained S machines (depth + 1) t ∧ L t.2 ∧
      Fixed { q with postpone := q.postpone + 1 } t.1 ∧ ∀ n, n ≠ m → t.1.machine n = q.machine n)
  · exact fun id j hj => (h.linked.ids id j hj).1
  · intro hnone
    rw [hm] at hnone
    cases hnone
  · intro _ _
    refine ⟨⟨⟨h.linked.congr ⟨rfl, rfl, rfl, fun _ => rfl, rfl, fun _ => rfl, fun _ => rfl,
      fun _ => rfl, fun _ => rfl⟩, h.machines, congrArg (· + 1) h.postpone⟩,
      h.serviceable.setPostpone _⟩, hL, (Onward.refl _).toFixed, fun _ _ => rfl⟩
  · intro m' j rest t hm' hs ht hj
    obtain ⟨q', w'⟩ := t
    obtain ⟨hs', hL', hf, hkept⟩ := ht
    obtain rfl := Option.some.inj (hm.symm.trans hm')
    have hin : j ∈ q.jobs.values := by
      have hj' : j ∈ q'.jobs.values := Dict.mem_values.mpr ⟨_, hs.known j List.mem_cons_self⟩
      rw [hs.values] at hj'
      exact (List.mem_filter.mp hj').1
    have hdepth' : depth + 1 ≠ 0 := by omega
    have hcall := hfree j hin hj w' hL'
    rw [← hs.job] at hcall
    apply (sweep_sustained hS hs' hdepth' (hs.known j List.mem_cons_self) (hs.job ▸ hj) hcall).mono _
      fun _ _ he => he
    intro _ t' ht'
    obtain ⟨hs'', hL'', hf', hjob, hjobs, hkept'⟩ := ht'
    exact ⟨⟨hs'', hL'', hf.trans hf', fun n hn => (hkept' n hn).trans (hkept n hn)⟩, hjob,
      hf'.machines, hjobs⟩
  · intro m' t hm' hs ht
    obtain ⟨q', w'⟩ := t
    obtain ⟨hs', hL', hf, hkept⟩ := ht
    obtain rfl := Option.some.inj (hm.symm.trans hm')
    obtain ⟨hlinked, -⟩ := hs'.linked.erased (hs.machines ▸ hm) fun j => hs.left
    have hpost : q'.postpone = depth + 1 := hs'.postpone
    have hback : q'.postpone - 1 = q.postpone := by
      rw [hf.postpone]
      exact Int.add_sub_cancel _ _
    simp only [exit, wp_bind, wp_change]
    apply hleave
    · refine ⟨⟨hlinked.congr ⟨rfl, rfl, rfl, fun _ => rfl, rfl, fun _ => rfl, fun _ => rfl,
        fun _ => rfl, fun _ => rfl⟩, congrArg (Dict.erase · name) hs'.machines, ?_⟩, ?_⟩
      · dsimp only
        omega
      · have hfewer (n : ℕ) (hn : n ∈ (q'.machines.erase name).values) :
            n ∈ q'.machines.values := (Dict.values_erase_sublist _ _).subset hn
        exact hs'.serviceable.fewer hfewer (fun n hn => hs'.serviceable.sound n (hfewer n hn))
          (fun _ _ hi => hi) (fun _ => rfl) rfl (List.Sublist.refl _)
    · exact hL'
    · exact ⟨congrArg (Dict.erase · name) hf.machines, hback, hf.nextJob, hf.tags, hf.setup,
        hf.machineName, hf.jobTags, hf.request⟩
    · exact hs.job
    · refine hs.values.trans (List.filter_congr fun j _ => ?_)
      simp
    · exact hkept
  · exact fun _ _ hf => hf.elim

theorem removeMachine_sustained (hS : Stable S) (hcb : Quiet cb) {name : String}
    (h : Sustained S machines depth (q, w)) (hdepth : 0 ≤ depth)
    (hm : q.machines.get? name = some m) :
    wp (removeMachine cb name) (fun _ => Sustained S (machines.erase name) depth)
      (fun _ => Sustained S (machines.erase name) depth) (q, w) := by
  apply removeMachine_serves hS (L := fun _ => True) h hdepth hm trivial
  · exact fun j _ _ w _ => hcb.onFree _ _ w
  · exact fun _ ht _ _ _ _ _ => regenerateQueues_sustained hS hcb ht

def Serving (S : Allocator → Prop) (t : JobQueue × ω) : Prop := Coherent t ∧ t.1.Serviceable S

theorem Serving.sustained (h : Serving S t) : Sustained S t.1.machines t.1.postpone t :=
  ⟨h.1.agrees, h.2⟩

/-- The allocators that a call makes or changes satisfy `S`. -/
def Supplies (S : Allocator → Prop) (t : JobQueue × ω) : JobQueueCall → Prop
  | .addMachine name width height tags deadBoards deadLinks =>
    S ((t.1.added name width height tags deadBoards deadLinks).machine t.1.nextMachine).allocator
  | .modifyMachine name tags deadBoards deadLinks => ∀ m, t.1.machines.get? name = some m →
      S (t.1.machine m).allocator → S ((t.1.machine m).modified tags deadBoards deadLinks).allocator
  | _ => True

theorem exec_serving (hS : Stable S) (hcb : Quiet cb) {call : JobQueueCall} (h : Serving S t)
    (hc : Fair t call) (hsupplies : Supplies S t call) : Serving S ((call.exec cb).run t).2 := by
  have hcoherent := exec_coherent hcb h.1 hc
  refine ⟨hcoherent, ?_⟩
  have hsame {m : Call ω Unit} {machines : Dict String ℕ} {depth : ℤ}
      (hm : wp m (fun _ => Sustained S machines depth) (fun _ => Sustained S machines depth) t) :
      (m.run t).2.1.Serviceable S := (wp_same hm).serviceable
  have hs := h.sustained
  cases call with
  | createJob id machine tags request => exact hsame (createJob_sustained hS hcb hs)
  | destroyJob id reason => exact hsame (destroyJob_sustained hS hcb hs)
  | free id => exact hsame (free_sustained hS hcb hs hc)
  | checkFree => exact hsame (checkFree_sustained hS hcb hs)
  | addMachine name width height tags deadBoards deadLinks =>
    have hadd : wp (addMachine cb name width height tags deadBoards deadLinks)
        (fun _ u => u.1.Serviceable S) (fun _ u => u.1.Serviceable S) t := by
      simp only [addMachine, wp_bind, wp_queue]
      split
      · exact h.2
      next hnone =>
      rw [wp_bind, wp_change]
      have hnone' := Option.not_isSome_iff_eq_none.mp hnone
      have hlinked := h.1.1.added hnone' width height tags deadBoards deadLinks
      apply (regenerateQueues_sustained hS hcb ⟨⟨hlinked, rfl, rfl⟩,
        h.2.added h.1.1 hnone' tags deadBoards deadLinks hsupplies⟩).mono
      · exact fun _ _ hu => hu.serviceable
      · exact fun _ _ hu => hu.serviceable
    exact wp_same hadd
  | modifyMachine name tags deadBoards deadLinks =>
    have hmodify : wp (modifyMachine cb name tags deadBoards deadLinks)
        (fun _ => Sustained S t.1.machines t.1.postpone)
        (fun _ => Sustained S t.1.machines t.1.postpone) t := by
      simp only [modifyMachine, wp_bind, wp_queue]
      cases hm : t.1.machines.get? name with
      | none => exact hs
      | some m =>
        dsimp only
        rw [wp_bind, wp_change]
        have hsound := hsupplies m hm (h.2.sound m (Dict.mem_values.mpr ⟨name, hm⟩))
        apply regenerateQueues_sustained hS hcb
        exact Sustained.congr (w := t.2) hs (sameBooks_modified m _ _ _) rfl rfl
          (h.2.modified tags deadBoards deadLinks hsound)
    exact hsame hmodify
  | moveMachineToEnd name =>
    have hmove : wp (moveMachineToEnd name) (fun _ u => u.1.Serviceable S)
        (fun _ u => u.1.Serviceable S) t := by
      simp only [moveMachineToEnd, wp_bind, wp_queue]
      split
      · exact h.2
      · have hsame (m : ℕ) (hm : m ∈ (t.1.machines.moveToEnd name).values) :
            m ∈ t.1.machines.values := by
          obtain ⟨k, hk⟩ := Dict.mem_values.mp hm
          rw [Dict.get?_moveToEnd] at hk
          exact Dict.mem_values.mpr ⟨k, hk⟩
        exact h.2.fewer hsame (fun m hm => h.2.sound m (hsame m hm)) (fun _ _ hi => hi)
          (fun _ => rfl) rfl (List.Sublist.refl _)
    exact wp_same hmove
  | removeMachine name =>
    cases hm : t.1.machines.get? name with
    | none =>
      have hremove : wp (removeMachine cb name) (fun _ u => u.1.Serviceable S)
          (fun _ u => u.1.Serviceable S) t := by
        simp only [removeMachine, wp_bind, wp_queue, hm]
        exact h.2
      exact wp_same hremove
    | some m => exact hsame (removeMachine_sustained hS hcb hs h.1.2 hm)
  | enter => exact h.2.setPostpone _
  | exit =>
    have hexit : wp (exit cb) (fun _ => Sustained S t.1.machines (t.1.postpone - 1))
        (fun _ => Sustained S t.1.machines (t.1.postpone - 1)) t := by
      simp only [exit, wp_bind, wp_change]
      apply regenerateQueues_sustained hS hcb
      exact ⟨⟨h.1.1.congr ⟨rfl, rfl, rfl, fun _ => rfl, rfl, fun _ => rfl, fun _ => rfl,
        fun _ => rfl, fun _ => rfl⟩, rfl, rfl⟩, h.2.setPostpone _⟩
    exact hsame hexit

theorem reachable_serving (hS : Stable S) {c : Schedule.Setup} (hcb : Quiet cb)
    (h : ((system cb c w).restrict fun t call => Fair t call ∧ Supplies S t call).Reachable t) :
    Serving S t := by
  apply h.invariant
  · rintro _ rfl
    exact ⟨⟨⟨nofun, nofun, nofun, nofun, nofun, nofun, nofun, nofun⟩, le_rfl⟩, nofun, nofun,
      List.Pairwise.nil⟩
  · intro t call t' _ ht hstep
    obtain ⟨⟨hc, hsupplies⟩, rfl⟩ := hstep
    exact exec_serving hS hcb ht hc hsupplies

/-- No allocator has released anything hastily, and none will. -/
def Calm (q : JobQueue) : Prop := ∀ m ∈ q.machines.values, (q.machine m).allocator.Calm

theorem Calm.serviceable (hq : q.Calm) (h : q.Serviceable S) : q.Serviceable Sturdy :=
  h.mono fun m hm => (hq m hm).sturdy

/-- New machines have a triad, and dead boards stay as they are. -/
def Unchanging : JobQueueCall → Prop
  | .addMachine _ width height _ _ _ => 1 ≤ width ∧ 1 ≤ height
  | .modifyMachine _ _ deadBoards _ => deadBoards = none
  | _ => True

theorem Unchanging.supplies {call : JobQueueCall} (h : Unchanging call) (t : JobQueue × ω) :
    Supplies Robust t call := by
  cases call with
  | addMachine name width height tags deadBoards deadLinks =>
    have hself : (t.1.added name width height tags deadBoards deadLinks).machine t.1.nextMachine =
      _ := machine_setMachine_self _ _
    dsimp only [Supplies]
    rw [hself]
    exact robust_new h.1 h.2
  | modifyMachine name tags deadBoards deadLinks =>
    obtain rfl : deadBoards = none := h
    intro m _ hrobust
    exact ⟨hrobust.unhurried.reconfigured _ _, hrobust.resilient⟩
  | _ => trivial

/-- Releases are hasty only where dead boards change. -/
theorem reachable_calm {c : Schedule.Setup} (hcb : Quiet cb)
    (h : ((system cb c w).restrict fun t call => Fair t call ∧ Unchanging call).Reachable t) :
    t.1.Calm := by
  have hrobust := reachable_serving stable_robust hcb
    (h.mono fun t _ hcall => ⟨hcall.1, hcall.2.supplies t⟩)
  exact fun m hm => (hrobust.2.sound m hm).calm

theorem reachable_orderly {c : Schedule.Setup} (hcb : Quiet cb)
    (h : ((system cb c w).restrict Fair).Reachable t) : Serving (fun _ => True) t := by
  apply reachable_serving stable_all hcb
  refine h.mono fun t call hcall => ⟨hcall, ?_⟩
  cases call with
  | modifyMachine name tags deadBoards deadLinks => exact fun _ _ _ => trivial
  | _ => trivial

end SpallocServer.JobQueue
