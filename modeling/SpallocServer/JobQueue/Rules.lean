import SpallocServer.JobQueue

namespace SpallocServer.JobQueue

open Foundation Prog

variable {ω α : Type} {cb : Callbacks ω} {q : JobQueue} {w : ω} {s : JobQueue × ω}

section Statements

variable {E : Error → JobQueue × ω → Prop}

@[simp] theorem wp_queue {Q : JobQueue → JobQueue × ω → Prop} :
    wp (queue : Call ω JobQueue) Q E s ↔ Q s.1 s := Iff.rfl

@[simp] theorem wp_change {Q : Unit → JobQueue × ω → Prop} (f : JobQueue → JobQueue) :
    wp (change f : Call ω Unit) Q E s ↔ Q () (f s.1, s.2) := Iff.rfl

theorem wp_report {Q : Unit → JobQueue × ω → Prop} (m : Prog Error ω Unit) :
    wp (report m) Q E (q, w) ↔
      wp m (fun a w' => Q a (q, w')) (fun e w' => E e (q, w')) w :=
  wp_zoom _ _ m

theorem wp_onAllocator {Q : α → JobQueue × ω → Prop} {m : ℕ} (p : Prog Error Allocator α) :
    wp (onAllocator m p) Q E (q, w) ↔
      wp p (fun x a => Q x (q.setAllocator m a, w)) (fun e a => E e (q.setAllocator m a, w))
        (q.machine m).allocator :=
  wp_zoom _ _ p

end Statements

@[simp] theorem machines_setMachine (m : ℕ) (machine : Machine) :
    (q.setMachine m machine).machines = q.machines := rfl

@[simp] theorem machines_setJob (j : ℕ) (job : Job) : (q.setJob j job).machines = q.machines := rfl

@[simp] theorem machine_setMachine_self (m : ℕ) (machine : Machine) :
    (q.setMachine m machine).machine m = machine := Function.update_self ..

theorem machine_setMachine_ne {m n : ℕ} (h : n ≠ m) (machine : Machine) :
    (q.setMachine m machine).machine n = q.machine n := Function.update_of_ne h ..

@[simp] theorem job_setJob_self (j : ℕ) (job : Job) : (q.setJob j job).job j = job :=
  Function.update_self ..

theorem job_setJob_ne {i j : ℕ} (h : i ≠ j) (job : Job) : (q.setJob j job).job i = q.job i :=
  Function.update_of_ne h ..

theorem machine_setMachine (m n : ℕ) (machine : Machine) :
    (q.setMachine m machine).machine n = if n = m then machine else q.machine n := by
  by_cases h : n = m
  · subst h
    rw [machine_setMachine_self, if_pos rfl]
  · rw [machine_setMachine_ne h, if_neg h]

theorem job_setJob (i j : ℕ) (job : Job) :
    (q.setJob j job).job i = if i = j then job else q.job i := by
  by_cases h : i = j
  · subst h
    rw [job_setJob_self, if_pos rfl]
  · rw [job_setJob_ne h, if_neg h]

theorem machine_setAllocator (m n : ℕ) (a : Allocator) :
    (q.setAllocator m a).machine n =
      if n = m then { q.machine n with allocator := a } else q.machine n := by
  rw [setAllocator, machine_setMachine]
  split
  · next h => rw [h]
  · rfl

theorem machine_setQueue (m n : ℕ) (l : List ℕ) :
    (q.setQueue m l).machine n =
      if n = m then { q.machine n with queue := l } else q.machine n := by
  rw [setQueue, machine_setMachine]
  split
  · next h => rw [h]
  · rfl

theorem machine_cleared (n : ℕ) :
    q.cleared.machine n =
      if n ∈ q.machines.values then { q.machine n with queue := [] } else q.machine n := rfl

theorem queue_setAllocator (m n : ℕ) (a : Allocator) :
    ((q.setAllocator m a).machine n).queue = (q.machine n).queue := by
  by_cases h : n = m
  · subst h
    rw [setAllocator, machine_setMachine_self]
  · rw [setAllocator, machine_setMachine_ne h]

/-- The job is at the head of the queue of the machine. -/
structure Head (q : JobQueue) (m j : ℕ) (rest : List ℕ) : Prop where
  machine : m ∈ q.machines.values
  queue : (q.machine m).queue = j :: rest

/-- An invariant `I`, with `E` for what may be raised, of the work on the queues. -/
structure ProcessRules (cb : Callbacks ω) (I : JobQueue × ω → Prop)
    (E : Error → JobQueue × ω → Prop) : Prop where
  alloc : ∀ q w m j rest, I (q, w) → q.Head m j rest → (q.job j).pending = true →
    wp (Allocator.alloc (q.job j).request) (fun res a =>
      match res with
      | none => I (q.setAllocator m a, w)
      | some al => wp (cb.onAllocate (q.job j).id (q.machine m).name al.boards al.periphery al.torus)
          (fun _ w' => I ((q.setAllocator m a).placed j m al.id, w'))
          (fun e w' => E e ((q.setAllocator m a).placed j m al.id, w')) w)
      (fun e a => E e (q.setAllocator m a, w)) (q.machine m).allocator
  skip : ∀ q w m j rest, I (q, w) → q.Head m j rest → (q.job j).pending = false →
    I (q.setQueue m rest, w)

variable {I : JobQueue × ω → Prop} {E : Error → JobQueue × ω → Prop}

structure SameQueues (q q' : JobQueue) : Prop where
  machines : q'.machines = q.machines
  queue : ∀ m, (q'.machine m).queue = (q.machine m).queue

theorem tryJob_wp (h : ProcessRules cb I E) {m j : ℕ} {rest : List ℕ} (hs : I (q, w))
    (hh : q.Head m j rest) (hp : (q.job j).pending = true) :
    wp (tryJob cb j m) (fun b t => I t ∧ SameQueues q t.1 ∧
      (b = true → (t.1.job j).pending = false)) E (q, w) := by
  simp only [tryJob, wp_bind, wp_queue, wp_onAllocator]
  apply (h.alloc q w m j rest hs hh hp).mono _ fun _ _ he => he
  intro res a hres
  cases res with
  | none => exact ⟨hres, ⟨rfl, fun n => queue_setAllocator m n a⟩, by simp⟩
  | some al =>
    simp only [wp_bind, wp_change, wp_report]
    apply hres.mono _ fun _ _ he => he
    intro _ w' hI
    refine ⟨hI, ⟨rfl, fun n => queue_setAllocator m n a⟩, fun _ => ?_⟩
    rw [placed, job_setJob_self]

theorem processHead_wp (h : ProcessRules cb I E) {m : ℕ} (n : ℕ) (hs : I (q, w))
    (hm : m ∈ q.machines.values) :
    wp (processHead cb m n) (fun _ t => I t ∧ t.1.machines = q.machines) E (q, w) := by
  induction n generalizing q w with
  | zero => exact ⟨hs, rfl⟩
  | succ n ih =>
    simp only [processHead, wp_bind, wp_queue]
    cases hq : (q.machine m).queue with
    | nil => exact ⟨hs, rfl⟩
    | cons j rest =>
      have hh : q.Head m j rest := ⟨hm, hq⟩
      dsimp only
      cases hp : (q.job j).pending with
      | false =>
        rw [if_pos (by simp), wp_bind, wp_change]
        exact ih (h.skip q w m j rest hs hh hp) hm
      | true =>
        rw [if_neg (by simp), wp_bind]
        apply (tryJob_wp h hs hh hp).mono _ fun _ _ he => he
        rintro b ⟨q', w'⟩ ⟨hI, hsame, hpend⟩
        cases b with
        | false => exact ⟨hI, hsame.machines⟩
        | true =>
          have hh' : q'.Head m j rest :=
            ⟨hsame.machines ▸ hm, (hsame.queue m).trans hq⟩
          exact ⟨h.skip q' w' m j rest hI hh' (hpend rfl), hsame.machines⟩

theorem processMachines_wp (h : ProcessRules cb I E) {machines : List ℕ} (hs : I (q, w))
    (hm : ∀ m ∈ machines, m ∈ q.machines.values) :
    wp (processMachines cb machines) (fun _ t => I t ∧ t.1.machines = q.machines) E (q, w) := by
  induction machines generalizing q w with
  | nil => exact ⟨hs, rfl⟩
  | cons m machines ih =>
    simp only [processMachines, wp_bind, wp_queue]
    apply (processHead_wp h _ hs (hm m List.mem_cons_self)).mono _ fun _ _ he => he
    rintro b ⟨q', w'⟩ ⟨hI, hsame⟩
    dsimp only at hsame
    have hm' : ∀ n ∈ machines, n ∈ q'.machines.values := fun n hn => by
      rw [hsame]
      exact hm n (List.mem_cons_of_mem m hn)
    rw [wp_bind]
    apply (ih hI hm').mono _ fun _ _ he => he
    intro _ t ht
    exact ⟨ht.1, ht.2.trans hsame⟩

theorem processLoop_wp (h : ProcessRules cb I E) (n : ℕ) (hs : I (q, w)) :
    wp (processLoop cb n) (fun _ t => I t ∧ t.1.machines = q.machines) E (q, w) := by
  induction n generalizing q w with
  | zero => exact ⟨hs, rfl⟩
  | succ n ih =>
    simp only [processLoop, wp_bind, wp_queue]
    apply (processMachines_wp h hs fun m hm => hm).mono _ fun _ _ he => he
    rintro b ⟨q', w'⟩ ⟨hI, hsame⟩
    cases b with
    | false => exact ⟨hI, hsame⟩
    | true =>
      apply (ih hI).mono _ fun _ _ he => he
      intro _ t ht
      exact ⟨ht.1, ht.2.trans hsame⟩

theorem processQueue_wp (h : ProcessRules cb I E) (hs : I (q, w)) :
    wp (processQueue cb) (fun _ => I) E (q, w) := by
  simp only [processQueue, wp_bind, wp_queue]
  split
  · exact hs
  · exact (processLoop_wp h _ hs).mono (fun _ _ ht => ht.1) fun _ _ he => he

theorem queued_congr {q' : JobQueue} (h : SameQueues q q') : q'.queued = q.queued := by
  unfold queued
  rw [h.machines]
  exact congrArg List.sum (List.map_congr_left fun m _ => by rw [h.queue])

theorem queued_setQueue {m j : ℕ} {rest : List ℕ} (h : q.Head m j rest) :
    (q.setQueue m rest).queued < q.queued := by
  have hqueue (n : ℕ) : ((q.setQueue m rest).machine n).queue =
      if n = m then rest else (q.machine n).queue := by
    by_cases hn : n = m
    · subst hn
      rw [setQueue, machine_setMachine_self, if_pos rfl]
    · rw [setQueue, machine_setMachine_ne hn, if_neg hn]
  apply List.sum_lt_sum
  · intro n _
    rw [hqueue]
    split
    · next hn =>
      rw [hn, h.queue]
      exact Nat.le_succ _
    · exact le_rfl
  · refine ⟨m, h.machine, ?_⟩
    rw [hqueue, if_pos rfl, h.queue]
    exact Nat.lt_succ_self _

def Shrinks (q : JobQueue) (started : Bool) (t : JobQueue × ω) : Prop :=
  t.1.machines = q.machines ∧ t.1.queued ≤ q.queued ∧ (started = true → t.1.queued < q.queued)

theorem trivialRules : ProcessRules cb (fun _ => True) fun _ _ => True where
  alloc q w m j rest _ _ _ := by
    apply (wp_trivial _).mono _ fun _ _ _ => trivial
    rintro (_ | al) a -
    · trivial
    · exact wp_trivial _
  skip _ _ _ _ _ _ _ _ := trivial

theorem processHead_shrinks {m : ℕ} (n : ℕ) (hm : m ∈ q.machines.values) :
    wp (processHead cb m n) (Shrinks q) (fun _ _ => True) (q, w) := by
  induction n generalizing q w with
  | zero => exact ⟨rfl, le_rfl, nofun⟩
  | succ n ih =>
    simp only [processHead, wp_bind, wp_queue]
    cases hq : (q.machine m).queue with
    | nil => exact ⟨rfl, le_rfl, nofun⟩
    | cons j rest =>
      have hh : q.Head m j rest := ⟨hm, hq⟩
      dsimp only
      cases hp : (q.job j).pending with
      | false =>
        rw [if_pos (by simp), wp_bind, wp_change]
        have hlt := queued_setQueue hh
        apply (ih (q := q.setQueue m rest) hm).mono _ fun _ _ he => he
        rintro b t ⟨h1, h2, -⟩
        exact ⟨h1, by omega, fun _ => by omega⟩
      | true =>
        rw [if_neg (by simp), wp_bind]
        apply (tryJob_wp trivialRules trivial hh hp).mono _ fun _ _ he => he
        rintro b ⟨q', w'⟩ ⟨-, hsame, -⟩
        have hsum := queued_congr hsame
        cases b with
        | false => exact ⟨hsame.machines, hsum.le, nofun⟩
        | true =>
          have hh' : q'.Head m j rest := ⟨hsame.machines ▸ hm, (hsame.queue m).trans hq⟩
          have hlt : (q'.setQueue m rest).queued < q.queued := (queued_setQueue hh').trans_eq hsum
          exact ⟨hsame.machines, hlt.le, fun _ => hlt⟩

theorem processMachines_shrinks {machines : List ℕ} (hm : ∀ m ∈ machines, m ∈ q.machines.values) :
    wp (processMachines cb machines) (Shrinks q) (fun _ _ => True) (q, w) := by
  induction machines generalizing q w with
  | nil => exact ⟨rfl, le_rfl, nofun⟩
  | cons m machines ih =>
    simp only [processMachines, wp_bind, wp_queue]
    apply (processHead_shrinks _ (hm m List.mem_cons_self)).mono _ fun _ _ he => he
    rintro b ⟨q', w'⟩ ⟨h1, h2, h3⟩
    dsimp only at h1 h2 h3
    have hm' : ∀ n ∈ machines, n ∈ q'.machines.values := fun n hn => by
      rw [h1]
      exact hm n (List.mem_cons_of_mem m hn)
    rw [wp_bind]
    apply (ih hm').mono _ fun _ _ he => he
    rintro b' t ⟨h1', h2', h3'⟩
    refine ⟨h1'.trans h1, h2'.trans h2, fun hb => ?_⟩
    obtain hb | hb := Bool.or_eq_true_iff.mp hb
    · exact h2'.trans_lt (h3 hb)
    · exact (h3' hb).trans_le h2

theorem processLoop_fuel {n : ℕ} (hn : s.1.queued < n) :
    (processLoop cb (n + 1)).run s = (processLoop cb n).run s := by
  induction n generalizing s with
  | zero => omega
  | succ n ih =>
    have hshrinks : wp (processMachines cb s.1.machines.values) (Shrinks s.1) (fun _ _ => True) s :=
      processMachines_shrinks fun m hm => hm
    have hturn (k : ℕ) : processLoop cb (k + 1) = queue >>= fun q =>
        processMachines cb q.machines.values >>= fun started =>
          if started then processLoop cb k else pure () := rfl
    unfold wp at hshrinks
    rw [hturn, hturn, run_bind, run_bind]
    change (processMachines cb s.1.machines.values >>= _).run s =
      (processMachines cb s.1.machines.values >>= _).run s
    rw [run_bind, run_bind]
    generalize (processMachines cb s.1.machines.values).run s = res at hshrinks ⊢
    obtain ⟨e | _ | _, t⟩ := res
    · rfl
    · rfl
    · have hlt := hshrinks.2.2 rfl
      exact ih (by omega)

theorem processLoop_queued (k : ℕ) :
    (processLoop cb (s.1.queued + 1 + k)).run s = (processLoop cb (s.1.queued + 1)).run s := by
  induction k with
  | zero => rfl
  | succ k ih => rw [← Nat.add_assoc, processLoop_fuel (by omega), ih]

theorem processHead_fuel {m : ℕ} (n : ℕ) (hn : (s.1.machine m).queue.length ≤ n) :
    (processHead cb m (n + 1)).run s = (processHead cb m n).run s := by
  have hnil (k : ℕ) (s : JobQueue × ω) (hq : (s.1.machine m).queue = []) :
      (processHead cb m (k + 1)).run s = (.ok false, s) := by
    rw [processHead, run_bind]
    change Prog.run _ s = _
    rw [hq]
    rfl
  have hturn (k : ℕ) (s : JobQueue × ω) {j : ℕ} {rest : List ℕ}
      (hq : (s.1.machine m).queue = j :: rest) : (processHead cb m (k + 1)).run s =
        (if ¬(s.1.job j).pending then
          change (fun q => q.setQueue m rest) >>= fun _ => processHead cb m k
        else tryJob cb j m >>= fun started =>
          if started then change (fun q => q.setQueue m rest) >>= fun _ => pure true
          else pure false : Call ω Bool).run s := by
    rw [processHead, run_bind]
    change Prog.run _ s = _
    rw [hq]
  induction n generalizing s with
  | zero =>
    rw [hnil 0 s (List.length_eq_zero_iff.mp (Nat.le_zero.mp hn))]
    rfl
  | succ n ih =>
    cases hq : (s.1.machine m).queue with
    | nil => rw [hnil _ s hq, hnil _ s hq]
    | cons j rest =>
      rw [hturn _ s hq, hturn _ s hq]
      split
      · rw [hq, List.length_cons] at hn
        change (processHead cb m (n + 1)).run (s.1.setQueue m rest, s.2) =
          (processHead cb m n).run (s.1.setQueue m rest, s.2)
        apply ih
        dsimp only
        rw [machine_setQueue, if_pos rfl]
        exact Nat.le_of_succ_le_succ hn
      · rfl

theorem processHead_queue {m : ℕ} (k : ℕ) :
    (processHead cb m ((s.1.machine m).queue.length + k)).run s =
      (processHead cb m (s.1.machine m).queue.length).run s := by
  induction k with
  | zero => rfl
  | succ k ih => rw [← Nat.add_assoc, processHead_fuel _ (Nat.le_add_right _ _), ih]

theorem destroyJob_wp {Q : Unit → JobQueue × ω → Prop} {id : ℕ} {reason : Option String}
    (hprocess : ∀ t, I t → wp (processQueue cb) Q E t)
    (hunknown : q.jobs.get? id = none → E .attributeError (q, w))
    (hcancel : ∀ j, q.jobs.get? id = some j → (q.job j).pending = true →
      wp (cb.onCancel (q.job j).id reason) (fun _ w' => I ((q.withdrawn j).dropped id, w'))
        (fun e w' => E e (q.withdrawn j, w')) w)
    (hfree : ∀ j, q.jobs.get? id = some j → (q.job j).pending = false →
      wp (cb.onFree (q.job j).id reason) (fun _ w' => I (q, w')) (fun e w' => E e (q, w')) w) :
    wp (destroyJob cb id reason) Q E (q, w) := by
  simp only [destroyJob, wp_bind, wp_queue]
  cases hj : q.jobs.get? id with
  | none => exact hunknown hj
  | some j =>
    dsimp only
    cases hp : (q.job j).pending with
    | true =>
      simp only [if_true, wp_bind, wp_change, wp_report]
      apply (hcancel j hj hp).mono _ fun _ _ he => he
      intro _ w' hI
      exact hprocess _ hI
    | false =>
      simp only [Bool.false_eq_true, if_false, wp_bind, wp_report]
      apply (hfree j hj hp).mono _ fun _ _ he => he
      intro _ w' hI
      exact hprocess _ hI

theorem free_wp {Q : Unit → JobQueue × ω → Prop} {id : ℕ}
    (hprocess : ∀ t, I t → wp (processQueue cb) Q E t)
    (hunknown : q.jobs.get? id = none → Q () (q, w))
    (hnowhere : ∀ j, q.jobs.get? id = some j → (q.job j).machine = none →
      E .attributeError (q.dropped id, w))
    (hnothing : ∀ j, q.jobs.get? id = some j → (q.job j).allocationId = none →
      E .keyError (q.dropped id, w))
    (hfree : ∀ j m allocationId, q.jobs.get? id = some j → (q.job j).machine = some m →
      (q.job j).allocationId = some allocationId →
      wp (Allocator.free allocationId) (fun _ a => I ((q.dropped id).setAllocator m a, w))
        (fun e a => E e ((q.dropped id).setAllocator m a, w)) (q.machine m).allocator) :
    wp (free cb id) Q E (q, w) := by
  simp only [free, wp_bind, wp_queue]
  cases hj : q.jobs.get? id with
  | none => exact hunknown hj
  | some j =>
    dsimp only
    rw [wp_bind, wp_change]
    cases hm : (q.job j).machine with
    | none => exact hnowhere j hj hm
    | some m =>
      dsimp only
      cases ha : (q.job j).allocationId with
      | none => exact hnothing j hj ha
      | some allocationId =>
        dsimp only
        rw [wp_bind, wp_onAllocator]
        apply (hfree j m allocationId hj hm ha).mono _ fun _ _ he => he
        intro _ a hI
        exact hprocess _ hI

theorem processQueue_postponed {Q : Unit → JobQueue × ω → Prop} (h : s.1.postpone ≠ 0)
    (hQ : Q () s) : wp (processQueue cb) Q E s := by
  simp only [processQueue, wp_bind, wp_queue]
  rw [if_pos h]
  exact hQ

/-- The loop over the jobs of a machine that is removed: `J m rest` holds while `rest` remains to
be visited, and `F` when it is left early. -/
theorem removeMachine_wp {name : String} {Q : Unit → JobQueue × ω → Prop}
    {F : Error → JobQueue × ω → Prop} {J : ℕ → List ℕ → JobQueue × ω → Prop}
    (hunknown : q.machines.get? name = none → E .keyError (q, w))
    (henter : ∀ m, q.machines.get? name = some m →
      J m q.jobs.values ({ q with postpone := q.postpone + 1 }, w))
    (hskip : ∀ m j rest t, J m (j :: rest) t → (t.1.job j).machine ≠ some m → J m rest t)
    (hsweep : ∀ m j rest t, J m (j :: rest) t → (t.1.job j).machine = some m →
      wp (destroyJob cb (t.1.job j).id (some "Machine removed.") >>= fun _ =>
        free cb (t.1.job j).id) (fun _ => J m rest) F t)
    (hleave : ∀ m t, J m [] t →
      wp (exit cb) Q E ({ t.1 with machines := t.1.machines.erase name }, t.2))
    (hraise : ∀ e t, F e t → wp (exit cb) (fun _ => E e) E t) :
    wp (removeMachine cb name) Q E (q, w) := by
  simp only [removeMachine, wp_bind, wp_queue]
  cases hm : q.machines.get? name with
  | none => exact hunknown hm
  | some m =>
    simp only [enter, wp_bind, wp_change, wp_ensuring]
    have hloop := wp_forEach (I := J m) (E := F) (f := fun j => do
        let q ← queue
        if (q.job j).machine = some m then
          destroyJob cb (q.job j).id (some "Machine removed.")
          free cb (q.job j).id) (fun j rest t _ ht => ?_) (henter m hm)
    · exact hloop.mono (fun _ t ht => hleave m t ht) hraise
    · simp only [wp_bind, wp_queue]
      split
      · next hjm => exact hsweep m j rest t ht hjm
      · next hjm => exact hskip m j rest t ht hjm

/-- While the jobs on a machine are destroyed, `rest` remains to be visited. -/
structure Sweeping (q : JobQueue) (m : ℕ) (rest : List ℕ) (q' : JobQueue) : Prop where
  job : q'.job = q.job
  machines : q'.machines = q.machines
  nodup : rest.Nodup
  known : ∀ j ∈ rest, q'.jobs.get? (q.job j).id = some j
  ids : ∀ id j, q'.jobs.get? id = some j → (q.job j).id = id
  values : q'.jobs.values = q.jobs.values.filter fun j => (q.job j).machine ≠ some m ∨ j ∈ rest

namespace Sweeping

variable {q' q'' : JobQueue} {m j : ℕ} {rest : List ℕ}

theorem start (h : ∀ id j, q.jobs.get? id = some j → (q.job j).id = id) (hjob : q'.job = q.job)
    (hjobs : q'.jobs = q.jobs) (hmachines : q'.machines = q.machines) :
    Sweeping q m q.jobs.values q' := by
  refine ⟨hjob, hmachines, ?_, fun i hi => ?_, ?_, ?_⟩
  · exact Dict.values_nodup fun id id' i hid hid' => (h id i hid).symm.trans (h id' i hid')
  · obtain ⟨id, hid⟩ := Dict.mem_values.mp hi
    rw [hjobs, h id i hid]
    exact hid
  · rw [hjobs]
    exact h
  · rw [hjobs, List.filter_eq_self.mpr]
    intro i hi
    simp [hi]

theorem skip (h : Sweeping q m (j :: rest) q') (hm : (q.job j).machine ≠ some m) :
    Sweeping q m rest q' := by
  refine ⟨h.job, h.machines, h.nodup.of_cons, fun i hi => h.known i (List.mem_cons_of_mem j hi),
    h.ids, h.values.trans (List.filter_congr fun i _ => ?_)⟩
  by_cases hij : i = j
  · subst hij
    simp [hm]
  · simp [hij]

theorem swept (h : Sweeping q m (j :: rest) q') (hm : (q.job j).machine = some m)
    (hjob : q''.job = q'.job) (hmachines : q''.machines = q'.machines)
    (hjobs : q''.jobs = q'.jobs.erase (q.job j).id) : Sweeping q m rest q'' := by
  obtain ⟨hnotin, hnodup⟩ := List.nodup_cons.mp h.nodup
  have hj := h.known j List.mem_cons_self
  refine ⟨hjob.trans h.job, hmachines.trans h.machines, hnodup, fun i hi => ?_, fun id i hi => ?_,
    ?_⟩
  · have hi' := h.known i (List.mem_cons_of_mem j hi)
    rw [hjobs, Dict.get?_erase, if_neg]
    · exact hi'
    · intro he
      rw [← he, hj] at hi'
      exact hnotin (Option.some.inj hi' ▸ hi)
  · rw [hjobs] at hi
    exact h.ids id i (Dict.get?_of_erase hi)
  · rw [hjobs, Dict.values_erase hj fun id hid => (h.ids id j hid).symm, h.values,
      List.filter_filter]
    refine List.filter_congr fun i _ => ?_
    by_cases hij : i = j
    · subst hij
      simp [hm, hnotin]
    · simp [hij]

theorem left (h : Sweeping q m [] q') (hj : j ∈ q'.jobs.values) : (q'.job j).machine ≠ some m := by
  rw [h.values] at hj
  have hm := of_decide_eq_true (List.mem_filter.mp hj).2
  rw [h.job]
  exact hm.resolve_right List.not_mem_nil

end Sweeping

theorem removeMachine_sweeps {name : String} {Q : Unit → JobQueue × ω → Prop}
    {F : Error → JobQueue × ω → Prop} {K : ℕ → JobQueue × ω → Prop}
    (hids : ∀ id j, q.jobs.get? id = some j → (q.job j).id = id)
    (hunknown : q.machines.get? name = none → E .keyError (q, w))
    (henter : ∀ m, q.machines.get? name = some m → K m ({ q with postpone := q.postpone + 1 }, w))
    (hsweep : ∀ m j rest t, q.machines.get? name = some m → Sweeping q m (j :: rest) t.1 →
      K m t → (q.job j).machine = some m →
      wp (destroyJob cb (q.job j).id (some "Machine removed.") >>= fun _ => free cb (q.job j).id)
        (fun _ t' => K m t' ∧ t'.1.job = t.1.job ∧ t'.1.machines = t.1.machines ∧
          t'.1.jobs = t.1.jobs.erase (q.job j).id) F t)
    (hleave : ∀ m t, q.machines.get? name = some m → Sweeping q m [] t.1 → K m t →
      wp (exit cb) Q E ({ t.1 with machines := t.1.machines.erase name }, t.2))
    (hraise : ∀ e t, F e t → wp (exit cb) (fun _ => E e) E t) :
    wp (removeMachine cb name) Q E (q, w) := by
  apply removeMachine_wp (F := F)
    (J := fun m rest t => q.machines.get? name = some m ∧ Sweeping q m rest t.1 ∧ K m t) hunknown
  · exact fun m hm => ⟨hm, .start hids rfl rfl rfl, henter m hm⟩
  · intro m j rest t ht hj
    obtain ⟨hm, hs, hK⟩ := ht
    rw [hs.job] at hj
    exact ⟨hm, hs.skip hj, hK⟩
  · intro m j rest t ht hj
    obtain ⟨hm, hs, hK⟩ := ht
    rw [hs.job] at hj ⊢
    apply (hsweep m j rest t hm hs hK hj).mono _ fun _ _ he => he
    intro _ t' ht'
    obtain ⟨hK', hjob, hmachines, hjobs⟩ := ht'
    exact ⟨hm, hs.swept hj hjob hmachines hjobs, hK'⟩
  · exact fun m t ht => hleave m t ht.1 ht.2.1 ht.2.2
  · exact hraise

/-- An invariant that also survives the offer of a pending job to the machines, and its
cancellation. -/
structure EnqueueRules (cb : Callbacks ω) (I : JobQueue × ω → Prop)
    (E : Error → JobQueue × ω → Prop) : Prop extends ProcessRules cb I E where
  known : ∀ q w j, I (q, w) → (q.job j).pending = true → q.jobs.get? (q.job j).id = some j
  offer : ∀ q w j m, I (q, w) → (q.job j).pending = true → m ∈ q.machines.values →
    (q.machine m).allocator.allocPossible (q.job j).request = .ok true →
    I (q.setQueue m ((q.machine m).queue ++ [j]), w)
  refused : ∀ q w j e, I (q, w) → (q.job j).pending = true → E e (q, w)
  cancel : ∀ q w j reason, I (q, w) → (q.job j).pending = true →
    wp (cb.onCancel (q.job j).id reason)
      (fun _ w' => I ((q.withdrawn j).dropped (q.job j).id, w'))
      (fun e w' => E e (q.withdrawn j, w')) w

theorem mem_candidates {j m : ℕ} (h : m ∈ q.candidates j) : m ∈ q.machines.values := by
  unfold candidates at h
  split at h
  · rw [Option.mem_toList] at h
    exact Dict.mem_values.mpr ⟨_, h⟩
  · cases h
  · exact List.mem_of_mem_filter h

theorem offer_wp (h : EnqueueRules cb I E) {j : ℕ} {machines : List ℕ} (hs : I (q, w))
    (hp : (q.job j).pending = true) (hm : ∀ m ∈ machines, m ∈ q.machines.values) :
    wp (offer j machines) (fun _ t => I t ∧ t.1.job = q.job) E (q, w) := by
  induction machines generalizing q with
  | nil => exact ⟨hs, rfl⟩
  | cons m machines ih =>
    have hm' : ∀ n ∈ machines, n ∈ q.machines.values := fun n hn =>
      hm n (List.mem_cons_of_mem m hn)
    simp only [JobQueue.offer, wp_bind, wp_queue]
    cases hposs : (q.machine m).allocator.allocPossible (q.job j).request with
    | error e => exact h.refused q w j e hs hp
    | ok possible =>
      rw [wp_ofExcept_ok]
      cases possible with
      | false => exact ih hs hp hm'
      | true =>
        simp only [if_true, wp_bind, wp_change]
        have hI := h.offer q w j m hs hp (hm m List.mem_cons_self) hposs
        apply (ih hI hp hm').mono _ fun _ _ he => he
        exact fun _ t ht => ht

theorem allocator_setQueue (m n : ℕ) (l : List ℕ) :
    ((q.setQueue m l).machine n).allocator = (q.machine n).allocator := by
  rw [machine_setQueue]
  split <;> rfl

theorem offer_returns {j : ℕ} {machines : List ℕ} (h : ∀ m ∈ machines, ∃ possible,
      (q.machine m).allocator.allocPossible (q.job j).request = .ok possible) :
    wp (offer j machines : Call ω Bool) (fun _ _ => True) (fun _ _ => False) (q, w) := by
  induction machines generalizing q with
  | nil => trivial
  | cons m machines ih =>
    obtain ⟨possible, hposs⟩ := h m List.mem_cons_self
    have hrest := fun n hn => h n (List.mem_cons_of_mem m hn)
    simp only [JobQueue.offer, wp_bind, wp_queue, hposs, wp_ofExcept_ok]
    cases possible with
    | false => exact ih hrest
    | true =>
      simp only [if_true, wp_bind, wp_change]
      have hqueued : ∀ n ∈ machines, ∃ possible,
          ((q.setQueue m ((q.machine m).queue ++ [j])).machine n).allocator.allocPossible
            (q.job j).request = .ok possible := by
        intro n hn
        rw [allocator_setQueue]
        exact hrest n hn
      exact (ih (q := q.setQueue m ((q.machine m).queue ++ [j])) hqueued).mono
        (fun _ _ _ => trivial) fun _ _ hf => hf

theorem offer_raises {j : ℕ} {machines : List ℕ} {Q : Bool → JobQueue × ω → Prop}
    {I : JobQueue → Prop} (h : ∃ m ∈ machines, ∃ e,
      (q.machine m).allocator.allocPossible (q.job j).request = .error e) (hI : I q)
    (hqueue : ∀ q m l, I q → I (q.setQueue m l)) (hE : ∀ e q, I q → E e (q, w)) :
    wp (offer j machines) Q E (q, w) := by
  induction machines generalizing q Q with
  | nil =>
    obtain ⟨m, hm, -⟩ := h
    cases hm
  | cons n machines ih =>
    obtain ⟨m, hm, e, hposs⟩ := h
    simp only [JobQueue.offer, wp_bind, wp_queue]
    cases hn : (q.machine n).allocator.allocPossible (q.job j).request with
    | error e => exact hE e q hI
    | ok possible =>
      have hne : m ≠ n := by
        rintro rfl
        rw [hn] at hposs
        cases hposs
      have hm' := (List.mem_cons.mp hm).resolve_left hne
      rw [wp_ofExcept_ok]
      cases possible with
      | false => exact ih ⟨m, hm', e, hposs⟩ hI
      | true =>
        simp only [if_true, wp_bind, wp_change]
        apply ih (q := q.setQueue n ((q.machine n).queue ++ [j])) _ (hqueue q n _ hI)
        refine ⟨m, hm', e, ?_⟩
        rw [allocator_setQueue]
        exact hposs

theorem enqueueJob_offered (h : ProcessRules cb I E) {j : ℕ} (hp : (q.job j).pending = true)
    (hpostponed : q.postpone ≠ 0 → I (q, w))
    (hhash : ∀ e, hashable (q.job j).machineName = .error e → E e (q, w))
    (hoffer : wp (offer j (q.candidates j)) (fun _ t => I t ∧ t.1.job = q.job) E (q, w))
    (hknown : ∀ q w, I (q, w) → (q.job j).pending = true → q.jobs.get? (q.job j).id = some j)
    (hcancel : ∀ q w reason, I (q, w) → (q.job j).pending = true →
      wp (cb.onCancel (q.job j).id reason)
        (fun _ w' => I ((q.withdrawn j).dropped (q.job j).id, w'))
        (fun e w' => E e (q.withdrawn j, w')) w) :
    wp (enqueueJob cb j) (fun _ => I) E (q, w) := by
  simp only [enqueueJob, wp_bind, wp_queue]
  split
  · next hpost => exact hpostponed hpost
  · rw [wp_bind]
    cases hname : hashable (q.job j).machineName with
    | error e => exact hhash e hname
    | ok _ =>
    rw [wp_ofExcept_ok, wp_bind]
    apply hoffer.mono _ fun _ _ he => he
    rintro found ⟨q', w'⟩ ⟨hI, hjob⟩
    dsimp only at hjob
    rw [← hjob] at hp ⊢
    cases found with
    | true => exact processQueue_wp h hI
    | false =>
      have hget := hknown q' w' hI hp
      rw [if_pos (by simp), wp_bind]
      have hdestroy : wp (destroyJob cb (q'.job j).id (some "No suitable machines available."))
          (fun _ => I) E (q', w') := by
        apply destroyJob_wp fun t ht => processQueue_wp h ht
        · intro hn
          rw [hget] at hn
          cases hn
        · intro i hi _
          obtain rfl := Option.some.inj (hget.symm.trans hi)
          exact hcancel q' w' _ hI hp
        · intro i hi hp'
          obtain rfl := Option.some.inj (hget.symm.trans hi)
          rw [hp] at hp'
          cases hp'
      apply hdestroy.mono _ fun _ _ he => he
      intro _ t ht
      exact processQueue_wp h ht

theorem enqueueJob_wp (h : EnqueueRules cb I E) {j : ℕ} (hs : I (q, w))
    (hp : (q.job j).pending = true) : wp (enqueueJob cb j) (fun _ => I) E (q, w) :=
  enqueueJob_offered h.toProcessRules hp (fun _ => hs) (fun e _ => h.refused q w j e hs hp)
    (offer_wp h hs hp fun _ hm => mem_candidates hm) (fun q w => h.known q w j)
    fun q w => h.cancel q w j

/-- The job queue does not enter such a job in its table: both a machine and tags are given, or
tags that make no set. -/
def Barred (machine : Option MachineName) (tags : Option Tags) : Prop :=
  (machine.isSome ∧ tags.isSome) ∨ ∃ message, tags = some (.refused message)

theorem jobTags_error_iff {machine : Option MachineName} {tags : Option Tags} :
    (∃ e, jobTags machine tags = .error e) ↔ Barred machine tags := by
  rcases machine with - | name <;> rcases tags with - | tags | message <;>
    simp [jobTags, Tags.set, Barred]

theorem regenerateQueues_wp (h : EnqueueRules cb I E)
    (hclear : ∀ q w, I (q, w) → I (q.cleared, w)) (hmut : ∀ t, I t → E mutated t)
    (hs : I (q, w)) : wp (regenerateQueues cb) (fun _ => I) E (q, w) := by
  have hloop (jobs : List ℕ) (q : JobQueue) (w : ω) (hs : I (q, w)) :
      wp (regenerateLoop cb jobs) (fun _ => I) E (q, w) := by
    induction jobs generalizing q w with
    | nil => exact hs
    | cons j rest ih =>
      have hrest (q₀ : JobQueue) (t : JobQueue × ω) (ht : I t) :
          wp (if t.1.jobs.keys ≠ q₀.jobs.keys ∧ rest ≠ [] then raise mutated
            else regenerateLoop cb rest) (fun _ => I) E t := by
        split
        · exact hmut t ht
        · exact ih t.1 t.2 ht
      simp only [regenerateLoop, wp_bind, wp_queue]
      cases hp : (q.job j).pending with
      | false => exact hrest q (q, w) hs
      | true =>
        rw [if_pos rfl, wp_bind]
        apply (enqueueJob_wp h hs hp).mono _ fun _ _ he => he
        exact fun _ t ht => hrest q t ht
  simp only [regenerateQueues, wp_bind, wp_queue]
  split
  · exact hs
  · rw [wp_bind, wp_change]
    exact hloop _ _ _ (hclear q w hs)

theorem checkFree_wp (h : ProcessRules cb I E)
    (hcheck : ∀ q w m, I (q, w) → m ∈ q.machines.values →
      wp Allocator.checkFree (fun _ a => I (q.setAllocator m a, w))
        (fun e a => E e (q.setAllocator m a, w)) (q.machine m).allocator)
    (hs : I (q, w)) : wp (checkFree cb) (fun _ => I) E (q, w) := by
  have hloop (machines : List ℕ) (q : JobQueue) (hs : I (q, w))
      (hm : ∀ m ∈ machines, m ∈ q.machines.values) :
      wp (checkFreeMachines machines) (fun _ => I) E (q, w) := by
    induction machines generalizing q with
    | nil => exact hs
    | cons m machines ih =>
      simp only [checkFreeMachines, wp_bind, wp_onAllocator]
      apply (hcheck q w m hs (hm m List.mem_cons_self)).mono _ fun _ _ he => he
      intro _ a hI
      apply (ih _ hI fun n hn => hm n (List.mem_cons_of_mem m hn)).mono _ fun _ _ he => he
      exact fun _ t ht => ht
  simp only [checkFree, wp_bind, wp_queue]
  split
  · exact hs
  · rw [wp_bind]
    apply (hloop _ q hs fun m hm => hm).mono _ fun _ _ he => he
    intro changed t ht
    cases changed with
    | false => exact ht
    | true => exact processQueue_wp h ht

end SpallocServer.JobQueue
