import SpallocServer.JobQueue.Service

namespace SpallocServer.JobQueue

open Foundation Prog Allocator

/-- What has become of a job that was pending, with the `new` events since. -/
inductive Fate (q : JobQueue) (j : ℕ) (new : List Event) (q' : JobQueue) : Prop where
  | waiting (pending : (q'.job j).pending = true) (history : history new (q.job j).id = [])
  | started (pending : (q'.job j).pending = false) (history : history new (q.job j).id = [.allocate])
      (eligible : ∃ m, q.Eligible j m)
  | cancelled (pending : (q'.job j).pending = false)
      (history : history new (q.job j).id = [.cancel]) (gone : q'.jobs.get? (q.job j).id = none)
      (eligible : ∀ m, ¬q.Eligible j m)

/-- The work on the queues since a state, and what was said of the jobs that were pending. -/
structure Tracked (q : JobQueue) (log : List Event) (u : JobQueue × List Event) : Prop where
  linked : u.1.Linked
  sturdy : ∀ m ∈ u.1.machines.values, (u.1.machine m).allocator.Sturdy
  onward : Onward q u.1
  id : ∀ j, (u.1.job j).id = (q.job j).id
  fate : ∃ new, u.2 = log ++ new ∧ ∀ j, (q.job j).pending = true → Fate q j new u.1

/-- No pending job is refused for its arguments. -/
def Accepting (q : JobQueue) : Prop := ∀ j, (q.job j).pending = true → ∀ e, ¬q.Refuses j e

variable {q q' : JobQueue} {log log' : List Event} {e : Event} {i j m id : ℕ}

theorem Tracked.congr (h : Tracked q log (q', log')) {q'' : JobQueue} (hs : SameBooks q' q'')
    (hf : Fixed q' q'')
    (hr : ∀ m ∈ q'.machines.values, (q''.machine m).allocator.Sturdy) :
    Tracked q log (q'', log') := by
  obtain ⟨new, hlog, hfate⟩ := h.fate
  refine ⟨h.linked.congr hs, fun m hm => hr m (hs.mem.mp hm), h.onward.trans ⟨hf, fun i hi => ?_⟩,
    fun i => ?_, new, hlog, fun i hi => ?_⟩
  · rwa [hs.job] at hi
  · dsimp only
    rw [hs.job]
    exact h.id i
  · have hi' := hfate i hi
    cases hi' with
    | waiting hp hh => exact .waiting (by rw [hs.job]; exact hp) hh
    | started hp hh he => exact .started (by rw [hs.job]; exact hp) hh he
    | cancelled hp hh hn he =>
      exact .cancelled (by rw [hs.job]; exact hp) hh (by rw [hs.jobs]; exact hn) he

theorem Fate.other {new : List Event} {q'' : JobQueue} (h : Fate q i new q')
    (hid : e.id ≠ (q.job i).id) (hp : (q''.job i).pending = (q'.job i).pending)
    (hn : q'.jobs.get? (q.job i).id = none → q''.jobs.get? (q.job i).id = none) :
    Fate q i (new ++ [e]) q'' := by
  have hhist : history (new ++ [e]) (q.job i).id = history new (q.job i).id := by
    rw [history_append, if_neg hid]
  cases h with
  | waiting hp' hh => exact .waiting (hp.trans hp') (hhist.trans hh)
  | started hp' hh he => exact .started (hp.trans hp') (hhist.trans hh) he
  | cancelled hp' hh hn' he => exact .cancelled (hp.trans hp') (hhist.trans hh) (hn hn') he

theorem Fate.of_pending {new : List Event} (h : Fate q j new q')
    (hp : (q'.job j).pending = true) : history new (q.job j).id = [] := by
  cases h with
  | waiting _ hh => exact hh
  | started hp' _ _ =>
    rw [hp] at hp'
    cases hp'
  | cancelled hp' _ _ _ =>
    rw [hp] at hp'
    cases hp'

theorem Linked.eq_of_id (h : q.Linked) (hi : (q.job i).pending = true)
    (hj : (q.job j).pending = true) (hid : (q.job i).id = (q.job j).id) : i = j := by
  have hi' := h.known i hi
  rw [hid, h.known j hj] at hi'
  exact (Option.some.inj hi').symm

theorem Tracked.placed {l : List ℕ} {al : Allocation} {b : Allocator} (hq : q.Linked)
    (h : Tracked q log (q', log')) (hh : q'.Head m j l) (hp : (q'.job j).pending = true)
    (he : q'.Eligible j m) (hr : Registers (q'.machine m).allocator (some al) b)
    (hb : b.Sturdy) (hid : e.id = (q'.job j).id) (hk : e.kind = .allocate) :
    Tracked q log ((q'.setAllocator m b).placed j m al.id, log' ++ [e]) := by
  obtain ⟨new, hlog, hfate⟩ := h.fate
  have hf := (fixed_setAllocator hr.setup).trans (fixed_placed (q'.setAllocator m b) j m al.id)
  have hpj := h.onward.pending j hp
  have hjob (i : ℕ) := job_placed (q'.setAllocator m b) i j m al.id
  refine ⟨h.linked.placed_new hp hh.machine hr, fun n hn => ?_,
    h.onward.trans ⟨hf, fun i hi => (pending_placed hi).2⟩, fun i => ?_, new ++ [e], ?_,
    fun i hi => ?_⟩
  · change ((q'.setAllocator m b).machine n).allocator.Sturdy
    rw [machine_setAllocator]
    split
    · exact hb
    · exact h.sturdy n hn
  · dsimp only
    rw [hjob, ← h.id i]
    split <;> rfl
  · have hlog' : log' = log ++ new := hlog
    dsimp only
    rw [hlog', List.append_assoc]
  · dsimp only
    by_cases hij : i = j
    · subst hij
      refine .started ?_ ?_ ⟨m, h.onward.eligible.mp he⟩
      · rw [hjob, if_pos rfl]
      · rw [history_append, hid, h.id i, if_pos rfl, (hfate i hpj).of_pending hp, hk]
        rfl
    · apply (hfate i hi).other
      · rw [hid, h.id j]
        exact fun hne => hij (hq.eq_of_id hpj hi hne).symm
      · rw [hjob, if_neg hij]
        rfl
      · exact fun hn => hn

theorem Tracked.cancelled (hq : q.Linked) (h : Tracked q log (q', log'))
    (hp : (q'.job j).pending = true) (hno : ∀ m, ¬q'.Eligible j m) (hid : e.id = (q'.job j).id)
    (hk : e.kind = .cancel) :
    Tracked q log ((q'.withdrawn j).dropped (q'.job j).id, log' ++ [e]) := by
  obtain ⟨new, hlog, hfate⟩ := h.fate
  have hf := (fixed_withdrawn q' j).trans (fixed_dropped (q'.withdrawn j) (q'.job j).id)
  have hpj := h.onward.pending j hp
  have hjob (i : ℕ) : ((q'.withdrawn j).dropped (q'.job j).id).job i =
      if i = j then { q'.job i with pending := false } else q'.job i := job_withdrawn q' i j
  have hget (k : ℕ) (hn : q'.jobs.get? k = none) :
      ((q'.withdrawn j).dropped (q'.job j).id).jobs.get? k = none := by
    change (q'.jobs.erase (q'.job j).id).get? k = none
    rw [Dict.get?_erase, hn, ite_self]
  refine ⟨h.linked.cancelled hp, h.sturdy,
    h.onward.trans ⟨hf, fun i hi => (pending_withdrawn hi).2⟩, fun i => ?_, new ++ [e], ?_,
    fun i hi => ?_⟩
  · dsimp only
    rw [hjob, ← h.id i]
    split <;> rfl
  · have hlog' : log' = log ++ new := hlog
    dsimp only
    rw [hlog', List.append_assoc]
  · dsimp only
    by_cases hij : i = j
    · subst hij
      refine .cancelled ?_ ?_ ?_ fun m he => hno m (h.onward.eligible.mpr he)
      · rw [hjob, if_pos rfl]
      · rw [history_append, hid, h.id i, if_pos rfl, (hfate i hpj).of_pending hp, hk]
        rfl
      · rw [← h.id i]
        exact Dict.get?_erase_self _ _
    · apply (hfate i hi).other
      · rw [hid, h.id j]
        exact fun hne => hij (hq.eq_of_id hpj hi hne).symm
      · rw [hjob, if_neg hij]
      · exact hget _

theorem tracked_rules (hq : q.Linked) (ha : q.Accepting) (log : List Event)
    (E : Error → JobQueue × List Event → Prop) : LineRules recorder (Tracked q log) E where
  alloc q' log' m j l rest h hlined hh hp := by
    obtain ⟨-, he⟩ := hlined.queued m hh.machine j (hh.queue ▸ List.mem_cons_self) hp
    apply ((alloc_registers _ _).and (alloc_sturdy (h.sturdy m hh.machine)
      (good_of_possible he.2))).mono _ fun _ _ hf => hf.2.elim
    intro res b hb
    obtain ⟨hr, hb, -⟩ := hb
    cases res with
    | none =>
      apply h.congr (sameBooks_setAllocator (hr.none rfl)) (fixed_setAllocator hr.setup)
      intro n hn
      rw [machine_setAllocator]
      split
      · exact hb
      · exact h.sturdy n hn
    | some al => exact h.placed hq hh hp he hr hb rfl rfl
  queue q' log' m l h := by
    apply h.congr (sameBooks_setQueue m l) (fixed_setQueue q' m l)
    intro n hn
    rw [machine_setQueue]
    split
    · exact h.sturdy n hn
    · exact h.sturdy n hn
  known q' log' j h hp := by
    have hj := h.linked.known j hp
    exact ⟨hj, (h.linked.ids _ j hj).2⟩
  names q' log' h := Dict.values_nodup fun _ _ _ hn hn' =>
    (h.linked.names _ _ hn).1.symm.trans (h.linked.names _ _ hn').1
  refused q' log' j e h hp he :=
    absurd (h.onward.toFixed.refuses.mp he) (ha j (h.onward.pending j hp) e)
  cancel q' log' j h hp hno := h.cancelled hq hp hno rfl rfl

/-- A call that regenerates the queues outside of atomic blocks, with a name that is new for
`add_machine` and known for the others. -/
def Regenerates (q : JobQueue) : JobQueueCall → Prop
  | .addMachine name _ _ _ _ _ => q.machines.get? name = none
  | .modifyMachine name _ _ _ => (q.machines.get? name).isSome
  | .removeMachine name => (q.machines.get? name).isSome
  | .exit => 0 < q.postpone
  | _ => False

/-- The machines as the call leaves them. -/
def altered (q : JobQueue) : JobQueueCall → JobQueue
  | .addMachine name width height tags deadBoards deadLinks =>
    q.added name width height tags deadBoards deadLinks
  | .modifyMachine name tags deadBoards deadLinks =>
    match q.machines.get? name with
    | none => q
    | some m => q.setMachine m ((q.machine m).modified tags deadBoards deadLinks)
  | .removeMachine name => { q with machines := q.machines.erase name }
  | .exit => { q with postpone := q.postpone - 1 }
  | _ => q

def remaining (q : JobQueue) : JobQueueCall → List ℕ
  | .removeMachine name =>
    match q.machines.get? name with
    | none => q.jobs.values
    | some m => q.jobs.values.filter fun j => (q.job j).machine ≠ some m
  | _ => q.jobs.values

/-- The jobs and machines when a call comes to `_regenerate_queues`. -/
structure Before (s : JobQueue × List Event) (call : JobQueueCall) (v : JobQueue × List Event) :
    Prop where
  linked : v.1.Linked
  serviceable : v.1.Serviceable Sturdy
  fixed : Fixed (s.1.altered call) v.1
  job : v.1.job = s.1.job
  jobs : v.1.jobs.values = s.1.remaining call
  log : ∃ new, v.2 = s.2 ++ new ∧
    ∀ j, (s.1.job j).pending = true → history new (s.1.job j).id = []

variable {s v : JobQueue × List Event} {call : JobQueueCall}

theorem exec_regenerates {Q : Unit → JobQueue × List Event → Prop}
    {E : Error → JobQueue × List Event → Prop} (h : Serving (fun _ => True) s)
    (hcalm : (s.1.altered call).Calm)
    (hr : s.1.Regenerates call)
    (hnext : ∀ v, Before s call v → wp (regenerateQueues recorder) Q E v) :
    wp (call.exec recorder) Q E s := by
  obtain ⟨q, log⟩ := s
  obtain ⟨⟨hl, hdepth⟩, hs⟩ := h
  have hsilent : ∃ new, log = log ++ new ∧
      ∀ j, (q.job j).pending = true → history new (q.job j).id = [] :=
    ⟨[], (List.append_nil log).symm, fun _ _ => rfl⟩
  cases call with
  | addMachine name width height tags deadBoards deadLinks =>
    have hnone : q.machines.get? name = none := hr
    change wp (addMachine recorder name width height tags deadBoards deadLinks) _ _ _
    simp only [addMachine, wp_bind, wp_queue]
    rw [if_neg (by simp [hnone]), wp_bind, wp_change]
    exact hnext _ ⟨hl.added hnone _ _ _ _ _, hcalm.serviceable (hs.added hl hnone _ _ _ trivial),
      (Onward.refl _).toFixed, rfl, rfl, hsilent⟩
  | modifyMachine name tags deadBoards deadLinks =>
    change wp (modifyMachine recorder name tags deadBoards deadLinks) _ _ _
    simp only [modifyMachine, wp_bind, wp_queue]
    obtain ⟨m, hm⟩ := Option.isSome_iff_exists.mp (show (q.machines.get? name).isSome from hr)
    rw [hm]
    dsimp only
    rw [wp_bind, wp_change]
    have haltered : q.altered (.modifyMachine name tags deadBoards deadLinks) =
        q.setMachine m ((q.machine m).modified tags deadBoards deadLinks) := by
      dsimp only [altered]
      rw [hm]
    rw [haltered] at hcalm
    refine hnext _ ⟨hl.congr (sameBooks_modified m _ _ _),
      hcalm.serviceable (hs.modified _ _ _ trivial), ?_, rfl, rfl, hsilent⟩
    rw [haltered]
    exact (Onward.refl _).toFixed
  | removeMachine name =>
    obtain ⟨m, hm⟩ := Option.isSome_iff_exists.mp (show (q.machines.get? name).isSome from hr)
    change wp (removeMachine recorder name) _ _ _
    have hsustained : Sustained (fun _ => True) q.machines q.postpone (q, log) :=
      ⟨⟨hl, rfl, rfl⟩, hs⟩
    apply removeMachine_serves stable_all (L := fun log' => ∃ new, log' = log ++ new ∧
      ∀ j, (q.job j).pending = true → history new (q.job j).id = []) hsustained hdepth hm hsilent
    · intro j hj hjm log' hlog
      obtain ⟨new, hlog, hnew⟩ := hlog
      refine ⟨new ++ [.freed (q.job j).id (some "Machine removed.")], ?_, fun i hi => ?_⟩
      · dsimp only
        rw [hlog, List.append_assoc]
      · rw [history_append, if_neg, hnew i hi]
        intro he
        have hid : (q.job j).id = (q.job i).id := he
        have hji := hl.get hj
        rw [hid, hl.known i hi] at hji
        have hjm' : (q.job j).machine = some m := hjm
        rw [← Option.some.inj hji, (hl.unplaced i hi).1] at hjm'
        cases hjm'
    · intro t ht hlog hf hjob hvalues hkept
      refine hnext _ ⟨ht.linked, ht.serviceable.mono fun n hn => ?_, hf, hjob, ?_, hlog⟩
      · have hin : n ∈ (q.machines.erase name).values := by
          rw [← ht.machines]
          exact hn
        have hne : n ≠ m := by
          rintro rfl
          obtain ⟨name', hname'⟩ := Dict.mem_values.mp hin
          have hname : name = name' := (hl.names name n hm).1.symm.trans
            (hl.names name' n (Dict.get?_of_erase hname')).1
          rw [hname, Dict.get?_erase_self] at hname'
          cases hname'
        rw [hkept n hne]
        exact (hcalm n hin).sturdy
      · dsimp only [remaining]
        rw [hm]
        exact hvalues
  | exit =>
    change wp (exit recorder) _ _ _
    simp only [exit, wp_bind, wp_change]
    exact hnext _ ⟨hl.congr ⟨rfl, rfl, rfl, fun _ => rfl, rfl, fun _ => rfl, fun _ => rfl,
      fun _ => rfl, fun _ => rfl⟩, hcalm.serviceable (hs.setPostpone _),
      (Onward.refl _).toFixed, rfl, rfl, hsilent⟩
  | createJob _ _ _ _ => exact absurd hr id
  | destroyJob _ _ => exact absurd hr id
  | free _ => exact absurd hr id
  | checkFree => exact absurd hr id
  | moveMachineToEnd _ => exact absurd hr id
  | enter => exact absurd hr id

/-- The queues are as they should be after a call: pending jobs that no machine can fit are gone,
each with one callback, and the others are queued once on each of the machines that can fit them,
in the order in which they were created. -/
structure Regenerated (s : JobQueue × List Event) (call : JobQueueCall)
    (s' : JobQueue × List Event) : Prop where
  cancelled : ∀ j ∈ s.1.jobs.values, (s.1.job j).pending = true →
    (∀ m, ¬(s.1.altered call).Eligible j m) → s'.1.jobs.get? (s.1.job j).id = none ∧
      ∃ new, s'.2 = s.2 ++ new ∧ history new (s.1.job j).id = [.cancel]
  queued : ∀ j ∈ s'.1.jobs.values, (s'.1.job j).pending = true →
    ∀ m ∈ s'.1.machines.values, (s'.1.Eligible j m → (s'.1.machine m).queue.count j = 1) ∧
      (¬s'.1.Eligible j m → j ∉ (s'.1.machine m).queue)
  sorted : ∀ m ∈ s'.1.machines.values,
    ((s'.1.machine m).queue.filter fun j => (s'.1.job j).pending).Pairwise (· < ·)

/-- All pending jobs that remain, but the last one of `_jobs`, still have a machine that can fit
them. -/
def Placeable (q : JobQueue) (call : JobQueueCall) : Prop :=
  (q.altered call).postpone = 0 → ∀ j ∈ (q.remaining call).dropLast, (q.job j).pending = true →
    ∃ m, (q.altered call).Eligible j m

theorem Lined.pairwise (h : q.Lined []) (hm : m ∈ q.machines.values) :
    ((q.machine m).queue.filter fun j => (q.job j).pending).Pairwise (· < ·) := by
  rw [List.pairwise_filter]
  exact h.sorted m hm

theorem Lined.count (h : q.Lined []) (hm : m ∈ q.machines.values) (hp : (q.job j).pending = true)
    (he : q.Eligible j m) : (q.machine m).queue.count j = 1 := by
  have hin := h.offered m hm j hp List.not_mem_nil he
  rw [← List.count_filter (p := fun j => (q.job j).pending) hp]
  exact List.count_eq_one_of_mem ((h.pairwise hm).imp Nat.ne_of_lt)
    (List.mem_filter.mpr ⟨hin, hp⟩)

theorem Before.eligible (h : Before s call v) :
    v.1.Eligible j m ↔ (s.1.altered call).Eligible j m := h.fixed.eligible

theorem Before.accepting (h : Before s call v) (ha : (s.1.altered call).Accepting)
    (hjob : (s.1.altered call).job = s.1.job) : v.1.Accepting := by
  intro j hj e he
  rw [h.job, ← hjob] at hj
  exact ha j hj e (h.fixed.refuses.mp he)

theorem job_altered (q : JobQueue) (call : JobQueueCall) : (q.altered call).job = q.job := by
  cases call with
  | modifyMachine name tags deadBoards deadLinks =>
    dsimp only [altered]
    cases q.machines.get? name with
    | none => rfl
    | some m => rfl
  | _ => rfl

theorem Serviceable.tracked (hl : q.Linked) (h : q.Serviceable Sturdy) (log : List Event) :
    Tracked q log (q.cleared, log) :=
  ⟨hl.congr sameBooks_cleared, h.cleared.sound, onward_cleared q, fun _ => rfl, [],
    (List.append_nil log).symm, fun _ hj => .waiting hj rfl⟩

theorem regenerated_of_tracked {u : JobQueue × List Event}
    (h : Before s call v) (ht : Tracked v.1 v.2 u) (hr : Realigned v.1 v.1.jobs.values u.1) :
    Regenerated s call u where
  cancelled j hj hp hno := by
    obtain ⟨new, hlog, hfate⟩ := ht.fate
    obtain ⟨old, hold, hsilent⟩ := h.log
    have hno' (m : ℕ) : ¬v.1.Eligible j m := fun he => hno m (h.eligible.mp he)
    have hpv : (v.1.job j).pending = true := by
      rw [h.job]
      exact hp
    have hjv := hfate j hpv
    cases hjv with
    | waiting hpu _ =>
      obtain ⟨m, hm⟩ := hr.suited j (h.linked.mem hpv) hpu
      exact absurd (ht.onward.eligible.mp hm) (hno' m)
    | started _ _ he =>
      obtain ⟨m, hm⟩ := he
      exact absurd hm (hno' m)
    | cancelled _ hh hn _ =>
      rw [h.job] at hh hn
      refine ⟨hn, old ++ new, ?_, ?_⟩
      · rw [hlog, hold, List.append_assoc]
      · unfold history at hh ⊢
        have hsilent' := hsilent j hp
        unfold history at hsilent'
        rw [List.filter_append, List.map_append, hsilent', hh]
        rfl
  queued j hj hp m hm := by
    refine ⟨fun he => hr.lined.count hm hp he, fun hne hin => ?_⟩
    exact hne (hr.lined.queued m hm j hin hp).2
  sorted m hm := hr.lined.pairwise hm

/-- Where the arguments of the pending jobs are accepted, regenerating the queues is complete if and
only if no pending job before the last entry of `_jobs` has to be cancelled. -/
theorem regenerated_iff {c : Schedule.Setup}
    (h : ((system recorder c []).restrict Fair).Reachable s) (hr : s.1.Regenerates call)
    (hcalm : (s.1.altered call).Calm) (ha : (s.1.altered call).Accepting) :
    (∃ s', (call.exec recorder).run s = (.ok (), s') ∧
        ((s.1.altered call).postpone = 0 → Regenerated s call s')) ↔
      s.1.Placeable call := by
  have hs := reachable_orderly recorder_quiet h
  constructor
  · rintro ⟨s', hrun, -⟩ hpost b hb hp
    by_contra hno
    rw [not_exists] at hno
    have hfalse : wp (call.exec recorder) (fun _ _ => False) (fun _ _ => True) s := by
      apply exec_regenerates hs hcalm hr
      intro v hbefore
      have hrules := tracked_rules hbefore.linked
        (hbefore.accepting ha (job_altered s.1 call)) v.2 fun _ _ => True
      have hpv : (v.1.job b).pending = true := by
        rw [hbefore.job]
        exact hp
      have hno' (m : ℕ) : ¬v.1.Eligible b m := fun he => hno m (hbefore.eligible.mp he)
      apply regenerateQueues_mutates (b := b) hrules ?_
        (hbefore.serviceable.tracked hbefore.linked v.2) (hbefore.fixed.postpone.trans hpost)
        (fun j hj => hbefore.linked.mem hj) hbefore.serviceable.sorted (hbefore.jobs ▸ hb)
        (Dict.mem_keys.mpr ⟨b, hbefore.linked.known b hpv⟩) hno'
      intro u hu hid
      obtain ⟨new, -, hfate⟩ := hu.fate
      have hb' := hfate b hpv
      cases hb' with
      | waiting hpu _ => exact ⟨hpu, hu.id b⟩
      | started _ _ he =>
        obtain ⟨m, hm⟩ := he
        exact absurd hm (hno' m)
      | cancelled _ _ hn _ => exact absurd hid (Dict.get?_eq_none.mp hn)
    exact wp_of_eq_ok hfalse hrun
  · intro hplace
    have hreturns : wp (call.exec recorder)
        (fun _ s' => (s.1.altered call).postpone = 0 → Regenerated s call s')
        (fun _ _ => False) s := by
      apply exec_regenerates hs hcalm hr
      intro v hbefore
      by_cases hpost : (s.1.altered call).postpone = 0
      · have hrules := tracked_rules hbefore.linked
          (hbefore.accepting ha (job_altered s.1 call)) v.2 fun _ _ => False
        refine (regenerateQueues_line hrules (hbefore.serviceable.tracked hbefore.linked v.2)
          (hbefore.fixed.postpone.trans hpost) (fun j hj => hbefore.linked.mem hj)
          hbefore.serviceable.sorted (.inr ?_)).mono ?_ fun _ _ he => he
        · intro j hj hp
          rw [hbefore.jobs] at hj
          rw [hbefore.job] at hp
          obtain ⟨m, hm⟩ := hplace hpost j hj hp
          exact ⟨m, hbefore.eligible.mpr hm⟩
        · intro _ u hu _
          exact regenerated_of_tracked hbefore hu.1 hu.2
      · simp only [regenerateQueues, wp_bind, wp_queue]
        rw [if_pos (hbefore.fixed.postpone.trans_ne hpost)]
        exact fun h0 => absurd h0 hpost
    obtain ⟨_, s', hrun, hs'⟩ := wp_returns hreturns
    exact ⟨s', hrun, hs'⟩

def crowded : List JobQueueCall :=
  [.addMachine "m" 1 1 none ∅ ∅, .createJob (some 1) none none { args := .one (.int 3) },
    .createJob (some 2) none none { args := .one (.int 3) }]

theorem reachable_crowded : ((system recorder Schedule.Setup.quiet []).restrict Fair).Reachable
    (runs recorder empty crowded) := by
  apply reachable_runs (.start rfl)
  exact ⟨trivial, trivial, trivial, trivial⟩

theorem accepting_of_empty {call : JobQueueCall} (hl : q.Linked)
    (h : (q.altered call).machines.values = [])
    (hn : ∀ j ∈ q.jobs.values, hashable (q.job j).machineName = .ok ()) :
    (q.altered call).Accepting := by
  intro j hj e he
  rw [job_altered] at hj
  obtain he | ⟨m, hm, -⟩ := he
  · rw [job_altered, hn j (hl.mem hj)] at he
    cases he
  · have hin := mem_candidates hm
    rw [h] at hin
    exact absurd hin List.not_mem_nil

/-- One board of a triad is allocated, and a job for three boards waits. -/
def oneTaken : List JobQueueCall :=
  [.addMachine "m" 1 1 none ∅ ∅, .createJob (some 1) none none { args := .nil },
    .createJob (some 2) none none { args := .one (.int 3) }]

def spareDying : JobQueueCall := .modifyMachine "m" none (some {(0, 0, 1)}) none

theorem calm_spareDying : ((runs recorder empty oneTaken).1.altered spareDying).Calm := by
  intro m hm
  have hvalues : ((runs recorder empty oneTaken).1.altered spareDying).machines.values = [0] := by
    decide +kernel
  rw [hvalues, List.mem_singleton] at hm
  rw [hm]
  have hnew : (Allocator.new 1 1 ∅ ∅ 1 0 (fun _ => 0) SetPop.least).Calm :=
    calm_new le_rfl le_rfl
  have hchanged := (hnew.unhurried.alloc (r := { args := .nil }) (Session.prudent_of_empty rfl)
    (.inl fun h => absurd rfl h)).reconfigured {(0, 0, 1)} ∅
  refine ⟨?_, guarded_of_empty (by decide +kernel)⟩
  with_unfolding_all exact hchanged

theorem regenerated_iff_spareDying :
    ∃ s', (spareDying.exec recorder).run (runs recorder empty oneTaken) = (.ok (), s') ∧
      (((runs recorder empty oneTaken).1.altered spareDying).postpone = 0 →
        Regenerated (runs recorder empty oneTaken) spareDying s') := by
  have h : ((system recorder Schedule.Setup.quiet []).restrict Fair).Reachable
      (runs recorder empty oneTaken) := by
    apply reachable_runs (.start rfl)
    exact ⟨trivial, trivial, trivial, trivial⟩
  have hl := (reachable_orderly recorder_quiet h).1.1
  have hr : (runs recorder empty oneTaken).1.Regenerates spareDying := by
    change ((runs recorder empty oneTaken).1.machines.get? "m").isSome = true
    decide +kernel
  have hanswers : ∀ j ∈ (runs recorder empty oneTaken).1.jobs.values,
      hashable (((runs recorder empty oneTaken).1.altered spareDying).job j).machineName = .ok () ∧
        ∀ m ∈ ((runs recorder empty oneTaken).1.altered spareDying).candidates j,
          ((((runs recorder empty oneTaken).1.altered spareDying).machine
            m).allocator.allocPossible (((runs recorder empty oneTaken).1.altered spareDying).job
              j).request).isOk := by
    decide +kernel
  have ha : ((runs recorder empty oneTaken).1.altered spareDying).Accepting := by
    intro j hj e he
    rw [job_altered] at hj
    obtain ⟨hnamed, hanswered⟩ := hanswers j (hl.mem hj)
    obtain he | ⟨m, hm, he⟩ := he
    · rw [hnamed] at he
      cases he
    · have hok := hanswered m hm
      rw [he] at hok
      cases hok
  apply (regenerated_iff h hr calm_spareDying ha).mpr
  intro _ j hj hp
  have hplaced : ∀ j ∈ ((runs recorder empty oneTaken).1.remaining spareDying).dropLast,
      ((runs recorder empty oneTaken).1.job j).pending = false := by
    decide +kernel
  rw [hplaced j hj] at hp
  cases hp

/-- Where two jobs wait, the first one is cancelled during the walk over `_jobs`, which then
raises. -/
theorem twoWaiting_not_regenerated : ∃ s,
    ((system recorder Schedule.Setup.quiet []).restrict Fair).Reachable s ∧
    s.1.Regenerates (.removeMachine "m") ∧ (s.1.altered (.removeMachine "m")).Accepting ∧
    (((JobQueueCall.removeMachine "m").exec recorder).run s).1 = .error mutated := by
  have h : ((system recorder Schedule.Setup.quiet []).restrict Fair).Reachable
        (runs recorder (runs recorder empty crowded)
          [.createJob (some 3) none none { args := .one (.int 3) }]) :=
    reachable_runs reachable_crowded ⟨trivial, trivial⟩
  have hl := (reachable_orderly recorder_quiet h).1.1
  refine ⟨_, h, ?_, accepting_of_empty hl ?_ ?_, ?_⟩
  · change (Dict.get? _ "m").isSome = true
    decide +kernel
  all_goals decide +kernel

end SpallocServer.JobQueue
