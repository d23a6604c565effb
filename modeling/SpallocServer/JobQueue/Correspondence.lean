import SpallocServer.Foundation.System
import SpallocServer.Allocator.Registry
import SpallocServer.JobQueue.Protocol

namespace SpallocServer.JobQueue

open Foundation Prog Allocator

def Holds (q : JobQueue) (j m id : ℕ) : Prop :=
  (q.job j).machine = some m ∧ (q.job j).allocationId = some id

/-- The jobs, the machines and what the allocators of the machines have given out. -/
structure Linked (q : JobQueue) : Prop where
  known : ∀ j, (q.job j).pending = true → q.jobs.get? (q.job j).id = some j
  unplaced : ∀ j, (q.job j).pending = true →
    (q.job j).machine = none ∧ (q.job j).allocationId = none
  ids : ∀ id j, q.jobs.get? id = some j → (q.job j).id = id ∧ j < q.nextJob
  names : ∀ name m, q.machines.get? name = some m →
    (q.machine m).name = name ∧ m < q.nextMachine
  registry : ∀ m ∈ q.machines.values, (q.machine m).allocator.Registry
  placed : ∀ j ∈ q.jobs.values, (q.job j).pending = false →
    ∃ m ∈ q.machines.values, ∃ id, q.Holds j m id
  apart : ∀ i ∈ q.jobs.values, ∀ j ∈ q.jobs.values, ∀ m id, q.Holds i m id → q.Holds j m id → i = j
  image : ∀ m ∈ q.machines.values, ∀ id,
    ((q.machine m).allocator.allocationTypes.get? id).isSome ↔ ∃ j ∈ q.jobs.values, q.Holds j m id

/-- The jobs, the names of the machines and the live ids are as before. -/
structure SameBooks (q q' : JobQueue) : Prop where
  job : q'.job = q.job
  jobs : q'.jobs = q.jobs
  nextJob : q'.nextJob = q.nextJob
  get : ∀ name, q'.machines.get? name = q.machines.get? name
  nextMachine : q'.nextMachine = q.nextMachine
  name : ∀ m, (q'.machine m).name = (q.machine m).name
  types : ∀ m, (q'.machine m).allocator.allocationTypes = (q.machine m).allocator.allocationTypes
  board : ∀ m, (q'.machine m).allocator.allocationBoard = (q.machine m).allocator.allocationBoard
  nextId : ∀ m, (q'.machine m).allocator.nextId = (q.machine m).allocator.nextId

variable {q q' q'' : JobQueue}

theorem SameBooks.mem (h : SameBooks q q') {m : ℕ} :
    m ∈ q'.machines.values ↔ m ∈ q.machines.values := by
  simp only [Dict.mem_values, h.get]

theorem holds_congr {j m id : ℕ} (h : q'.job j = q.job j) :
    q'.Holds j m id ↔ q.Holds j m id := by
  unfold Holds
  rw [h]

theorem SameBooks.holds (h : SameBooks q q') {j m id : ℕ} :
    q'.Holds j m id ↔ q.Holds j m id := holds_congr (congrFun h.job j)

theorem Linked.congr (h : q.Linked) (hs : SameBooks q q') : q'.Linked := by
  refine ⟨?_, ?_, ?_, ?_, ?_, ?_, ?_, ?_⟩
  · rw [hs.job, hs.jobs]
    exact h.known
  · rw [hs.job]
    exact h.unplaced
  · rw [hs.job, hs.jobs, hs.nextJob]
    exact h.ids
  · intro name m hm
    rw [hs.get] at hm
    rw [hs.name, hs.nextMachine]
    exact h.names name m hm
  · intro m hm
    have hr := h.registry m (hs.mem.mp hm)
    refine ⟨fun id => ?_, fun id => ?_⟩
    · rw [hs.types, hs.board]
      exact hr.keys id
    · rw [hs.types, hs.nextId]
      exact hr.ids id
  · intro j hj hp
    rw [hs.jobs] at hj
    rw [hs.job] at hp
    obtain ⟨m, hm, id, hh⟩ := h.placed j hj hp
    exact ⟨m, hs.mem.mpr hm, id, hs.holds.mpr hh⟩
  · intro i hi j hj m id hhi hhj
    rw [hs.jobs] at hi hj
    exact h.apart i hi j hj m id (hs.holds.mp hhi) (hs.holds.mp hhj)
  · intro m hm id
    rw [hs.types, hs.jobs, h.image m (hs.mem.mp hm)]
    simp only [hs.holds]

theorem sameBooks_setQueue (m : ℕ) (l : List ℕ) : SameBooks q (q.setQueue m l) := by
  refine ⟨rfl, rfl, rfl, fun _ => rfl, rfl, fun n => ?_, fun n => ?_, fun n => ?_, fun n => ?_⟩
  all_goals
    rw [machine_setQueue]
    split <;> rfl

theorem sameBooks_cleared : SameBooks q q.cleared := by
  refine ⟨rfl, rfl, rfl, fun _ => rfl, rfl, fun n => ?_, fun n => ?_, fun n => ?_, fun n => ?_⟩
  all_goals
    rw [machine_cleared]
    split <;> rfl

theorem sameBooks_setAllocator {m : ℕ} {a : Allocator}
    (h : Passes (q.machine m).allocator a) : SameBooks q (q.setAllocator m a) := by
  refine ⟨rfl, rfl, rfl, fun _ => rfl, rfl, fun n => ?_, fun n => ?_, fun n => ?_, fun n => ?_⟩
  all_goals
    rw [machine_setAllocator]
    split
  · rfl
  · rfl
  · next hn => rw [hn]; exact h.types
  · rfl
  · next hn => rw [hn]; exact h.board
  · rfl
  · next hn => rw [hn]; exact h.nextId
  · rfl

theorem sameBooks_modified (m : ℕ) (tags : Option (Finset String))
    (deadBoards : Option (Finset Board)) (deadLinks : Option (Finset BoardLink)) :
    SameBooks q (q.setMachine m ((q.machine m).modified tags deadBoards deadLinks)) := by
  refine ⟨rfl, rfl, rfl, fun _ => rfl, rfl, fun n => ?_, fun n => ?_, fun n => ?_, fun n => ?_⟩
  all_goals
    rw [machine_setMachine]
    split
  · next hn => rw [hn]; rfl
  · rfl
  · next hn => rw [hn]; rfl
  · rfl
  · next hn => rw [hn]; rfl
  · rfl
  · next hn => rw [hn]; rfl
  · rfl

theorem Linked.inj (h : q.Linked) {i id j : ℕ} (hi : q.jobs.get? i = some j)
    (hid : q.jobs.get? id = some j) : i = id :=
  (h.ids i j hi).1.symm.trans (h.ids id j hid).1

theorem Linked.get (h : q.Linked) {j : ℕ} (hj : j ∈ q.jobs.values) :
    q.jobs.get? (q.job j).id = some j := by
  obtain ⟨id, hid⟩ := Dict.mem_values.mp hj
  rwa [(h.ids id j hid).1]

theorem Linked.mem (h : q.Linked) {j : ℕ} (hp : (q.job j).pending = true) :
    j ∈ q.jobs.values := Dict.mem_values.mpr ⟨_, h.known j hp⟩

theorem Linked.not_holds (h : q.Linked) {j m id : ℕ} (hp : (q.job j).pending = true) :
    ¬q.Holds j m id := by
  rintro ⟨hm, -⟩
  rw [(h.unplaced j hp).1] at hm
  cases hm

theorem Linked.pending_of_holds (h : q.Linked) {j m id : ℕ} (hh : q.Holds j m id) :
    (q.job j).pending = false := by
  by_contra hp
  exact h.not_holds (by simpa using hp) hh

theorem job_placed (q : JobQueue) (i j m id : ℕ) :
    (q.placed j m id).job i =
      if i = j then { q.job i with pending := false, machine := some m, allocationId := some id }
      else q.job i := by
  rw [placed, job_setJob]
  split
  · next h => rw [h]
  · rfl

theorem job_withdrawn (q : JobQueue) (i j : ℕ) :
    (q.withdrawn j).job i = if i = j then { q.job i with pending := false } else q.job i := by
  rw [withdrawn, job_setJob]
  split
  · next h => rw [h]
  · rfl

theorem holds_placed {j m al n id : ℕ} : (q.placed j m al).Holds j n id ↔ n = m ∧ id = al := by
  unfold Holds
  rw [job_placed, if_pos rfl]
  simp only [Option.some.injEq, eq_comm]

theorem holds_placed_ne {i j m al n id : ℕ} (hi : i ≠ j) :
    (q.placed j m al).Holds i n id ↔ q.Holds i n id :=
  holds_congr (by rw [job_placed, if_neg hi])

theorem holds_withdrawn {i j n id : ℕ} : (q.withdrawn j).Holds i n id ↔ q.Holds i n id := by
  unfold Holds
  rw [job_withdrawn]
  split <;> exact Iff.rfl

theorem holds_created {job : Job} {i n id : ℕ} (hm : job.machine = none) :
    (q.created job).Holds i n id ↔ i ≠ q.nextJob ∧ q.Holds i n id := by
  have hjob : (q.created job).job i = if i = q.nextJob then job else q.job i :=
    job_setJob i q.nextJob job
  unfold Holds
  rw [hjob]
  split
  · next hi => simp [hi, hm]
  · next hi => simp [hi]

theorem Linked.placed_new (h : q.Linked) {j m : ℕ} {al : Allocation} {b : Allocator}
    (hp : (q.job j).pending = true) (hm : m ∈ q.machines.values)
    (hr : Registers (q.machine m).allocator (some al) b) :
    ((q.setAllocator m b).placed j m al.id).Linked := by
  obtain ⟨hid, hnext, type, board, hty, hbd⟩ := hr.some al rfl
  have hreg := h.registry m hm
  have hfresh : (q.machine m).allocator.allocationTypes.get? al.id = none := by
    by_contra hne
    have hlt := hreg.ids al.id (Option.isSome_iff_ne_none.mpr hne)
    omega
  have hjob (i : ℕ) := job_placed (q.setAllocator m b) i j m al.id
  have hmach (n : ℕ) : (((q.setAllocator m b).placed j m al.id).machine n) =
      if n = m then { q.machine n with allocator := b } else q.machine n :=
    machine_setAllocator m n b
  have hjold (i : ℕ) (hi : i ≠ j) : ((q.setAllocator m b).placed j m al.id).job i = q.job i := by
    rw [hjob, if_neg hi]
    rfl
  have hold (i n id : ℕ) (hi : i ≠ j) :
      ((q.setAllocator m b).placed j m al.id).Holds i n id ↔ q.Holds i n id := holds_placed_ne hi
  have hno (i : ℕ) (hi : i ∈ q.jobs.values) : ¬q.Holds i m al.id := fun hh => by
    have hs := (h.image m hm al.id).mpr ⟨i, hi, hh⟩
    rw [hfresh] at hs
    cases hs
  refine ⟨fun i hi => ?_, fun i hi => ?_, fun id i hi => ?_, fun name n hn => ?_, fun n hn => ?_,
    fun i hi hpi => ?_, fun i hi k hk n id hhi hhk => ?_, fun n hn id => ?_⟩
  · by_cases hij : i = j
    · subst hij
      rw [hjob, if_pos rfl] at hi
      cases hi
    · rw [hjold i hij] at hi ⊢
      exact h.known i hi
  · by_cases hij : i = j
    · subst hij
      rw [hjob, if_pos rfl] at hi
      cases hi
    · rw [hjold i hij] at hi ⊢
      exact h.unplaced i hi
  · have hi' := h.ids id i hi
    rw [hjob]
    split
    · exact hi'
    · exact hi'
  · have hn' := h.names name n hn
    rw [hmach]
    split
    · exact hn'
    · exact hn'
  · rw [hmach]
    split
    · next hnm => exact hreg.registers hr
    · exact h.registry n hn
  · by_cases hij : i = j
    · subst hij
      exact ⟨m, hm, al.id, holds_placed.mpr ⟨rfl, rfl⟩⟩
    · rw [hjold i hij] at hpi
      obtain ⟨n, hn, id, hh⟩ := h.placed i hi hpi
      exact ⟨n, hn, id, (hold i n id hij).mpr hh⟩
  · by_cases hij : i = j
    · by_cases hkj : k = j
      · rw [hij, hkj]
      · rw [hij, holds_placed] at hhi
        rw [hold k n id hkj, hhi.1, hhi.2] at hhk
        exact absurd hhk (hno k hk)
    · rw [hold i n id hij] at hhi
      by_cases hkj : k = j
      · rw [hkj, holds_placed] at hhk
        rw [hhk.1, hhk.2] at hhi
        exact absurd hhi (hno i hi)
      · rw [hold k n id hkj] at hhk
        exact h.apart i hi k hk n id hhi hhk
  · have hother : (∃ i ∈ q.jobs.values,
        ((q.setAllocator m b).placed j m al.id).Holds i n id) ↔
        (n = m ∧ id = al.id) ∨ ∃ i ∈ q.jobs.values, q.Holds i n id := by
      constructor
      · rintro ⟨i, hi, hh⟩
        by_cases hij : i = j
        · rw [hij, holds_placed] at hh
          exact .inl hh
        · exact .inr ⟨i, hi, (hold i n id hij).mp hh⟩
      · rintro (hh | ⟨i, hi, hh⟩)
        · exact ⟨j, h.mem hp, holds_placed.mpr hh⟩
        · refine ⟨i, hi, (hold i n id ?_).mpr hh⟩
          rintro rfl
          exact h.not_holds hp hh
    change _ ↔ ∃ i ∈ q.jobs.values, _
    rw [hother, hmach, ← h.image n hn]
    split
    · next hnm =>
      subst hnm
      dsimp only
      rw [hty, Dict.get?_set, ← hid]
      by_cases hal : al.id = id
      · simp [hal]
      · rw [if_neg hal]
        constructor
        · exact .inr
        · rintro (⟨-, he⟩ | hs)
          · exact absurd he.symm hal
          · exact hs
    · next hnm =>
      constructor
      · exact .inr
      · rintro (⟨he, -⟩ | hs)
        · exact absurd he hnm
        · exact hs

theorem Linked.mem_dropped (h : q.Linked) {id j : ℕ} (hj : q.jobs.get? id = some j) {i : ℕ} :
    i ∈ (q.dropped id).jobs.values ↔ i ∈ q.jobs.values ∧ i ≠ j := by
  simp only [Dict.mem_values, dropped, Dict.get?_erase]
  constructor
  · rintro ⟨k, hk⟩
    split at hk
    · cases hk
    · next hne =>
      refine ⟨⟨k, hk⟩, ?_⟩
      rintro rfl
      exact hne (h.inj hj hk)
  · rintro ⟨⟨k, hk⟩, hij⟩
    refine ⟨k, ?_⟩
    rw [if_neg]
    · exact hk
    · rintro rfl
      exact hij (Option.some.inj (hk.symm.trans hj))

theorem dropped_get {id k i : ℕ} (h : (q.dropped id).jobs.get? k = some i) :
    id ≠ k ∧ q.jobs.get? k = some i := by
  rw [dropped, Dict.get?_erase] at h
  split at h
  · cases h
  · next hne => exact ⟨hne, h⟩

theorem Linked.cancelled (h : q.Linked) {j : ℕ} (hp : (q.job j).pending = true) :
    ((q.withdrawn j).dropped (q.job j).id).Linked := by
  have hj := h.known j hp
  have hjob (i : ℕ) : ((q.withdrawn j).dropped (q.job j).id).job i =
      if i = j then { q.job i with pending := false } else q.job i := job_withdrawn q i j
  have hjold (i : ℕ) (hi : i ≠ j) :
      ((q.withdrawn j).dropped (q.job j).id).job i = q.job i := by
    rw [hjob, if_neg hi]
  have hmem (i : ℕ) : i ∈ ((q.withdrawn j).dropped (q.job j).id).jobs.values ↔
      i ∈ q.jobs.values ∧ i ≠ j := h.mem_dropped hj
  have hholds (i n id : ℕ) : ((q.withdrawn j).dropped (q.job j).id).Holds i n id ↔
      q.Holds i n id := holds_withdrawn
  refine ⟨fun i hi => ?_, fun i hi => ?_, fun id i hi => ?_, h.names, h.registry,
    fun i hi hpi => ?_, fun i hi k hk n id hhi hhk => ?_, fun n hn id => ?_⟩
  · by_cases hij : i = j
    · rw [hjob, if_pos hij] at hi
      cases hi
    · rw [hjold i hij] at hi ⊢
      have hi' := h.known i hi
      rw [dropped, Dict.get?_erase, if_neg]
      · exact hi'
      · intro he
        rw [← he, hj] at hi'
        exact hij (Option.some.inj hi').symm
  · by_cases hij : i = j
    · rw [hjob, if_pos hij] at hi
      cases hi
    · rw [hjold i hij] at hi ⊢
      exact h.unplaced i hi
  · have hi' := h.ids id i (dropped_get (q := q.withdrawn j) hi).2
    rw [hjob]
    split
    · exact hi'
    · exact hi'
  · obtain ⟨hi, hij⟩ := (hmem i).mp hi
    rw [hjold i hij] at hpi
    obtain ⟨n, hn, id, hh⟩ := h.placed i hi hpi
    exact ⟨n, hn, id, (hholds i n id).mpr hh⟩
  · exact h.apart i ((hmem i).mp hi).1 k ((hmem k).mp hk).1 n id ((hholds i n id).mp hhi)
      ((hholds k n id).mp hhk)
  · change ((q.machine n).allocator.allocationTypes.get? id).isSome ↔ _
    rw [h.image n hn]
    simp only [hmem, hholds]
    constructor
    · rintro ⟨i, hi, hh⟩
      refine ⟨i, ⟨hi, ?_⟩, hh⟩
      rintro rfl
      exact h.not_holds hp hh
    · rintro ⟨i, ⟨hi, -⟩, hh⟩
      exact ⟨i, hi, hh⟩

theorem Linked.freed (h : q.Linked) {id j m a : ℕ} {b : Allocator} (hj : q.jobs.get? id = some j)
    (hh : q.Holds j m a) (hr : b.Registry)
    (hty : b.allocationTypes = (q.machine m).allocator.allocationTypes.erase a) :
    ((q.dropped id).setAllocator m b).Linked := by
  have hp := h.pending_of_holds hh
  have hmem (i : ℕ) : i ∈ ((q.dropped id).setAllocator m b).jobs.values ↔
      i ∈ q.jobs.values ∧ i ≠ j := h.mem_dropped hj
  have hmach (n : ℕ) : ((q.dropped id).setAllocator m b).machine n =
      if n = m then { q.machine n with allocator := b } else q.machine n :=
    machine_setAllocator m n b
  refine ⟨fun i hi => ?_, h.unplaced, fun k i hi => ?_, fun name n hn => ?_, fun n hn => ?_,
    fun i hi hpi => ?_, fun i hi k hk n c hhi hhk => ?_, fun n hn c => ?_⟩
  · have hpi : (q.job i).pending = true := hi
    have hi' := h.known i hpi
    change (q.jobs.erase id).get? (q.job i).id = some i
    rw [Dict.get?_erase, if_neg]
    · exact hi'
    · intro he
      rw [← he, hj] at hi'
      rw [← Option.some.inj hi', hp] at hpi
      cases hpi
  · exact h.ids k i (dropped_get hi).2
  · have hn' := h.names name n hn
    rw [hmach]
    split
    · exact hn'
    · exact hn'
  · rw [hmach]
    split
    · exact hr
    · exact h.registry n hn
  · exact h.placed i ((hmem i).mp hi).1 hpi
  · exact h.apart i ((hmem i).mp hi).1 k ((hmem k).mp hk).1 n c hhi hhk
  · have hother : (∃ i ∈ ((q.dropped id).setAllocator m b).jobs.values, q.Holds i n c) ↔
        (∃ i ∈ q.jobs.values, q.Holds i n c) ∧ ¬(n = m ∧ a = c) := by
      simp only [hmem]
      constructor
      · rintro ⟨i, ⟨hi, hij⟩, hhi⟩
        refine ⟨⟨i, hi, hhi⟩, ?_⟩
        rintro ⟨rfl, rfl⟩
        exact hij (h.apart i hi j (Dict.mem_values.mpr ⟨id, hj⟩) n a hhi hh)
      · rintro ⟨⟨i, hi, hhi⟩, hne⟩
        refine ⟨i, ⟨hi, ?_⟩, hhi⟩
        rintro rfl
        exact hne ⟨Option.some.inj (hhi.1.symm.trans hh.1), Option.some.inj (hh.2.symm.trans hhi.2)⟩
    change _ ↔ ∃ i ∈ _, q.Holds i n c
    rw [hother, ← h.image n hn, hmach]
    split
    · next hnm =>
      subst hnm
      dsimp only
      rw [hty, Dict.get?_erase]
      by_cases hac : a = c <;> simp [hac]
    · next hnm => simp [hnm]

theorem Linked.created (h : q.Linked) (job : Job) (hp : job.pending = true)
    (hm : job.machine = none) (ha : job.allocationId = none)
    (hnone : q.jobs.get? job.id = none) : (q.created job).Linked := by
  have hrec (i : ℕ) : (q.created job).job i = if i = q.nextJob then job else q.job i :=
    job_setJob i q.nextJob job
  have hget (id : ℕ) : (q.created job).jobs.get? id =
      if job.id = id then some q.nextJob else q.jobs.get? id := Dict.get?_set _ _ _ _
  have hlt (i : ℕ) (hi : i ∈ q.jobs.values) : i ≠ q.nextJob := by
    obtain ⟨id, hid⟩ := Dict.mem_values.mp hi
    have := (h.ids id i hid).2
    omega
  have hmem (i : ℕ) : i ∈ (q.created job).jobs.values ↔ i ∈ q.jobs.values ∨ i = q.nextJob := by
    have hv : (q.created job).jobs.values = q.jobs.values ++ [q.nextJob] :=
      Dict.values_set_new hnone q.nextJob
    rw [hv, List.mem_append, List.mem_singleton]
  have hholds (i n id : ℕ) : (q.created job).Holds i n id ↔ i ≠ q.nextJob ∧ q.Holds i n id :=
    holds_created hm
  refine ⟨fun i hi => ?_, fun i hi => ?_, fun id i hi => ?_, h.names, h.registry,
    fun i hi hpi => ?_, fun i hi k hk n id hhi hhk => ?_, fun n hn id => ?_⟩
  · rw [hrec] at hi ⊢
    split at hi
    · next he => rw [if_pos he, hget, if_pos rfl, he]
    · next hne =>
      have hi' := h.known i hi
      rw [if_neg hne, hget, if_neg]
      · exact hi'
      · intro he
        rw [← he, hnone] at hi'
        cases hi'
  · rw [hrec] at hi ⊢
    split at hi
    · next he =>
      rw [if_pos he]
      exact ⟨hm, ha⟩
    · next hne =>
      rw [if_neg hne]
      exact h.unplaced i hi
  · rw [hget] at hi
    rw [hrec]
    split at hi
    · next he =>
      obtain rfl := Option.some.inj hi
      rw [if_pos rfl]
      exact ⟨he, Nat.lt_succ_self _⟩
    · rw [if_neg (hlt i (Dict.mem_values.mpr ⟨id, hi⟩))]
      exact ⟨(h.ids id i hi).1, Nat.lt_succ_of_lt (h.ids id i hi).2⟩
  · obtain hi | rfl := (hmem i).mp hi
    · have hne := hlt i hi
      rw [hrec, if_neg hne] at hpi
      obtain ⟨n, hn, id, hh⟩ := h.placed i hi hpi
      exact ⟨n, hn, id, (hholds i n id).mpr ⟨hne, hh⟩⟩
    · rw [hrec, if_pos rfl, hp] at hpi
      cases hpi
  · obtain ⟨hi', hhi⟩ := (hholds i n id).mp hhi
    obtain ⟨hk', hhk⟩ := (hholds k n id).mp hhk
    exact h.apart i (((hmem i).mp hi).resolve_right hi') k (((hmem k).mp hk).resolve_right hk')
      n id hhi hhk
  · change ((q.machine n).allocator.allocationTypes.get? id).isSome ↔ _
    rw [h.image n hn]
    simp only [hmem, hholds]
    constructor
    · rintro ⟨i, hi, hh⟩
      exact ⟨i, .inl hi, hlt i hi, hh⟩
    · rintro ⟨i, hi, hne, hh⟩
      exact ⟨i, hi.resolve_right hne, hh⟩

theorem Linked.machine_lt (h : q.Linked) {m : ℕ} (hm : m ∈ q.machines.values) :
    m < q.nextMachine := by
  obtain ⟨name, hn⟩ := Dict.mem_values.mp hm
  exact (h.names name m hn).2

theorem Linked.added (h : q.Linked) {name : String} (hnone : q.machines.get? name = none)
    (width height : ℤ) (tags : Option (Finset String)) (deadBoards : Finset Board)
    (deadLinks : Finset BoardLink) :
    (q.added name width height tags deadBoards deadLinks).Linked := by
  have hget (n : String) : (q.added name width height tags deadBoards deadLinks).machines.get? n =
      if name = n then some q.nextMachine else q.machines.get? n := Dict.get?_set _ _ _ _
  have hmem (n : ℕ) : n ∈ (q.added name width height tags deadBoards deadLinks).machines.values ↔
      n ∈ q.machines.values ∨ n = q.nextMachine := by
    have hv : (q.added name width height tags deadBoards deadLinks).machines.values =
        q.machines.values ++ [q.nextMachine] := Dict.values_set_new hnone q.nextMachine
    rw [hv, List.mem_append, List.mem_singleton]
  have hmach (n : ℕ) : (q.added name width height tags deadBoards deadLinks).machine n =
      if n = q.nextMachine then
        ⟨name, tagsOr tags, .new width height deadBoards deadLinks 1 q.secondsBeforeFree
          (q.clock q.nextMachine) q.setPop, []⟩
      else q.machine n := machine_setMachine _ _ _
  have hold (n : ℕ) (hn : n ∈ q.machines.values) :
      (q.added name width height tags deadBoards deadLinks).machine n = q.machine n := by
    have := h.machine_lt hn
    rw [hmach, if_neg (by omega)]
  refine ⟨h.known, h.unplaced, h.ids, fun k n hn => ?_, fun n hn => ?_, fun i hi hpi => ?_,
    h.apart, fun n hn id => ?_⟩
  · rw [hget] at hn
    split at hn
    · next hk =>
      obtain rfl := Option.some.inj hn
      rw [hmach, if_pos rfl]
      exact ⟨hk, Nat.lt_succ_self _⟩
    · rw [hold n (Dict.mem_values.mpr ⟨k, hn⟩)]
      exact ⟨(h.names k n hn).1, Nat.lt_succ_of_lt (h.names k n hn).2⟩
  · obtain hn | rfl := (hmem n).mp hn
    · rw [hold n hn]
      exact h.registry n hn
    · rw [hmach, if_pos rfl]
      exact registry_new _ _ _ _ _ _ _ _
  · obtain ⟨m, hm, id, hh⟩ := h.placed i hi hpi
    exact ⟨m, (hmem m).mpr (.inl hm), id, hh⟩
  · obtain hn | rfl := (hmem n).mp hn
    · rw [hold n hn]
      exact h.image n hn id
    · rw [hmach, if_pos rfl]
      refine iff_of_false (by simp [Allocator.new]) ?_
      rintro ⟨i, hi, hh⟩
      have hpi : (q.job i).pending = false := h.pending_of_holds hh
      obtain ⟨m, hm, _, hh'⟩ := h.placed i hi hpi
      have := h.machine_lt hm
      have := Option.some.inj (hh'.1.symm.trans hh.1)
      omega

theorem Linked.erased (h : q.Linked) {name : String} {m : ℕ}
    (hm : q.machines.get? name = some m)
    (hempty : ∀ j ∈ q.jobs.values, (q.job j).machine ≠ some m) :
    ({ q with machines := q.machines.erase name } : JobQueue).Linked ∧
      m ∉ (q.machines.erase name).values := by
  have hget (k : String) (n : ℕ) (hn : (q.machines.erase name).get? k = some n) :
      name ≠ k ∧ q.machines.get? k = some n := by
    rw [Dict.get?_erase] at hn
    split at hn
    · cases hn
    · next hne => exact ⟨hne, hn⟩
  have hmem (n : ℕ) (hn : n ∈ (q.machines.erase name).values) : n ∈ q.machines.values := by
    obtain ⟨k, hk⟩ := Dict.mem_values.mp hn
    exact Dict.mem_values.mpr ⟨k, (hget k n hk).2⟩
  refine ⟨⟨h.known, h.unplaced, h.ids, fun k n hn => h.names k n (hget k n hn).2,
    fun n hn => h.registry n (hmem n hn), fun i hi hpi => ?_, h.apart,
    fun n hn => h.image n (hmem n hn)⟩, fun hin => ?_⟩
  · obtain ⟨n, hn, id, hh⟩ := h.placed i hi hpi
    refine ⟨n, ?_, id, hh⟩
    obtain ⟨k, hk⟩ := Dict.mem_values.mp hn
    refine Dict.mem_values.mpr ⟨k, ?_⟩
    change (q.machines.erase name).get? k = some n
    rw [Dict.get?_erase, if_neg]
    · exact hk
    · rintro rfl
      rw [hm] at hk
      exact hempty i hi (Option.some.inj hk ▸ hh.1)
  · obtain ⟨k, hk⟩ := Dict.mem_values.mp hin
    obtain ⟨hne, hk⟩ := hget k m hk
    exact hne ((h.names name m hm).1.symm.trans (h.names k m hk).1)

/-- Callbacks that do not raise. -/
structure Quiet {ω : Type} (cb : Callbacks ω) : Prop where
  onAllocate : ∀ id name boards periphery torus w,
    wp (cb.onAllocate id name boards periphery torus) (fun _ _ => True) (fun _ _ => False) w
  onFree : ∀ id reason w, wp (cb.onFree id reason) (fun _ _ => True) (fun _ _ => False) w
  onCancel : ∀ id reason w, wp (cb.onCancel id reason) (fun _ _ => True) (fun _ _ => False) w

theorem recorder_quiet : Quiet recorder where
  onAllocate _ _ _ _ _ _ := trivial
  onFree _ _ _ := trivial
  onCancel _ _ _ := trivial

structure Agrees {ω : Type} (machines : Dict String ℕ) (depth : ℤ) (t : JobQueue × ω) : Prop where
  linked : t.1.Linked
  machines : t.1.machines = machines
  postpone : t.1.postpone = depth

section Calls

variable {ω : Type} {cb : Callbacks ω} {w : ω} {t : JobQueue × ω} {machines : Dict String ℕ}
  {depth : ℤ}

theorem Agrees.congr {w' : ω} (h : Agrees machines depth (q, w)) (hs : SameBooks q q')
    (hmach : q'.machines = q.machines) (hpost : q'.postpone = q.postpone) :
    Agrees machines depth (q', w') :=
  ⟨h.linked.congr hs, hmach.trans h.machines, hpost.trans h.postpone⟩

theorem agrees_rules (hcb : Quiet cb) (machines : Dict String ℕ) (depth : ℤ) :
    EnqueueRules cb (Agrees machines depth) fun _ => Agrees machines depth where
  alloc q w m j rest h hh hp := by
    apply (alloc_registers _ _).mono
    · intro res a hr
      cases res with
      | none => exact h.congr (sameBooks_setAllocator (hr.none rfl)) rfl rfl
      | some al =>
        have hplaced : Agrees machines depth ((q.setAllocator m a).placed j m al.id, w) :=
          ⟨h.linked.placed_new hp hh.machine hr, h.machines, h.postpone⟩
        apply (hcb.onAllocate _ _ _ _ _ w).mono
        · exact fun _ _ _ => ⟨hplaced.linked, hplaced.machines, hplaced.postpone⟩
        · exact fun _ _ hf => hf.elim
    · exact fun _ a hr => h.congr (sameBooks_setAllocator hr) rfl rfl
  skip q w m j rest h _ _ := h.congr (sameBooks_setQueue m rest) rfl rfl
  known q w j h hp := h.linked.known j hp
  offer q w j m h _ _ _ := h.congr (sameBooks_setQueue m _) rfl rfl
  refused q w j e h _ := h
  cancel q w j reason h hp := by
    apply (hcb.onCancel _ reason w).mono
    · exact fun _ _ _ => ⟨h.linked.cancelled hp, h.machines, h.postpone⟩
    · exact fun _ _ hf => hf.elim

theorem processQueue_agrees (hcb : Quiet cb) (h : Agrees machines depth t) :
    wp (processQueue cb) (fun _ => Agrees machines depth) (fun _ => Agrees machines depth) t :=
  processQueue_wp (agrees_rules hcb machines depth).toProcessRules h

theorem regenerateQueues_agrees (hcb : Quiet cb) (h : Agrees machines depth t) :
    wp (regenerateQueues cb) (fun _ => Agrees machines depth) (fun _ => Agrees machines depth)
      t :=
  regenerateQueues_wp (agrees_rules hcb machines depth)
    (fun _ _ h => h.congr sameBooks_cleared rfl rfl) (fun _ h => h) h

theorem createJob_agrees (hcb : Quiet cb) {id : Option ℕ} {machine : Option MachineName}
    {tags : Option Tags} {request : Request} (h : Agrees machines depth t) :
    wp (createJob cb id machine tags request) (fun _ => Agrees machines depth)
      (fun _ => Agrees machines depth) t := by
  simp only [createJob, wp_bind, wp_queue]
  cases id with
  | none => exact h
  | some id =>
    dsimp only
    split
    · exact h
    next hnone =>
    rw [wp_bind]
    cases jobTags machine tags with
    | error e => exact h
    | ok tags =>
    rw [wp_ofExcept_ok, wp_bind, wp_change]
    apply enqueueJob_wp (agrees_rules hcb machines depth)
    · refine ⟨h.linked.created _ rfl rfl rfl ?_, h.machines, h.postpone⟩
      simpa using hnone
    · change ((t.1.setJob _ _).job _).pending = true
      rw [job_setJob_self]

theorem destroyJob_agrees (hcb : Quiet cb) {id : ℕ} {reason : Option String}
    (h : Agrees machines depth t) :
    wp (destroyJob cb id reason) (fun _ => Agrees machines depth)
      (fun _ => Agrees machines depth) t := by
  obtain ⟨q, w⟩ := t
  apply destroyJob_wp fun t ht => processQueue_agrees hcb ht
  · exact fun _ => h
  · intro j hj hp
    obtain rfl := (h.linked.ids id j hj).1
    exact (agrees_rules hcb machines depth).cancel q w j reason h hp
  · intro j hj _
    apply (hcb.onFree _ reason w).mono
    · exact fun _ _ _ => ⟨h.linked, h.machines, h.postpone⟩
    · exact fun _ _ hf => hf.elim

theorem Linked.free_wp {id j : ℕ} (h : q.Linked) (hj : q.jobs.get? id = some j)
    (hp : (q.job j).pending = false) :
    ∃ m a, q.Holds j m a ∧ m ∈ q.machines.values ∧
      wp (Allocator.free a) (fun _ b => ((q.dropped id).setAllocator m b).Linked)
        (fun _ _ => False) (q.machine m).allocator := by
  have hmem : j ∈ q.jobs.values := Dict.mem_values.mpr ⟨id, hj⟩
  obtain ⟨m, hm, a, hh⟩ := h.placed j hmem hp
  refine ⟨m, a, hh, hm, ?_⟩
  apply (free_registry (h.registry m hm) a).mono
  · rintro _ b ⟨-, hr, -, hty⟩
    exact h.freed hj hh hr hty
  · rintro _ b ⟨-, hnone, -⟩
    have hsome := (h.image m hm a).mpr ⟨j, hmem, hh⟩
    rw [hnone] at hsome
    cases hsome

theorem free_linked {Q : Unit → JobQueue × ω → Prop} {E : Error → JobQueue × ω → Prop} {id : ℕ}
    (h : Agrees machines depth (q, w))
    (hfair : ∀ j, q.jobs.get? id = some j → (q.job j).pending = false)
    (hunknown : q.jobs.get? id = none → Q () (q, w))
    (hprocess : ∀ m b, Agrees machines depth ((q.dropped id).setAllocator m b, w) →
      wp (processQueue cb) Q E ((q.dropped id).setAllocator m b, w)) :
    wp (free cb id) Q E (q, w) := by
  apply JobQueue.free_wp (I := fun t => ∃ m b, t = ((q.dropped id).setAllocator m b, w) ∧
    Agrees machines depth t)
  · rintro _ ⟨m, b, rfl, ht⟩
    exact hprocess m b ht
  · exact hunknown
  · intro j hj hn
    obtain ⟨m, a, hh, -⟩ := h.linked.free_wp hj (hfair j hj)
    rw [hh.1] at hn
    cases hn
  · intro j hj hn
    obtain ⟨m, a, hh, -⟩ := h.linked.free_wp hj (hfair j hj)
    rw [hh.2] at hn
    cases hn
  · intro j m a hj hm ha
    obtain ⟨m', a', hh, -, hfree⟩ := h.linked.free_wp hj (hfair j hj)
    obtain rfl := Option.some.inj (hm.symm.trans hh.1)
    obtain rfl := Option.some.inj (ha.symm.trans hh.2)
    apply hfree.mono
    · exact fun _ b hb => ⟨m, b, rfl, hb, h.machines, h.postpone⟩
    · exact fun _ _ hf => hf.elim

theorem free_agrees (hcb : Quiet cb) {id : ℕ} (h : Agrees machines depth t)
    (hfair : ∀ j, t.1.jobs.get? id = some j → (t.1.job j).pending = false) :
    wp (free cb id) (fun _ => Agrees machines depth) (fun _ => Agrees machines depth) t :=
  free_linked h hfair (fun _ => h) fun _ _ ht => processQueue_agrees hcb ht

theorem checkFree_agrees (hcb : Quiet cb) (h : Agrees machines depth t) :
    wp (checkFree cb) (fun _ => Agrees machines depth) (fun _ => Agrees machines depth) t := by
  obtain ⟨q, w⟩ := t
  apply checkFree_wp (agrees_rules hcb machines depth).toProcessRules _ h
  intro q w m h _
  apply (checkFree_passes _).mono
  · exact fun _ a ha => h.congr (sameBooks_setAllocator ha) rfl rfl
  · exact fun _ a ha => h.congr (sameBooks_setAllocator ha) rfl rfl

theorem destroyJob_postponed {Q : Unit → JobQueue × ω → Prop} {E : Error → JobQueue × ω → Prop}
    {id j : ℕ} {reason : Option String} (hpost : q.postpone ≠ 0) (hj : q.jobs.get? id = some j)
    (hp : (q.job j).pending = false)
    (hfree : wp (cb.onFree (q.job j).id reason) (fun _ w' => Q () (q, w'))
      (fun e w' => E e (q, w')) w) :
    wp (destroyJob cb id reason) Q E (q, w) := by
  apply destroyJob_wp (I := fun t => t.1.postpone ≠ 0 ∧ Q () t)
  · exact fun t ht => processQueue_postponed ht.1 ht.2
  · intro hn
    rw [hj] at hn
    cases hn
  · intro i hi hp'
    rw [← Option.some.inj (hj.symm.trans hi), hp] at hp'
    cases hp'
  · intro i hi _
    obtain rfl := Option.some.inj (hj.symm.trans hi)
    exact hfree.mono (fun _ _ hQ => ⟨hpost, hQ⟩) fun _ _ he => he

theorem Linked.pending_of_machine (h : q.Linked) {j m : ℕ} (hm : (q.job j).machine = some m) :
    (q.job j).pending = false := by
  by_contra hp
  rw [(h.unplaced j (by simpa using hp)).1] at hm
  cases hm

theorem sweep_agrees (hcb : Quiet cb) {id j m : ℕ} (reason : Option String)
    (h : Agrees machines depth (q, w)) (hdepth : depth ≠ 0) (hj : q.jobs.get? id = some j)
    (hm : (q.job j).machine = some m) :
    wp (destroyJob cb id reason >>= fun _ => free cb id)
      (fun _ t => Agrees machines depth t ∧ t.1.job = q.job ∧ t.1.machines = q.machines ∧
        t.1.jobs = q.jobs.erase id)
      (fun _ _ => False) (q, w) := by
  have hp := h.linked.pending_of_machine hm
  rw [wp_bind]
  apply destroyJob_postponed (h.postpone.trans_ne hdepth) hj hp
  apply (hcb.onFree _ reason w).mono _ fun _ _ hf => hf
  intro _ w' _
  have h' : Agrees machines depth (q, w') := ⟨h.linked, h.machines, h.postpone⟩
  apply free_linked h'
  · intro i hi
    rw [← Option.some.inj (hj.symm.trans hi)]
    exact hp
  · intro hn
    rw [hj] at hn
    cases hn
  · intro n b hb
    apply processQueue_postponed (hb.postpone.trans_ne hdepth)
    exact ⟨hb, rfl, rfl, rfl⟩

theorem removeMachine_agrees (hcb : Quiet cb) {name : String} {m : ℕ}
    (h : Agrees machines depth (q, w)) (hdepth : 0 ≤ depth)
    (hm : q.machines.get? name = some m) :
    wp (removeMachine cb name)
      (fun _ t => Agrees (machines.erase name) depth t ∧ m ∉ (machines.erase name).values)
      (fun _ t => Agrees (machines.erase name) depth t ∧ m ∉ (machines.erase name).values)
      (q, w) := by
  apply removeMachine_sweeps (F := fun _ _ => False) (K := fun _ => Agrees machines (depth + 1))
  · exact fun id j hj => (h.linked.ids id j hj).1
  · intro hnone
    rw [hm] at hnone
    cases hnone
  · intro _ _
    exact ⟨h.linked.congr ⟨rfl, rfl, rfl, fun _ => rfl, rfl, fun _ => rfl, fun _ => rfl,
      fun _ => rfl, fun _ => rfl⟩, h.machines, congrArg (· + 1) h.postpone⟩
  · intro m j rest t _ hs ha hj
    have hdepth' : depth + 1 ≠ 0 := by omega
    exact sweep_agrees hcb (some "Machine removed.") ha hdepth' (hs.known j List.mem_cons_self)
      (hs.job ▸ hj)
  · intro m' t hm' hs ha
    obtain ⟨q', w'⟩ := t
    obtain rfl := Option.some.inj (hm.symm.trans hm')
    obtain ⟨hlinked, hgone⟩ := ha.linked.erased (hs.machines ▸ hm) fun j => hs.left
    rw [ha.machines] at hgone
    have hpost := ha.postpone
    have hleft : Agrees (machines.erase name) depth
        ({ q' with machines := q'.machines.erase name, postpone := q'.postpone - 1 }, w') := by
      refine ⟨hlinked.congr ⟨rfl, rfl, rfl, fun _ => rfl, rfl, fun _ => rfl, fun _ => rfl,
        fun _ => rfl, fun _ => rfl⟩, ?_, ?_⟩
      · exact congrArg (Dict.erase · name) ha.machines
      · dsimp only at hpost ⊢
        omega
    simp only [exit, wp_bind, wp_change]
    apply (regenerateQueues_agrees hcb hleft).mono
    · exact fun _ _ ht => ⟨ht, hgone⟩
    · exact fun _ _ ht => ⟨ht, hgone⟩
  · exact fun _ _ hf => hf.elim

end Calls

end SpallocServer.JobQueue

namespace SpallocServer.JobQueue

open Foundation Prog Allocator

variable {ω : Type} {cb : Callbacks ω} {w : ω} {t : JobQueue × ω}

/-- A job queue that reports to any callbacks. -/
def system (cb : Callbacks ω) (c : Schedule.Setup) (w : ω) :
    System (JobQueue × ω) JobQueueCall where
  init t := t = (JobQueue.new c.secondsBeforeFree c.clock c.setPop, w)
  step t call t' := t' = ((call.exec cb).run t).2

/-- Only jobs that are allocated, or not there, are freed, and blocks are left only after they
are entered. -/
def Fair (t : JobQueue × ω) : JobQueueCall → Prop
  | .free id => ∀ j, t.1.jobs.get? id = some j → (t.1.job j).pending = false
  | .exit => 0 < t.1.postpone
  | _ => True

/-- Jobs that are not pending and live allocations correspond one to one. -/
structure Matched (q : JobQueue) : Prop where
  pending : ∀ j ∈ q.jobs.values, (q.job j).pending = true →
    (q.job j).machine = none ∧ (q.job j).allocationId = none
  placed : ∀ j ∈ q.jobs.values, (q.job j).pending = false →
    ∃ m ∈ q.machines.values, ∃ id, q.Holds j m id
  injective : ∀ i ∈ q.jobs.values, ∀ j ∈ q.jobs.values, ∀ m id,
    q.Holds i m id → q.Holds j m id → i = j
  image : ∀ m ∈ q.machines.values, ∀ id, id ∈ (q.machine m).allocator.allocationTypes.keys ↔
    ∃ j ∈ q.jobs.values, (q.job j).pending = false ∧ q.Holds j m id

theorem Linked.matched {q : JobQueue} (h : q.Linked) : q.Matched := by
  refine ⟨fun j _ hp => h.unplaced j hp, h.placed, h.apart, fun m hm id => ?_⟩
  rw [Dict.mem_keys, ← Option.isSome_iff_exists, h.image m hm]
  constructor
  · rintro ⟨j, hj, hh⟩
    exact ⟨j, hj, h.pending_of_holds hh, hh⟩
  · rintro ⟨j, hj, -, hh⟩
    exact ⟨j, hj, hh⟩

def Coherent (t : JobQueue × ω) : Prop := t.1.Linked ∧ 0 ≤ t.1.postpone

theorem Coherent.agrees (h : Coherent t) : Agrees t.1.machines t.1.postpone t := ⟨h.1, rfl, rfl⟩

theorem Agrees.coherent {machines : Dict String ℕ} {depth : ℤ} (h : Agrees machines depth t)
    (hdepth : 0 ≤ depth) : Coherent t := ⟨h.linked, hdepth.trans_eq h.postpone.symm⟩

theorem removeMachine_coherent (hcb : Quiet cb) {name : String} {m : ℕ} (h : Coherent t)
    (hm : t.1.machines.get? name = some m) :
    Coherent ((removeMachine cb name).run t).2 ∧
      m ∉ ((removeMachine cb name).run t).2.1.machines.values ∧
      ∀ j ∈ ((removeMachine cb name).run t).2.1.jobs.values,
        (((removeMachine cb name).run t).2.1.job j).machine ≠ some m := by
  have hrun := wp_same (removeMachine_agrees (q := t.1) (w := t.2) hcb h.agrees h.2 hm)
  obtain ⟨ha, hgone⟩ := hrun
  rw [← ha.machines] at hgone
  refine ⟨ha.coherent h.2, hgone, fun j hj hjm => ?_⟩
  have hp : (((removeMachine cb name).run t).2.1.job j).pending = false := by
    by_contra hp
    rw [(ha.linked.unplaced j (by simpa using hp)).1] at hjm
    cases hjm
  obtain ⟨n, hn, id, hh⟩ := ha.linked.placed j hj hp
  obtain rfl := Option.some.inj (hjm.symm.trans hh.1)
  exact hgone hn

theorem exec_coherent (hcb : Quiet cb) {call : JobQueueCall} (h : Coherent t)
    (hc : Fair t call) : Coherent ((call.exec cb).run t).2 := by
  have hsame {m : Call ω Unit} (hm : wp m (fun _ => Agrees t.1.machines t.1.postpone)
      (fun _ => Agrees t.1.machines t.1.postpone) t) : Coherent (m.run t).2 :=
    (wp_same hm).coherent h.2
  cases call with
  | createJob id machine tags request => exact hsame (createJob_agrees hcb h.agrees)
  | destroyJob id reason => exact hsame (destroyJob_agrees hcb h.agrees)
  | free id => exact hsame (free_agrees hcb h.agrees hc)
  | checkFree => exact hsame (checkFree_agrees hcb h.agrees)
  | addMachine name width height tags deadBoards deadLinks =>
    have hadd : wp (addMachine cb name width height tags deadBoards deadLinks)
        (fun _ => Coherent) (fun _ => Coherent) t := by
      simp only [addMachine, wp_bind, wp_queue]
      split
      · exact h
      next hnone =>
      rw [wp_bind, wp_change]
      have hlinked := h.1.added (Option.not_isSome_iff_eq_none.mp hnone) width height tags deadBoards
        deadLinks
      apply (regenerateQueues_agrees hcb ⟨hlinked, rfl, rfl⟩).mono
      · exact fun _ _ ht => ht.coherent h.2
      · exact fun _ _ ht => ht.coherent h.2
    exact wp_same hadd
  | modifyMachine name tags deadBoards deadLinks =>
    have hmodify : wp (modifyMachine cb name tags deadBoards deadLinks)
        (fun _ => Agrees t.1.machines t.1.postpone) (fun _ => Agrees t.1.machines t.1.postpone)
        t := by
      simp only [modifyMachine, wp_bind, wp_queue]
      cases t.1.machines.get? name with
      | none => exact h.agrees
      | some m =>
        dsimp only
        rw [wp_bind, wp_change]
        apply regenerateQueues_agrees hcb
        exact Agrees.congr (w := t.2) h.agrees (sameBooks_modified m _ _ _) rfl rfl
    exact hsame hmodify
  | moveMachineToEnd name =>
    have hmove : wp (moveMachineToEnd name) (fun _ => Coherent) (fun _ => Coherent) t := by
      simp only [moveMachineToEnd, wp_bind, wp_queue]
      split
      · exact h
      · refine ⟨h.1.congr ⟨rfl, rfl, rfl, fun n => ?_, rfl, fun _ => rfl, fun _ => rfl,
          fun _ => rfl, fun _ => rfl⟩, h.2⟩
        exact Dict.get?_moveToEnd _ _ _
    exact wp_same hmove
  | removeMachine name =>
    cases hm : t.1.machines.get? name with
    | none =>
      have hremove : wp (removeMachine cb name) (fun _ => Coherent) (fun _ => Coherent) t := by
        simp only [removeMachine, wp_bind, wp_queue, hm]
        exact h
      exact wp_same hremove
    | some m => exact (removeMachine_coherent hcb h hm).1
  | enter =>
    refine ⟨h.1.congr ⟨rfl, rfl, rfl, fun _ => rfl, rfl, fun _ => rfl, fun _ => rfl,
      fun _ => rfl, fun _ => rfl⟩, ?_⟩
    exact h.2.trans (Int.le_add_one le_rfl)
  | exit =>
    have hexit : wp (exit cb) (fun _ => Agrees t.1.machines (t.1.postpone - 1))
        (fun _ => Agrees t.1.machines (t.1.postpone - 1)) t := by
      simp only [exit, wp_bind, wp_change]
      apply regenerateQueues_agrees hcb
      exact ⟨h.1.congr ⟨rfl, rfl, rfl, fun _ => rfl, rfl, fun _ => rfl, fun _ => rfl,
        fun _ => rfl, fun _ => rfl⟩, rfl, rfl⟩
    exact (wp_same hexit).coherent (Int.le_sub_one_of_lt hc)

theorem reachable_coherent {c : Schedule.Setup} (hcb : Quiet cb)
    (h : ((system cb c w).restrict Fair).Reachable t) : Coherent t := by
  apply h.invariant
  · rintro _ rfl
    refine ⟨⟨nofun, nofun, nofun, nofun, nofun, nofun, nofun, nofun⟩, le_rfl⟩
  · rintro t call _ - ht ⟨hc, rfl⟩
    exact exec_coherent hcb ht hc

/-- In any run of calls, also of calls that raise, jobs and allocations correspond, and the
removal of a machine releases every job on it. -/
theorem jobs_matched (hcb : Quiet cb) {c : Schedule.Setup}
    (h : ((system cb c w).restrict Fair).Reachable t) :
    t.1.Matched ∧ ∀ name m, t.1.machines.get? name = some m →
      m ∉ ((removeMachine cb name).run t).2.1.machines.values ∧
        ∀ j ∈ ((removeMachine cb name).run t).2.1.jobs.values,
          (((removeMachine cb name).run t).2.1.job j).machine ≠ some m := by
  have hc := reachable_coherent hcb h
  exact ⟨hc.1.matched, fun name m hm => (removeMachine_coherent hcb hc hm).2⟩

/-- The states along some calls, made one after the other. -/
def runs (cb : Callbacks ω) (t : JobQueue × ω) (calls : List JobQueueCall) : JobQueue × ω :=
  calls.foldl (fun t call => ((call.exec cb).run t).2) t

theorem runs_append (l l' : List JobQueueCall) : runs cb t (l ++ l') = runs cb (runs cb t l) l' :=
  List.foldl_append

theorem reachable_runs {c : Schedule.Setup} {ok : JobQueue × ω → JobQueueCall → Prop}
    {calls : List JobQueueCall} (h : ((system cb c w).restrict ok).Reachable t)
    (hok : System.Along (fun t call => ((call.exec cb).run t).2) ok t calls) :
    ((system cb c w).restrict ok).Reachable (runs cb t calls) := h.along (fun _ _ => rfl) hok

def empty : JobQueue × List Event := (JobQueue.new 0 (fun _ _ => 0) .least, [])

def sharedMachine : List JobQueueCall :=
  [.addMachine "m" 1 1 none ∅ ∅, .createJob (some 1) none none { args := .nil },
    .createJob (some 2) none none { args := .nil }, .destroyJob 1 none, .free 1]

theorem jobs_matched_sharedMachine :
    (runs recorder empty sharedMachine).1.jobs.keys = [2] ∧
      (runs recorder empty sharedMachine).1.Matched := by
  have h : ((system recorder Schedule.Setup.quiet []).restrict Fair).Reachable
      (runs recorder empty (sharedMachine.take 4)) :=
    reachable_runs (.start rfl) ⟨trivial, trivial, trivial, trivial, trivial⟩
  have hjob : ((runs recorder empty (sharedMachine.take 4)).1.jobs.get? 1).all fun j =>
      !((runs recorder empty (sharedMachine.take 4)).1.job j).pending := by
    decide +kernel
  have hfair : Fair (runs recorder empty (sharedMachine.take 4)) (.free 1) := by
    intro j hj
    rw [hj] at hjob
    simpa using hjob
  have hlast : runs recorder empty sharedMachine =
      runs recorder (runs recorder empty (sharedMachine.take 4)) [.free 1] :=
    runs_append (sharedMachine.take 4) [.free 1]
  have hreachable : ((system recorder Schedule.Setup.quiet []).restrict Fair).Reachable
      (runs recorder empty sharedMachine) := by
    rw [hlast]
    exact reachable_runs h ⟨hfair, trivial⟩
  exact ⟨by decide +kernel, (jobs_matched recorder_quiet hreachable).1⟩

end SpallocServer.JobQueue
