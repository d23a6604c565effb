import SpallocServer.Allocator.Service
import SpallocServer.JobQueue.Correspondence

namespace SpallocServer.JobQueue

open Foundation Prog Allocator

def Eligible (q : JobQueue) (j m : ℕ) : Prop :=
  m ∈ q.candidates j ∧ (q.machine m).allocator.allocPossible (q.job j).request = .ok true

def Refuses (q : JobQueue) (j : ℕ) (e : Error) : Prop :=
  hashable (q.job j).machineName = .error e ∨ ∃ m ∈ q.candidates j,
    (q.machine m).allocator.allocPossible (q.job j).request = .error e

/-- Whoever is eligible stays so. -/
structure Fixed (q q' : JobQueue) : Prop where
  machines : q'.machines = q.machines
  postpone : q'.postpone = q.postpone
  nextJob : q'.nextJob = q.nextJob
  tags : ∀ m, (q'.machine m).tags = (q.machine m).tags
  setup : ∀ m, SameSetup (q.machine m).allocator (q'.machine m).allocator
  machineName : ∀ j, (q'.job j).machineName = (q.job j).machineName
  jobTags : ∀ j, (q'.job j).tags = (q.job j).tags
  request : ∀ j, (q'.job j).request = (q.job j).request

/-- All pending jobs but the `rest` are queued on the machines they are eligible for, in the order
in which they were created. -/
structure Lined (rest : List ℕ) (q : JobQueue) : Prop where
  made : ∀ m ∈ q.machines.values, ∀ j ∈ (q.machine m).queue, j < q.nextJob
  sorted : ∀ m ∈ q.machines.values, (q.machine m).queue.Pairwise fun i j =>
    (q.job i).pending = true → (q.job j).pending = true → i < j
  offered : ∀ m ∈ q.machines.values, ∀ j, (q.job j).pending = true → j ∉ rest → q.Eligible j m →
    j ∈ (q.machine m).queue
  queued : ∀ m ∈ q.machines.values, ∀ j ∈ (q.machine m).queue, (q.job j).pending = true →
    j ∉ rest ∧ q.Eligible j m
  first : ∀ i, (q.job i).pending = true → i ∉ rest → ∀ j ∈ rest, i < j

variable {q q' : JobQueue} {rest l : List ℕ} {i j m id : ℕ}

theorem Fixed.candidates (h : Fixed q q') (j : ℕ) : q'.candidates j = q.candidates j := by
  simp only [JobQueue.candidates, h.machines, h.machineName, h.jobTags, h.tags]

theorem Fixed.eligible (h : Fixed q q') : q'.Eligible j m ↔ q.Eligible j m := by
  rw [Eligible, Eligible, h.candidates, h.request, allocPossible_congr (h.setup m)]

theorem Fixed.refuses {e : Error} (h : Fixed q q') : q'.Refuses j e ↔ q.Refuses j e := by
  rw [Refuses, Refuses, h.machineName, h.candidates, h.request]
  simp only [allocPossible_congr (h.setup _)]

theorem Fixed.trans {q'' : JobQueue} (h : Fixed q q') (h' : Fixed q' q'') : Fixed q q'' where
  machines := h'.machines.trans h.machines
  postpone := h'.postpone.trans h.postpone
  nextJob := h'.nextJob.trans h.nextJob
  tags m := (h'.tags m).trans (h.tags m)
  setup m := (h.setup m).trans (h'.setup m)
  machineName j := (h'.machineName j).trans (h.machineName j)
  jobTags j := (h'.jobTags j).trans (h.jobTags j)
  request j := (h'.request j).trans (h.request j)

theorem fixed_setQueue (q : JobQueue) (m : ℕ) (l : List ℕ) : Fixed q (q.setQueue m l) := by
  refine ⟨rfl, rfl, rfl, fun n => ?_, fun n => ?_, fun _ => rfl, fun _ => rfl, fun _ => rfl⟩
  all_goals
    rw [machine_setQueue]
    split
  · rfl
  · rfl
  · exact .refl _
  · exact .refl _

theorem fixed_setAllocator {a : Allocator} (h : SameSetup (q.machine m).allocator a) :
    Fixed q (q.setAllocator m a) := by
  refine ⟨rfl, rfl, rfl, fun n => ?_, fun n => ?_, fun _ => rfl, fun _ => rfl, fun _ => rfl⟩
  all_goals
    rw [machine_setAllocator]
    split
  · rfl
  · rfl
  · next hn =>
    rw [hn]
    exact h
  · exact .refl _

theorem fixed_placed (q : JobQueue) (j m id : ℕ) : Fixed q (q.placed j m id) := by
  refine ⟨rfl, rfl, rfl, fun _ => rfl, fun _ => .refl _, fun i => ?_, fun i => ?_, fun i => ?_⟩
  all_goals
    rw [job_placed]
    split <;> rfl

theorem fixed_withdrawn (q : JobQueue) (j : ℕ) : Fixed q (q.withdrawn j) := by
  refine ⟨rfl, rfl, rfl, fun _ => rfl, fun _ => .refl _, fun i => ?_, fun i => ?_, fun i => ?_⟩
  all_goals
    rw [job_withdrawn]
    split <;> rfl

theorem fixed_dropped (q : JobQueue) (id : ℕ) : Fixed q (q.dropped id) :=
  ⟨rfl, rfl, rfl, fun _ => rfl, fun _ => .refl _, fun _ => rfl, fun _ => rfl, fun _ => rfl⟩

theorem Lined.fewer (h : q.Lined rest) (hf : Fixed q q')
    (hqueue : ∀ m, (q'.machine m).queue = (q.machine m).queue)
    (hp : ∀ j, (q'.job j).pending = true → (q.job j).pending = true) : q'.Lined rest where
  made m hm j hj := by
    rw [hf.machines] at hm
    rw [hqueue] at hj
    exact (h.made m hm j hj).trans_eq hf.nextJob.symm
  sorted m hm := by
    rw [hf.machines] at hm
    rw [hqueue]
    exact (h.sorted m hm).imp fun hlt hi hj => hlt (hp _ hi) (hp _ hj)
  offered m hm j hj hr he := by
    rw [hf.machines] at hm
    rw [hqueue]
    exact h.offered m hm j (hp j hj) hr (hf.eligible.mp he)
  queued m hm j hq hj := by
    rw [hf.machines] at hm
    rw [hqueue] at hq
    obtain ⟨hr, he⟩ := h.queued m hm j hq (hp j hj)
    exact ⟨hr, hf.eligible.mpr he⟩
  first i hi := h.first i (hp i hi)

theorem pending_placed (h : ((q.placed j m id).job i).pending = true) :
    i ≠ j ∧ (q.job i).pending = true := by
  rw [job_placed] at h
  split at h
  · cases h
  · next hne => exact ⟨hne, h⟩

theorem pending_withdrawn (h : ((q.withdrawn j).job i).pending = true) :
    i ≠ j ∧ (q.job i).pending = true := by
  rw [job_withdrawn] at h
  split at h
  · cases h
  · next hne => exact ⟨hne, h⟩

theorem Lined.skip (h : q.Lined rest) (hq : (q.machine m).queue = j :: l)
    (hp : (q.job j).pending = false) : (q.setQueue m l).Lined rest := by
  have hf := fixed_setQueue q m l
  have hin (n i : ℕ) (hi : i ∈ ((q.setQueue m l).machine n).queue) : i ∈ (q.machine n).queue := by
    rw [machine_setQueue] at hi
    split at hi
    · next hn =>
      rw [hn, hq]
      exact List.mem_cons_of_mem j hi
    · exact hi
  refine ⟨fun n hn i hi => h.made n hn i (hin n i hi), fun n hn => ?_, fun n hn i hi hr he => ?_,
    fun n hn i hi hpi => ?_, h.first⟩
  · have hs := h.sorted n hn
    rw [machine_setQueue]
    split
    · next hnm =>
      rw [hnm, hq] at hs
      exact (List.pairwise_cons.mp hs).2
    · exact hs
  · have ho := h.offered n hn i hi hr (hf.eligible.mp he)
    rw [machine_setQueue]
    split
    · next hnm =>
      rw [hnm, hq] at ho
      obtain rfl | ho := List.mem_cons.mp ho
      · have hpi : (q.job i).pending = true := hi
        rw [hp] at hpi
        cases hpi
      · exact ho
    · exact ho
  · obtain ⟨hr, he⟩ := h.queued n hn i (hin n i hi) hpi
    exact ⟨hr, hf.eligible.mpr he⟩

theorem Lined.head_first (h : q.Lined rest) (hh : q.Head m j l) (hp : (q.job j).pending = true)
    (hij : i < j) (hi : (q.job i).pending = true) : ¬q.Eligible i m := by
  intro he
  have hq := hh.queue
  obtain ⟨hj, -⟩ := h.queued m hh.machine j (hq ▸ List.mem_cons_self) hp
  by_cases hr : i ∈ rest
  · have hji := h.first j hp hj i hr
    omega
  · have hin := h.offered m hh.machine i hi hr he
    have hs := h.sorted m hh.machine
    rw [hq] at hin hs
    obtain rfl | hin := List.mem_cons.mp hin
    · omega
    · have hji := (List.pairwise_cons.mp hs).1 i hin hp hi
      omega

/-- The job is being offered to machines, of which the `machines` are left. -/
structure Offering (j : ℕ) (rest machines : List ℕ) (q : JobQueue) : Prop where
  made : ∀ m ∈ q.machines.values, ∀ j ∈ (q.machine m).queue, j < q.nextJob
  sorted : ∀ m ∈ q.machines.values, (q.machine m).queue.Pairwise fun i j =>
    (q.job i).pending = true → (q.job j).pending = true → i < j
  offered : ∀ m ∈ q.machines.values, ∀ i, (q.job i).pending = true → i ∉ rest → q.Eligible i m →
    i ∈ (q.machine m).queue ∨ i = j ∧ m ∈ machines
  queued : ∀ m ∈ q.machines.values, ∀ i ∈ (q.machine m).queue, (q.job i).pending = true →
    i ∉ rest ∧ q.Eligible i m
  first : ∀ i, (q.job i).pending = true → i ∉ rest → ∀ k ∈ rest, i < k
  fresh : ∀ m ∈ machines, ∀ i ∈ (q.machine m).queue, (q.job i).pending = true → i < j

variable {machines : List ℕ}

theorem Lined.offering (h : q.Lined (j :: rest)) (hsort : (j :: rest).Pairwise (· < ·)) :
    q.Offering j rest (q.candidates j) where
  made := h.made
  sorted := h.sorted
  offered m hm i hi hr he := by
    by_cases hij : i = j
    · exact .inr ⟨hij, hij ▸ he.1⟩
    · exact .inl (h.offered m hm i hi (by simp [hij, hr]) he)
  queued m hm i hq hi := by
    obtain ⟨hr, he⟩ := h.queued m hm i hq hi
    exact ⟨fun hin => hr (List.mem_cons_of_mem j hin), he⟩
  first i hi hr k hk := by
    by_cases hij : i = j
    · rw [hij]
      exact (List.pairwise_cons.mp hsort).1 k hk
    · exact h.first i hi (by simp [hij, hr]) k (List.mem_cons_of_mem j hk)
  fresh m hm i hq hi := by
    obtain ⟨hr, -⟩ := h.queued m (mem_candidates hm) i hq hi
    exact h.first i hi hr j List.mem_cons_self

theorem Offering.lined (h : q.Offering j rest []) : q.Lined rest where
  made := h.made
  sorted := h.sorted
  offered m hm i hi hr he := (h.offered m hm i hi hr he).resolve_right fun hin =>
    List.not_mem_nil hin.2
  queued := h.queued
  first := h.first

theorem Lined.pass (h : q.Lined (j :: rest)) (hp : (q.job j).pending = false) : q.Lined rest := by
  have hne (i : ℕ) (hi : (q.job i).pending = true) (hr : i ∉ rest) : i ∉ j :: rest := by
    rw [List.mem_cons, not_or]
    refine ⟨?_, hr⟩
    rintro rfl
    rw [hp] at hi
    cases hi
  refine ⟨h.made, h.sorted, fun m hm i hi hr he => h.offered m hm i hi (hne i hi hr) he,
    fun m hm i hq hi => ?_, fun i hi hr k hk => ?_⟩
  · obtain ⟨hr, he⟩ := h.queued m hm i hq hi
    exact ⟨fun hin => hr (List.mem_cons_of_mem j hin), he⟩
  · exact h.first i hi (hne i hi hr) k (List.mem_cons_of_mem j hk)

theorem Offering.refused (h : q.Offering j rest (m :: machines)) (he : ¬q.Eligible j m) :
    q.Offering j rest machines where
  made := h.made
  sorted := h.sorted
  offered n hn i hi hr hei := by
    obtain hin | ⟨rfl, hm⟩ := h.offered n hn i hi hr hei
    · exact .inl hin
    · obtain rfl | hm := List.mem_cons.mp hm
      · exact absurd hei he
      · exact .inr ⟨rfl, hm⟩
  queued := h.queued
  first := h.first
  fresh n hn := h.fresh n (List.mem_cons_of_mem m hn)

theorem Offering.accepted (h : q.Offering j rest (m :: machines)) (he : q.Eligible j m)
    (hr : j ∉ rest) (hm : m ∉ machines) (hj : j < q.nextJob) :
    (q.setQueue m ((q.machine m).queue ++ [j])).Offering j rest machines := by
  have hf := fixed_setQueue q m ((q.machine m).queue ++ [j])
  have hqueue (n : ℕ) : ((q.setQueue m ((q.machine m).queue ++ [j])).machine n).queue =
      if n = m then (q.machine m).queue ++ [j] else (q.machine n).queue := by
    rw [machine_setQueue]
    split <;> rfl
  refine ⟨fun n hn i hin => ?_, fun n hn => ?_, fun n hn i hi hir hei => ?_,
    fun n hn i hin hi => ?_, h.first, fun n hn i hin hi => ?_⟩
  · rw [hqueue] at hin
    split at hin
    · next hnm =>
      subst hnm
      obtain hin | hin := List.mem_append.mp hin
      · exact h.made n hn i hin
      · obtain rfl := List.mem_singleton.mp hin
        exact hj
    · exact h.made n hn i hin
  · rw [hqueue]
    split
    · next hnm =>
      subst hnm
      rw [List.pairwise_append]
      refine ⟨h.sorted n hn, List.pairwise_singleton _ _, fun i hin k hk hi _ => ?_⟩
      obtain rfl := List.mem_singleton.mp hk
      exact h.fresh n List.mem_cons_self i hin hi
    · exact h.sorted n hn
  · rw [hqueue]
    obtain hin | ⟨rfl, hnm⟩ := h.offered n hn i hi hir (hf.eligible.mp hei)
    · left
      split
      · next hnm =>
        rw [hnm] at hin
        exact List.mem_append_left _ hin
      · exact hin
    · obtain rfl | hnm := List.mem_cons.mp hnm
      · rw [if_pos rfl]
        exact .inl (List.mem_append_right _ (List.mem_singleton_self i))
      · exact .inr ⟨rfl, hnm⟩
  · rw [hqueue] at hin
    have hold (hin : i ∈ (q.machine n).queue) : i ∉ rest ∧
        (q.setQueue m ((q.machine m).queue ++ [j])).Eligible i n := by
      obtain ⟨hir, hei⟩ := h.queued n hn i hin hi
      exact ⟨hir, hf.eligible.mpr hei⟩
    split at hin
    · next hnm =>
      subst hnm
      obtain hin | hin := List.mem_append.mp hin
      · exact hold hin
      · obtain rfl := List.mem_singleton.mp hin
        exact ⟨hr, hf.eligible.mpr he⟩
    · exact hold hin
  · rw [hqueue, if_neg] at hin
    · exact h.fresh n (List.mem_cons_of_mem m hn) i hin hi
    · rintro rfl
      exact hm hn

theorem lined_cleared (hl : ∀ j, (q.job j).pending = true → j ∈ l) : q.cleared.Lined l := by
  have hempty (m : ℕ) (hm : m ∈ q.machines.values) : (q.cleared.machine m).queue = [] := by
    rw [machine_cleared, if_pos hm]
  refine ⟨fun m hm j hj => ?_, fun m hm => ?_, fun m _ j hj hr => absurd (hl j hj) hr,
    fun m hm j hj => ?_, fun j hj hr => absurd (hl j hj) hr⟩
  · rw [hempty m hm] at hj
    exact absurd hj List.not_mem_nil
  · rw [hempty m hm]
    exact List.Pairwise.nil
  · rw [hempty m hm] at hj
    exact absurd hj List.not_mem_nil

/-- The work on the queues goes on: jobs are only started or cancelled. -/
structure Onward (q q' : JobQueue) : Prop extends Fixed q q' where
  pending : ∀ j, (q'.job j).pending = true → (q.job j).pending = true

theorem Onward.refl (q : JobQueue) : Onward q q :=
  ⟨⟨rfl, rfl, rfl, fun _ => rfl, fun _ => .refl _, fun _ => rfl, fun _ => rfl, fun _ => rfl⟩,
    fun _ hj => hj⟩

theorem Onward.trans {q'' : JobQueue} (h : Onward q q') (h' : Onward q' q'') : Onward q q'' :=
  ⟨h.toFixed.trans h'.toFixed, fun j hj => h.pending j (h'.pending j hj)⟩

/-- What else is to be kept while the queues are in order: `B`, with `E` for what may be raised. -/
structure LineRules {ω : Type} (cb : Callbacks ω) (B : JobQueue × ω → Prop)
    (E : Error → JobQueue × ω → Prop) : Prop where
  alloc : ∀ q w m j l rest, B (q, w) → q.Lined rest → q.Head m j l → (q.job j).pending = true →
    wp (Allocator.alloc (q.job j).request) (fun res a =>
      match res with
      | none => B (q.setAllocator m a, w)
      | some al => wp (cb.onAllocate (q.job j).id (q.machine m).name al.boards al.periphery al.torus)
          (fun _ w' => B ((q.setAllocator m a).placed j m al.id, w'))
          (fun e w' => E e ((q.setAllocator m a).placed j m al.id, w')) w)
      (fun e a => E e (q.setAllocator m a, w)) (q.machine m).allocator
  queue : ∀ q w m l, B (q, w) → B (q.setQueue m l, w)
  known : ∀ q w j, B (q, w) → (q.job j).pending = true →
    q.jobs.get? (q.job j).id = some j ∧ j < q.nextJob
  names : ∀ q w, B (q, w) → q.machines.values.Nodup
  refused : ∀ q w j e, B (q, w) → (q.job j).pending = true → q.Refuses j e → E e (q, w)
  cancel : ∀ q w j, B (q, w) → (q.job j).pending = true → (∀ m, ¬q.Eligible j m) →
    wp (cb.onCancel (q.job j).id (some "No suitable machines available."))
      (fun _ w' => B ((q.withdrawn j).dropped (q.job j).id, w'))
      (fun e w' => E e (q.withdrawn j, w')) w

section Line

variable {ω : Type} {cb : Callbacks ω} {B : JobQueue × ω → Prop}
  {E : Error → JobQueue × ω → Prop} {w : ω} {u : JobQueue × ω}

structure Line (B : JobQueue × ω → Prop) (q : JobQueue) (rest : List ℕ) (u : JobQueue × ω) :
    Prop where
  base : B u
  lined : u.1.Lined rest
  onward : Onward q u.1
  jobs : u.1.jobs = q.jobs

theorem line_rules (h : LineRules cb B E) (q₀ : JobQueue) (rest : List ℕ) :
    ProcessRules cb (Line B q₀ rest) E where
  alloc q w m j l hI hh hp := by
    apply ((h.alloc q w m j l rest hI.base hI.lined hh hp).and
      (alloc_registers _ _)).mono _ fun _ _ he => he.1
    rintro res a ⟨hres, hr⟩
    have hsame := fixed_setAllocator hr.setup
    have hqueue (n : ℕ) := queue_setAllocator (q := q) m n a
    cases res with
    | none =>
      exact ⟨hres, hI.lined.fewer hsame hqueue fun _ hi => hi,
        hI.onward.trans ⟨hsame, fun _ hi => hi⟩, hI.jobs⟩
    | some al =>
      apply hres.mono _ fun _ _ he => he
      intro _ w' hB
      have hfixed := hsame.trans (fixed_placed (q.setAllocator m a) j m al.id)
      have hpend (i : ℕ) (hi : (((q.setAllocator m a).placed j m al.id).job i).pending = true) :
          (q.job i).pending = true := (pending_placed hi).2
      exact ⟨hB, hI.lined.fewer hfixed hqueue hpend, hI.onward.trans ⟨hfixed, hpend⟩, hI.jobs⟩
  skip q w m j l hI hh hp :=
    ⟨h.queue q w m l hI.base, hI.lined.skip hh.queue hp,
      hI.onward.trans ⟨fixed_setQueue q m l, fun _ hi => hi⟩, hI.jobs⟩

theorem processQueue_line (h : LineRules cb B E) (hI : Line B q rest u) :
    wp (processQueue cb) (fun _ => Line B q rest) E u := processQueue_wp (line_rules h q rest) hI

theorem candidates_nodup (h : q.machines.values.Nodup) (j : ℕ) : (q.candidates j).Nodup := by
  unfold candidates
  split
  · exact Option.toList_nodup _
  · exact List.nodup_nil
  · exact h.filter _

theorem offer_line (h : LineRules cb B E) (hB : B (q, w)) (ho : q.Offering j rest machines)
    (hp : (q.job j).pending = true) (hr : j ∉ rest) (hn : machines.Nodup)
    (hm : ∀ m ∈ machines, m ∈ q.candidates j) :
    wp (offer j machines) (fun found u => B u ∧ u.1.Lined rest ∧ Onward q u.1 ∧
        u.1.jobs = q.jobs ∧ u.1.job = q.job ∧
        (found = true ↔ ∃ m ∈ machines, q.Eligible j m)) E (q, w) := by
  induction machines generalizing q with
  | nil =>
    refine ⟨hB, ho.lined, .refl q, rfl, rfl, ?_⟩
    simp
  | cons m machines ih =>
    obtain ⟨hnotin, hn⟩ := List.nodup_cons.mp hn
    have hcand := hm m List.mem_cons_self
    have hm' : ∀ n ∈ machines, n ∈ q.candidates j := fun n hin =>
      hm n (List.mem_cons_of_mem m hin)
    simp only [offer, wp_bind, wp_queue]
    cases hposs : (q.machine m).allocator.allocPossible (q.job j).request with
    | error e => exact h.refused q w j e hB hp (.inr ⟨m, hcand, hposs⟩)
    | ok possible =>
      rw [wp_ofExcept_ok]
      cases possible with
      | false =>
        have hno : ¬q.Eligible j m := by
          rintro ⟨-, he⟩
          rw [hposs] at he
          cases he
        apply (ih hB (ho.refused hno) hp hn hm').mono _ fun _ _ he => he
        rintro found u ⟨hBu, hl, hf, hjobs, hjob, hfound⟩
        refine ⟨hBu, hl, hf, hjobs, hjob, ?_⟩
        simp [hfound, hno]
      | true =>
        simp only [if_true, wp_bind, wp_change]
        have hyes : q.Eligible j m := ⟨hcand, hposs⟩
        obtain ⟨-, hj⟩ := h.known q w j hB hp
        have hf := fixed_setQueue q m ((q.machine m).queue ++ [j])
        have hm'' : ∀ n ∈ machines,
            n ∈ (q.setQueue m ((q.machine m).queue ++ [j])).candidates j := by
          rw [hf.candidates]
          exact hm'
        apply (ih (h.queue q w m _ hB) (ho.accepted hyes hr hnotin hj) hp hn hm'').mono _
          fun _ _ he => he
        rintro found u ⟨hBu, hl, hfu, hjobs, hjob, -⟩
        refine ⟨hBu, hl, .trans ⟨hf, fun _ hi => hi⟩ hfu, hjobs, hjob, ?_⟩
        simp [hyes]

/-- What becomes of a job that is offered to the machines: it takes its place in the queues, or is
cancelled. -/
structure Offered (q : JobQueue) (j : ℕ) (q' : JobQueue) : Prop extends Onward q q' where
  kept : (∃ m, q.Eligible j m) → q'.jobs = q.jobs
  cancelled : (∀ m, ¬q.Eligible j m) →
    (q'.job j).pending = false ∧ q'.jobs = q.jobs.erase (q.job j).id

theorem enqueueJob_line (h : LineRules cb B E) (hI : Line B q (j :: rest) (q, w))
    (hsort : (j :: rest).Pairwise (· < ·)) (hp : (q.job j).pending = true)
    (hpost : q.postpone = 0) :
    wp (enqueueJob cb j) (fun _ u => B u ∧ u.1.Lined rest ∧ Offered q j u.1) E (q, w) := by
  have hr : j ∉ rest := fun hin => by
    have hlt := (List.pairwise_cons.mp hsort).1 j hin
    omega
  simp only [enqueueJob, wp_bind, wp_queue]
  rw [if_neg (by simp [hpost]), wp_bind]
  cases hname : hashable (q.job j).machineName with
  | error e => exact h.refused q w j e hI.base hp (.inl hname)
  | ok _ =>
  rw [wp_ofExcept_ok, wp_bind]
  apply (offer_line h hI.base (hI.lined.offering hsort) hp hr
    (candidates_nodup (h.names q w hI.base) j) fun _ hm => hm).mono _ fun _ _ he => he
  rintro found ⟨q', w'⟩ ⟨hB, hl, hon, hjobs, hjob, hfound⟩
  dsimp only at hB hl hon hjobs hjob
  cases found with
  | true =>
    obtain ⟨m, -, hm⟩ := hfound.mp rfl
    apply (processQueue_line h ⟨hB, hl, hon, hjobs⟩).mono _ fun _ _ he => he
    exact fun _ u hu => ⟨hu.base, hu.lined, hu.onward, fun _ => hu.jobs,
      fun hno => absurd hm (hno m)⟩
  | false =>
    have hno (m : ℕ) : ¬q.Eligible j m := fun he => by
      have hf := hfound.mpr ⟨m, he.1, he⟩
      cases hf
    rw [if_pos (by simp), wp_bind, ← hjob]
    rw [← hjob] at hp
    obtain ⟨hknown, -⟩ := h.known q' w' j hB hp
    have hdone (u : JobQueue × ω) (hu : B u ∧ u.1.Lined rest ∧ Offered q j u.1) :
        wp (processQueue cb) (fun _ u => B u ∧ u.1.Lined rest ∧ Offered q j u.1) E u := by
      obtain ⟨hBu, hlu, hou⟩ := hu
      apply (processQueue_line h ⟨hBu, hlu, .refl u.1, rfl⟩).mono _ fun _ _ he => he
      intro _ v hv
      obtain ⟨hpend, hgone⟩ := hou.cancelled hno
      have hpend' : (v.1.job j).pending = false := by
        by_contra hpv
        rw [hv.onward.pending j (by simpa using hpv)] at hpend
        cases hpend
      exact ⟨hv.base, hv.lined, hou.toOnward.trans hv.onward,
        fun hsome => absurd hsome (not_exists.mpr hno), fun _ => ⟨hpend', hv.jobs.trans hgone⟩⟩
    have hdestroy : wp (destroyJob cb (q'.job j).id (some "No suitable machines available."))
        (fun _ u => B u ∧ u.1.Lined rest ∧ Offered q j u.1) E (q', w') := by
      apply destroyJob_wp hdone
      · intro hn
        rw [hknown] at hn
        cases hn
      · intro i hi _
        obtain rfl := Option.some.inj (hknown.symm.trans hi)
        have hno' (m : ℕ) : ¬q'.Eligible j m := fun he => hno m (hon.eligible.mp he)
        apply (h.cancel q' w' j hB hp hno').mono _ fun _ _ he => he
        intro _ w'' hB'
        have hf := (fixed_withdrawn q' j).trans (fixed_dropped (q'.withdrawn j) (q'.job j).id)
        have hpend (i : ℕ) (hi : ((q'.withdrawn j).job i).pending = true) :
            (q'.job i).pending = true := (pending_withdrawn hi).2
        refine ⟨hB', hl.fewer hf (fun _ => rfl) hpend, hon.trans ⟨hf, hpend⟩,
          fun hsome => absurd hsome (not_exists.mpr hno), fun _ => ⟨?_, ?_⟩⟩
        · change ((q'.withdrawn j).job j).pending = false
          rw [job_withdrawn, if_pos rfl]
        · change q'.jobs.erase (q'.job j).id = _
          rw [hjobs, hjob]
      · intro i hi hp'
        obtain rfl := Option.some.inj (hknown.symm.trans hi)
        rw [hp] at hp'
        cases hp'
    exact hdestroy.mono (fun _ u hu => hdone u hu) fun _ _ he => he

theorem onward_cleared (q : JobQueue) : Onward q q.cleared := by
  refine ⟨⟨rfl, rfl, rfl, fun n => ?_, fun n => ?_, fun _ => rfl, fun _ => rfl, fun _ => rfl⟩,
    fun _ hj => hj⟩
  all_goals
    rw [machine_cleared]
    split
  · rfl
  · rfl
  · exact .refl _
  · exact .refl _

structure Realigned (q : JobQueue) (l : List ℕ) (q' : JobQueue) : Prop extends Onward q q' where
  lined : q'.Lined []
  suited : ∀ j ∈ l, (q'.job j).pending = true → ∃ m, q'.Eligible j m

theorem regenerateLoop_line (h : LineRules cb B E) (hB : B u) (hl : u.1.Lined l)
    (hsort : l.Pairwise (· < ·)) (hpost : u.1.postpone = 0)
    (hmut : (∀ t, E mutated t) ∨
      ∀ j ∈ l.dropLast, (u.1.job j).pending = true → ∃ m, u.1.Eligible j m) :
    wp (regenerateLoop cb l) (fun _ v => B v ∧ Realigned u.1 l v.1) E u := by
  induction l generalizing u with
  | nil => exact ⟨hB, .refl u.1, hl, fun _ hj => absurd hj List.not_mem_nil⟩
  | cons j rest ih =>
    have hrest : rest.Pairwise (· < ·) := (List.pairwise_cons.mp hsort).2
    have hnext (v : JobQueue × ω) (hBv : B v) (hlv : v.1.Lined rest) (honv : Onward u.1 v.1)
        (hsuit : (v.1.job j).pending = true → ∃ m, v.1.Eligible j m)
        (hjobs : (∀ t, E mutated t) ∨ (rest ≠ [] → v.1.jobs = u.1.jobs)) :
        wp (if v.1.jobs.keys ≠ u.1.jobs.keys ∧ rest ≠ [] then raise mutated
          else regenerateLoop cb rest) (fun _ x => B x ∧ Realigned u.1 (j :: rest) x.1) E v := by
      split
      · next hraise =>
        obtain hmut | hsame := hjobs
        · exact hmut v
        · exact absurd (congrArg Dict.keys (hsame hraise.2)) hraise.1
      · have hmut' : (∀ t, E mutated t) ∨
            ∀ j ∈ rest.dropLast, (v.1.job j).pending = true → ∃ m, v.1.Eligible j m := by
          obtain hmut | hsuits := hmut
          · exact .inl hmut
          · refine .inr fun i hi hp => ?_
            have hin : i ∈ (j :: rest).dropLast := by
              cases rest with
              | nil => exact absurd hi List.not_mem_nil
              | cons k rest => exact List.mem_cons_of_mem j hi
            obtain ⟨m, hm⟩ := hsuits i hin (honv.pending i hp)
            exact ⟨m, honv.eligible.mpr hm⟩
        apply (ih hBv hlv hrest (honv.postpone.trans hpost) hmut').mono _ fun _ _ he => he
        intro _ x hx
        obtain ⟨hBx, hx⟩ := hx
        refine ⟨hBx, honv.trans hx.toOnward, hx.lined, fun i hi hp => ?_⟩
        obtain rfl | hi := List.mem_cons.mp hi
        · obtain ⟨m, hm⟩ := hsuit (hx.pending i hp)
          exact ⟨m, hx.eligible.mpr hm⟩
        · exact hx.suited i hi hp
    obtain ⟨q, w⟩ := u
    simp only [regenerateLoop, wp_bind, wp_queue]
    cases hp : (q.job j).pending with
    | false =>
      refine hnext (q, w) hB (hl.pass hp) (.refl q) (fun hp' => ?_) (.inr fun _ => rfl)
      rw [hp] at hp'
      cases hp'
    | true =>
      rw [if_pos rfl, wp_bind]
      apply (enqueueJob_line h ⟨hB, hl, .refl q, rfl⟩ hsort hp hpost).mono _ fun _ _ he => he
      rintro _ v ⟨hBv, hlv, hv⟩
      apply hnext v hBv hlv hv.toOnward
      · intro hpv
        by_contra hno
        have hno' (m : ℕ) : ¬q.Eligible j m := fun he => hno ⟨m, hv.eligible.mpr he⟩
        rw [(hv.cancelled hno').1] at hpv
        cases hpv
      · obtain hmut | hsuits := hmut
        · exact .inl hmut
        · refine .inr fun hne => hv.kept (hsuits j ?_ hp)
          cases rest with
          | nil => exact absurd rfl hne
          | cons k rest => exact List.mem_cons_self

theorem regenerateQueues_line (h : LineRules cb B E) (hB : B (q.cleared, w))
    (hpost : q.postpone = 0) (hjobs : ∀ j, (q.job j).pending = true → j ∈ q.jobs.values)
    (hsort : q.jobs.values.Pairwise (· < ·))
    (hmut : (∀ t, E mutated t) ∨
      ∀ j ∈ q.jobs.values.dropLast, (q.job j).pending = true → ∃ m, q.Eligible j m) :
    wp (regenerateQueues cb) (fun _ v => B v ∧ Realigned q q.jobs.values v.1) E (q, w) := by
  have hclear := onward_cleared q
  simp only [regenerateQueues, wp_bind, wp_queue]
  rw [if_neg (by simp [hpost]), wp_bind, wp_change]
  have hmut' : (∀ t, E mutated t) ∨ ∀ j ∈ q.jobs.values.dropLast,
      (q.cleared.job j).pending = true → ∃ m, q.cleared.Eligible j m := by
    apply hmut.imp_right
    intro hsuits j hj hp
    obtain ⟨m, hm⟩ := hsuits j hj hp
    exact ⟨m, hclear.eligible.mpr hm⟩
  apply (regenerateLoop_line (u := (q.cleared, w)) h hB (lined_cleared hjobs) hsort hpost
    hmut').mono _ fun _ _ he => he
  exact fun _ v hv => ⟨hv.1, hclear.trans hv.2.toOnward, hv.2.lined, hv.2.suited⟩

theorem regenerateLoop_mutates {b : ℕ} (h : LineRules cb B fun _ _ => True)
    (hstay : ∀ v, B v → id ∈ v.1.jobs.keys → (v.1.job b).pending = true ∧ (v.1.job b).id = id)
    (hB : B u) (hl : u.1.Lined l) (hsort : l.Pairwise (· < ·)) (hpost : u.1.postpone = 0)
    (hb : b ∈ l.dropLast) (hid : id ∈ u.1.jobs.keys) (hno : ∀ m, ¬u.1.Eligible b m) :
    wp (regenerateLoop cb l) (fun _ _ => False) (fun _ _ => True) u := by
  induction l generalizing u with
  | nil => exact absurd hb List.not_mem_nil
  | cons j rest ih =>
    have hne : rest ≠ [] := by
      rintro rfl
      exact absurd hb List.not_mem_nil
    have hnext (v : JobQueue × ω) (hBv : B v) (hlv : v.1.Lined rest) (honv : Onward u.1 v.1)
        (hgone : b = j → id ∉ v.1.jobs.keys) :
        wp (if v.1.jobs.keys ≠ u.1.jobs.keys ∧ rest ≠ [] then raise mutated
          else regenerateLoop cb rest) (fun _ _ => False) (fun _ _ => True) v := by
      split
      · trivial
      · next hkeys =>
        have hkept : id ∈ v.1.jobs.keys := by
          have hsame : v.1.jobs.keys = u.1.jobs.keys := by
            by_contra hk
            exact hkeys ⟨hk, hne⟩
          rwa [hsame]
        have hb' : b ∈ rest.dropLast := by
          cases rest with
          | nil => exact absurd rfl hne
          | cons k rest => exact (List.mem_cons.mp hb).resolve_left fun he => hgone he hkept
        exact ih hBv hlv (List.pairwise_cons.mp hsort).2 (honv.postpone.trans hpost) hb' hkept
          fun m he => hno m (honv.eligible.mp he)
    obtain ⟨q, w⟩ := u
    obtain ⟨hpb, hidb⟩ := hstay (q, w) hB hid
    simp only [regenerateLoop, wp_bind, wp_queue]
    cases hp : (q.job j).pending with
    | false =>
      refine hnext (q, w) hB (hl.pass hp) (.refl q) fun hbj => ?_
      subst hbj
      rw [hp] at hpb
      cases hpb
    | true =>
      rw [if_pos rfl, wp_bind]
      apply (enqueueJob_line h ⟨hB, hl, .refl q, rfl⟩ hsort hp hpost).mono _ fun _ _ _ => trivial
      intro _ v hv
      obtain ⟨hBv, hlv, hv⟩ := hv
      refine hnext v hBv hlv hv.toOnward fun hbj => ?_
      subst hbj
      obtain ⟨-, hjobs⟩ := hv.cancelled hno
      rw [hjobs, ← Dict.get?_eq_none]
      dsimp only at hidb
      rw [hidb, Dict.get?_erase_self]

theorem regenerateQueues_mutates {b : ℕ} (h : LineRules cb B fun _ _ => True)
    (hstay : ∀ v, B v → id ∈ v.1.jobs.keys → (v.1.job b).pending = true ∧ (v.1.job b).id = id)
    (hB : B (q.cleared, w)) (hpost : q.postpone = 0)
    (hjobs : ∀ j, (q.job j).pending = true → j ∈ q.jobs.values)
    (hsort : q.jobs.values.Pairwise (· < ·)) (hb : b ∈ q.jobs.values.dropLast)
    (hid : id ∈ q.jobs.keys) (hno : ∀ m, ¬q.Eligible b m) :
    wp (regenerateQueues cb) (fun _ _ => False) (fun _ _ => True) (q, w) := by
  simp only [regenerateQueues, wp_bind, wp_queue]
  rw [if_neg (by simp [hpost]), wp_bind, wp_change]
  exact regenerateLoop_mutates (u := (q.cleared, w)) h hstay hB (lined_cleared hjobs) hsort hpost
    hb hid fun m he => hno m ((onward_cleared q).eligible.mp he)

end Line

end SpallocServer.JobQueue
