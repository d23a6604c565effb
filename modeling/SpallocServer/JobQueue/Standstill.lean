import SpallocServer.Allocator.Refusal
import SpallocServer.JobQueue.Order

namespace SpallocServer.JobQueue

open Foundation Prog Allocator

def NoRoom (q : JobQueue) (j m : ℕ) : Prop :=
  (q.machine m).allocator.toFree = [] ∧ (q.machine m).allocator.Denies (q.job j).request

/-- Queueing the jobs of a list again, behind those that are `ahead`, moves none of them: where a
pending job would be the first of a queue there is no room for it, up to a job that cannot be
queued. -/
def Stalls (q : JobQueue) (ahead : List ℕ) : List ℕ → Prop
  | [] => True
  | j :: rest =>
    if (q.job j).pending then
      (∃ e, q.Refuses j e) ∨
        (∃ m, q.Eligible j m) ∧
          (∀ m, q.Eligible j m → (∃ i ∈ ahead, q.Eligible i m) ∨ q.NoRoom j m) ∧
          Stalls q (j :: ahead) rest
    else Stalls q ahead rest

variable {ω : Type} {cb : Callbacks ω} {q q₀ : JobQueue} {w : ω} {ahead l : List ℕ} {j m : ℕ}

theorem Stalls.congr {q' : JobQueue} (h : q.Stalls ahead l) (hjob : q'.job = q.job)
    (hrefuses : ∀ j e, q.Refuses j e → q'.Refuses j e)
    (heligible : ∀ j m, q'.Eligible j m ↔ q.Eligible j m)
    (hroom : ∀ j m, q.NoRoom j m → q'.NoRoom j m) : q'.Stalls ahead l := by
  induction l generalizing ahead with
  | nil => trivial
  | cons j rest ih =>
    unfold Stalls at h ⊢
    rw [hjob]
    split
    · next hp =>
      rw [if_pos hp] at h
      simp only [heligible]
      obtain ⟨e, he⟩ | ⟨hsome, hfirst, hrest⟩ := h
      · exact .inl ⟨e, hrefuses j e he⟩
      · exact .inr ⟨hsome, fun m hm => (hfirst m hm).imp_right (hroom j m), ih hrest⟩
    · next hp =>
      rw [if_neg hp] at h
      exact ih h

/-- As `q₀`, but for the queues. -/
structure Requeued (q₀ q : JobQueue) : Prop where
  job : q.job = q₀.job
  jobs : q.jobs = q₀.jobs
  machines : q.machines = q₀.machines
  tags : ∀ m, (q.machine m).tags = (q₀.machine m).tags
  allocator : ∀ m, (q.machine m).allocator = (q₀.machine m).allocator
  secondsBeforeFree : q.secondsBeforeFree = q₀.secondsBeforeFree
  postpone : q.postpone = q₀.postpone

/-- Of the jobs that are `ahead` none that is eligible for the machine is missing at the head of its
queue, and there is no room for the head. -/
def Stuck (q₀ : JobQueue) (ahead : List ℕ) (q : JobQueue) (m : ℕ) : Prop :=
  match (q.machine m).queue with
  | [] => ∀ i ∈ ahead, ¬q₀.Eligible i m
  | j :: _ => (q₀.job j).pending = true ∧ q₀.NoRoom j m

namespace Requeued

theorem candidates (h : Requeued q₀ q) (j : ℕ) : q.candidates j = q₀.candidates j := by
  simp only [JobQueue.candidates, h.machines, h.job, h.tags]

theorem eligible (h : Requeued q₀ q) : q.Eligible j m ↔ q₀.Eligible j m := by
  rw [Eligible, Eligible, h.candidates, h.job, h.allocator]

theorem setQueue (h : Requeued q₀ q) (m : ℕ) (queue : List ℕ) :
    Requeued q₀ (q.setQueue m queue) where
  job := h.job
  jobs := h.jobs
  machines := h.machines
  tags n := by
    rw [machine_setQueue]
    split
    · next hn =>
      rw [hn]
      exact h.tags m
    · exact h.tags n
  allocator n := (allocator_setQueue m n queue).trans (h.allocator n)
  secondsBeforeFree := h.secondsBeforeFree
  postpone := h.postpone

theorem setAllocator (h : Requeued q₀ q) (m : ℕ) :
    Requeued q₀ (q.setAllocator m (q.machine m).allocator) where
  job := h.job
  jobs := h.jobs
  machines := h.machines
  tags n := by
    rw [machine_setAllocator]
    split
    · next hn =>
      rw [hn]
      exact h.tags m
    · exact h.tags n
  allocator n := by
    rw [machine_setAllocator]
    split
    · next hn =>
      rw [hn]
      exact h.allocator m
    · exact h.allocator n
  secondsBeforeFree := h.secondsBeforeFree
  postpone := h.postpone

end Requeued

/-- The queues of a state in which none of the jobs that are `ahead` can be moved. -/
structure Stalled (q₀ : JobQueue) (w₀ : ω) (ahead : List ℕ) (t : JobQueue × ω) : Prop
    extends Requeued q₀ t.1 where
  stuck : ∀ m ∈ t.1.machines.values, Stuck q₀ ahead t.1 m
  world : t.2 = w₀

theorem alloc_noRoom (h : q.NoRoom j m) :
    wp (Allocator.alloc (q.job j).request)
      (fun res a => res = none ∧ a = (q.machine m).allocator) (fun _ _ => False)
      (q.machine m).allocator := by
  obtain ⟨hfree, hdenies⟩ := h
  simp only [alloc_eq, Allocator.checkFree, wp_bind, wp_state, hfree, List.length_nil, checkFreeLoop,
    wp_pure]
  exact wp_intro_ok hdenies ⟨rfl, rfl⟩

theorem stalled_rules (w₀ : ω) :
    ProcessRules cb (Stalled q₀ w₀ ahead) fun _ _ => False where
  alloc q w m j rest hI hh hp := by
    have hstuck := hI.stuck m hh.machine
    rw [Stuck, hh.queue] at hstuck
    have hroom : q.NoRoom j m := by
      unfold NoRoom
      rw [hI.job, hI.allocator]
      exact hstuck.2
    apply (alloc_noRoom hroom).mono _ fun _ _ he => he
    rintro res a ⟨rfl, rfl⟩
    refine ⟨hI.toRequeued.setAllocator m, fun n hn => ?_, hI.world⟩
    rw [Stuck, queue_setAllocator]
    exact hI.stuck n hn
  skip q w m j rest hI hh hp := by
    have hstuck := hI.stuck m hh.machine
    rw [Stuck, hh.queue] at hstuck
    have hpend := hstuck.1
    rw [← hI.job, hp] at hpend
    cases hpend

theorem Stuck.offered {others : List ℕ} (h : Stuck q₀ ahead q m) (hp : (q₀.job j).pending = true)
    (hfirst : (∃ i ∈ ahead, q₀.Eligible i m) ∨ q₀.NoRoom j m) :
    Stuck q₀ others (q.setQueue m ((q.machine m).queue ++ [j])) m := by
  unfold Stuck at h ⊢
  rw [machine_setQueue, if_pos rfl]
  cases hq : (q.machine m).queue with
  | nil =>
    rw [hq] at h
    refine ⟨hp, hfirst.resolve_left fun hbefore => ?_⟩
    obtain ⟨i, hi, hm⟩ := hbefore
    exact h i hi hm
  | cons k queue =>
    rw [hq] at h
    exact h

theorem Stuck.setQueue {n : ℕ} {queue : List ℕ} (h : Stuck q₀ ahead q n) (hn : n ≠ m) :
    Stuck q₀ ahead (q.setQueue m queue) n := by
  rw [Stuck, machine_setQueue, if_neg hn]
  exact h

theorem Stuck.passed (h : Stuck q₀ ahead q m) (hno : ¬q₀.Eligible j m) :
    Stuck q₀ (j :: ahead) q m := by
  unfold Stuck at h ⊢
  cases hq : (q.machine m).queue with
  | nil =>
    rw [hq] at h
    intro i hi
    obtain rfl | hi := List.mem_cons.mp hi
    · exact hno
    · exact h i hi
  | cons k queue =>
    rw [hq] at h
    exact h

theorem offer_stalled {w₀ : ω} {machines : List ℕ} (h : Stalled q₀ w₀ ahead (q, w))
    (hp : (q₀.job j).pending = true) (hcandidates : ∀ m ∈ machines, m ∈ q₀.candidates j)
    (htells : ∀ m ∈ machines, ∃ possible,
      (q₀.machine m).allocator.allocPossible (q₀.job j).request = .ok possible)
    (hfirst : ∀ m, q₀.Eligible j m → (∃ i ∈ ahead, q₀.Eligible i m) ∨ q₀.NoRoom j m)
    (hoffered : ∀ m ∈ q.machines.values, m ∉ machines → Stuck q₀ (j :: ahead) q m) :
    wp (offer j machines) (fun found t => Stalled q₀ w₀ (j :: ahead) t ∧
      ((∃ m ∈ machines, q₀.Eligible j m) → found = true)) (fun _ _ => False) (q, w) := by
  induction machines generalizing q with
  | nil =>
    refine ⟨⟨h.toRequeued, fun m hm => hoffered m hm List.not_mem_nil, h.world⟩, ?_⟩
    rintro ⟨m, hm, -⟩
    cases hm
  | cons m machines ih =>
    obtain ⟨possible, hposs⟩ := htells m List.mem_cons_self
    have hcand := hcandidates m List.mem_cons_self
    have hcandidates' := fun n hn => hcandidates n (List.mem_cons_of_mem m hn)
    have htells' := fun n hn => htells n (List.mem_cons_of_mem m hn)
    simp only [offer, wp_bind, wp_queue]
    rw [h.job, h.allocator m, hposs, wp_ofExcept_ok]
    cases possible with
    | false =>
      have hno : ¬q₀.Eligible j m := by
        rintro ⟨-, he⟩
        rw [hposs] at he
        cases he
      apply (ih h hcandidates' htells' fun n hn hnot => ?_).mono _ fun _ _ he => he
      · intro found t ht
        refine ⟨ht.1, fun hsome => ht.2 ?_⟩
        obtain ⟨n, hn, he⟩ := hsome
        obtain rfl | hn := List.mem_cons.mp hn
        · exact absurd he hno
        · exact ⟨n, hn, he⟩
      · by_cases hnm : n = m
        · subst hnm
          exact (h.stuck n hn).passed hno
        · exact hoffered n hn fun hin => (List.mem_cons.mp hin).elim hnm hnot
    | true =>
      have hyes : q₀.Eligible j m := ⟨hcand, hposs⟩
      simp only [if_true, wp_bind, wp_change]
      have hqueued : Stalled q₀ w₀ ahead (q.setQueue m ((q.machine m).queue ++ [j]), w) := by
        refine ⟨h.toRequeued.setQueue m _, fun n hn => ?_, h.world⟩
        by_cases hnm : n = m
        · subst hnm
          exact (h.stuck n hn).offered hp (hfirst n hyes)
        · exact (h.stuck n hn).setQueue hnm
      apply (ih hqueued hcandidates' htells' fun n hn hnot => ?_).mono _ fun _ _ he => he
      · exact fun _ t ht => ⟨ht.1, fun _ => rfl⟩
      · by_cases hnm : n = m
        · subst hnm
          exact (h.stuck n hn).offered hp (hfirst n hyes)
        · exact (hoffered n hn fun hin => (List.mem_cons.mp hin).elim hnm hnot).setQueue hnm

def Untouched (q₀ : JobQueue) (w₀ : ω) (t : JobQueue × ω) : Prop :=
  t.2 = w₀ ∧ t.1.secondsBeforeFree = q₀.secondsBeforeFree

theorem Stalled.untouched {w₀ : ω} {t : JobQueue × ω} (h : Stalled q₀ w₀ ahead t) :
    Untouched q₀ w₀ t := ⟨h.world, h.secondsBeforeFree⟩

theorem enqueueJob_refused {w₀ : ω} (h : Stalled q₀ w₀ ahead (q, w)) (hpost : q.postpone = 0)
    {e : Error} (he : q₀.Refuses j e) :
    wp (enqueueJob cb j) (fun _ _ => False) (fun _ => Untouched q₀ w₀) (q, w) := by
  simp only [enqueueJob, wp_bind, wp_queue]
  rw [if_neg fun hne => hne hpost, wp_bind, h.job]
  cases hname : hashable (q₀.job j).machineName with
  | error e => exact h.untouched
  | ok _ =>
    obtain hhash | ⟨m, hm, hposs⟩ := he
    · rw [hname] at hhash
      cases hhash
    rw [wp_ofExcept_ok, wp_bind]
    apply offer_raises (I := fun q => q.secondsBeforeFree = q₀.secondsBeforeFree)
    · rw [h.candidates, h.job]
      refine ⟨m, hm, e, ?_⟩
      rw [h.allocator]
      exact hposs
    · exact h.secondsBeforeFree
    · exact fun _ _ _ hs => hs
    · exact fun _ _ hs => ⟨h.world, hs⟩

theorem enqueueJob_stalled {w₀ : ω} (h : Stalled q₀ w₀ ahead (q, w)) (hpost : q.postpone = 0)
    (hp : (q₀.job j).pending = true) (hno : ¬∃ e, q₀.Refuses j e) (hsome : ∃ m, q₀.Eligible j m)
    (hfirst : ∀ m, q₀.Eligible j m → (∃ i ∈ ahead, q₀.Eligible i m) ∨ q₀.NoRoom j m) :
    wp (enqueueJob cb j) (fun _ => Stalled q₀ w₀ (j :: ahead)) (fun _ _ => False) (q, w) := by
  have htells : ∀ m ∈ q₀.candidates j, ∃ possible,
      (q₀.machine m).allocator.allocPossible (q₀.job j).request = .ok possible := by
    intro m hm
    cases hposs : (q₀.machine m).allocator.allocPossible (q₀.job j).request with
    | error e => exact absurd ⟨e, .inr ⟨m, hm, hposs⟩⟩ hno
    | ok possible => exact ⟨possible, rfl⟩
  have hoffered : ∀ m ∈ q.machines.values, m ∉ q₀.candidates j → Stuck q₀ (j :: ahead) q m :=
    fun m hm hnot => (h.stuck m hm).passed fun he => hnot he.1
  simp only [enqueueJob, wp_bind, wp_queue]
  rw [if_neg fun hne => hne hpost, wp_bind, h.job, h.candidates]
  cases hname : hashable (q₀.job j).machineName with
  | error e => exact absurd ⟨e, .inl hname⟩ hno
  | ok _ =>
    rw [wp_ofExcept_ok, wp_bind]
    apply (offer_stalled h hp (fun _ hm => hm) htells hfirst hoffered).mono _ fun _ _ he => he
    rintro found ⟨q', w'⟩ ⟨hstalled, hfound⟩
    obtain ⟨m, hm⟩ := hsome
    rw [hfound ⟨m, hm.1, hm⟩]
    exact processQueue_wp (stalled_rules w₀) hstalled

theorem regenerateLoop_stalls {w₀ : ω} (h : Stalled q₀ w₀ ahead (q, w)) (hpost : q.postpone = 0)
    (hl : q₀.Stalls ahead l) :
    wp (regenerateLoop cb l) (fun _ => Untouched q₀ w₀) (fun _ => Untouched q₀ w₀) (q, w) := by
  induction l generalizing ahead q w with
  | nil => exact h.untouched
  | cons j rest ih =>
    unfold Stalls at hl
    simp only [regenerateLoop, wp_bind, wp_queue]
    rw [h.job]
    cases hp : (q₀.job j).pending with
    | false =>
      rw [hp, if_neg Bool.false_ne_true] at hl
      simp only [Bool.false_eq_true, if_false, wp_bind, wp_queue]
      rw [if_neg fun hne => hne.1 rfl]
      exact ih h hpost hl
    | true =>
      rw [hp, if_pos rfl] at hl
      rw [if_pos rfl, wp_bind]
      by_cases hrefuses : ∃ e, q₀.Refuses j e
      · obtain ⟨e, he⟩ := hrefuses
        exact (enqueueJob_refused h hpost he).mono (fun _ _ hf => hf.elim) fun _ _ he => he
      · obtain ⟨hsome, hfirst, hrest⟩ := hl.resolve_left hrefuses
        apply (enqueueJob_stalled h hpost hp hrefuses hsome hfirst).mono _ fun _ _ hf => hf.elim
        rintro _ ⟨q', w'⟩ hstalled
        have hkeys : q'.jobs.keys = q.jobs.keys := congrArg Dict.keys (hstalled.jobs.trans h.jobs.symm)
        simp only [wp_bind, wp_queue]
        rw [if_neg fun hne => hne.1 hkeys]
        exact ih hstalled (hstalled.postpone.trans (h.postpone.symm.trans hpost)) hrest

theorem regenerateQueues_stalls (hl : q.postpone = 0 → q.Stalls [] q.jobs.values) :
    wp (regenerateQueues cb) (fun _ => Untouched q w) (fun _ => Untouched q w) (q, w) := by
  simp only [regenerateQueues, wp_bind, wp_queue]
  split
  · exact ⟨rfl, rfl⟩
  · next hpost =>
    rw [not_not] at hpost
    rw [wp_bind, wp_change]
    have hcleared : Stalled q w [] (q.cleared, w) := by
      refine ⟨⟨rfl, rfl, rfl, fun m => ?_, fun m => ?_, rfl, rfl⟩, fun m hm => ?_, rfl⟩
      · rw [machine_cleared]
        split <;> rfl
      · rw [machine_cleared]
        split <;> rfl
      · have hin : m ∈ q.machines.values := hm
        rw [Stuck, machine_cleared, if_pos hin]
        exact fun i hi => absurd hi List.not_mem_nil
    exact regenerateLoop_stalls hcleared hpost (hl hpost)

end SpallocServer.JobQueue
