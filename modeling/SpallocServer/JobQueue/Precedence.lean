import SpallocServer.JobQueue.Order

namespace SpallocServer.JobQueue

open Foundation Prog Allocator

/-- Jobs with the same request and the same wishes for a machine. -/
def Alike (q : JobQueue) (i j : ℕ) : Prop :=
  (q.job i).machineName = (q.job j).machineName ∧ (q.job i).tags = (q.job j).tags ∧
    (q.job i).request = (q.job j).request

/-- The job `id` was allocated on the machine after the events `pre` of a call, and every job that
was created before it and still pending then is not eligible for the machine. -/
def Uncontested (s : JobQueue × List Event) (q : JobQueue) (pre : List Event) (id : ℕ)
    (name : String) : Prop :=
  ∃ m j, q.machines.get? name = some m ∧ q.jobs.get? id = some j ∧ (q.job j).machine = some m ∧
    q.Eligible j m ∧ ∀ i < j, (s.1.job i).pending = true → (∀ e ∈ pre, e.id ≠ (s.1.job i).id) →
      ¬q.Eligible i m

/-- The `new` events since the state `s` tell which jobs are still pending. -/
structure Told (s : JobQueue × List Event) (new : List Event) (u : JobQueue × List Event) :
    Prop where
  log : u.2 = s.2 ++ new
  id : ∀ i, (s.1.job i).pending = true → (u.1.job i).id = (s.1.job i).id
  pending : ∀ i, (s.1.job i).pending = true →
    ((u.1.job i).pending = true ↔ ∀ e ∈ new, e.id ≠ (s.1.job i).id)
  turn : ∀ pre id name boards periphery torus post,
    new = pre ++ .allocated id name boards periphery torus :: post →
      Uncontested s u.1 pre id name

def Unplaced (new : List Event) : Prop := ∀ e ∈ new, e.kind ≠ .allocate

structure Ordered (q : JobQueue) : Prop where
  linked : q.Linked
  sorted : q.jobs.values.Pairwise (· < ·)
  turn : ∀ i j, i < j → j < q.nextJob → q.Alike i j → (q.job i).pending = true →
    (q.job j).machine = none

variable {s u : JobQueue × List Event} {q q' : JobQueue} {new log : List Event} {e : Event}
  {i j m id : ℕ}

theorem Unplaced.append (h : Unplaced new) (he : e.kind ≠ .allocate) :
    Unplaced (new ++ [e]) := by
  intro e' he'
  obtain he' | he' := List.mem_append.mp he'
  · exact h e' he'
  · obtain rfl := List.mem_singleton.mp he'
    exact he

theorem Unplaced.not_allocated (h : Unplaced new) {pre post : List Event} {name : String}
    {boards : Finset Board} {periphery : Finset BoardLink} {torus : WrapAround}
    (hnew : new = pre ++ .allocated id name boards periphery torus :: post) : False :=
  h (.allocated id name boards periphery torus)
    (hnew ▸ List.mem_append_right _ List.mem_cons_self) rfl

theorem told_start (s : JobQueue × List Event) : Told s [] s where
  log := (List.append_nil _).symm
  id _ _ := rfl
  pending i hi := by simpa using hi
  turn pre id name boards periphery torus post hnew := by simp at hnew

theorem Told.congr (h : Told s new (q, log))
    (hid : ∀ i, (s.1.job i).pending = true → (q'.job i).id = (q.job i).id)
    (hp : ∀ i, (s.1.job i).pending = true → (q'.job i).pending = (q.job i).pending)
    (hturn : Unplaced new ∨ Fixed q q' ∧ (∀ j m, (q.job j).machine = some m →
      (q'.job j).machine = some m ∧
        ∀ id, q.jobs.get? id = some j → q'.jobs.get? id = some j)) :
    Told s new (q', log) where
  log := h.log
  id i hi := (hid i hi).trans (h.id i hi)
  pending i hi := by
    rw [← h.pending i hi]
    exact iff_of_eq (congrArg (· = true) (hp i hi))
  turn pre id name boards periphery torus post hnew := by
    obtain hsilent | ⟨hf, hkept⟩ := hturn
    · exact (hsilent.not_allocated hnew).elim
    · obtain ⟨m, j, hm, hj, hjm, he, hrest⟩ := h.turn pre id name boards periphery torus post hnew
      obtain ⟨hjm', hget⟩ := hkept j m hjm
      refine ⟨m, j, ?_, hget id hj, hjm', hf.eligible.mpr he, fun i hi hp hpre hei => ?_⟩
      · dsimp only
        rw [hf.machines]
        exact hm
      · exact hrest i hi hp hpre (hf.eligible.mp hei)

theorem Told.event (h : Told s new (q, log)) (hl : q.Linked) (hj : (q.job j).pending = true)
    (hid : e.id = (q.job j).id) (hids : ∀ i, (q'.job i).id = (q.job i).id)
    (hp : ∀ i, (q'.job i).pending = true ↔ i ≠ j ∧ (q.job i).pending = true)
    (hf : Fixed q q') (hkept : ∀ k m, (q.job k).machine = some m →
      (q'.job k).machine = some m ∧ ∀ id, q.jobs.get? id = some k → q'.jobs.get? id = some k)
    (hturn : ∀ id name boards periphery torus, e = .allocated id name boards periphery torus →
      Uncontested s q' new id name) :
    Told s (new ++ [e]) (q', log ++ [e]) where
  log := by
    have hlog : log = s.2 ++ new := h.log
    dsimp only
    rw [hlog, List.append_assoc]
  id i hi := (hids i).trans (h.id i hi)
  pending i hi := by
    have hpi : (q.job i).pending = true ↔ ∀ e ∈ new, e.id ≠ (s.1.job i).id := h.pending i hi
    have hidi : (q.job i).id = (s.1.job i).id := h.id i hi
    dsimp only
    rw [hp, hpi]
    simp only [List.mem_append, List.mem_singleton, or_imp, forall_and, forall_eq]
    rw [and_comm]
    apply and_congr_right
    intro hnew
    rw [hid, ← hidi, not_iff_not]
    constructor
    · exact fun he => by rw [he]
    · intro he
      have hki := hl.known i (hpi.mpr hnew)
      rw [← he, hl.known j hj] at hki
      exact (Option.some.inj hki).symm
  turn pre id name boards periphery torus post hnew := by
    obtain ⟨rest, hpre, hrest⟩ | ⟨rest, hpre, hrest⟩ := List.append_eq_append_iff.mp hnew
    · cases rest with
      | nil =>
        obtain ⟨he, -⟩ := List.cons.inj (hrest : [e] = _)
        rw [List.append_nil] at hpre
        rw [hpre]
        exact hturn id name boards periphery torus he
      | cons e' rest => simp at hrest
    · cases rest with
      | nil =>
        obtain ⟨he, -⟩ := List.cons.inj (hrest : _ = [e])
        rw [List.append_nil] at hpre
        rw [← hpre]
        exact hturn id name boards periphery torus he.symm
      | cons e' rest =>
        obtain ⟨he', -⟩ := List.cons.inj (hrest : _ = e' :: (rest ++ [e]))
        have hnew' : new = pre ++ .allocated id name boards periphery torus :: rest := by
          rw [hpre, he']
        obtain ⟨m, k, hm, hk, hkm, hek, hless⟩ :=
          h.turn pre id name boards periphery torus rest hnew'
        obtain ⟨hkm', hget⟩ := hkept k m hkm
        refine ⟨m, k, ?_, hget id hk, hkm', hf.eligible.mpr hek, fun i hi hpi hno hei => ?_⟩
        · dsimp only
          rw [hf.machines]
          exact hm
        · exact hless i hi hpi hno (hf.eligible.mp hei)

theorem Fixed.alike (h : Fixed q q') : q'.Alike i j ↔ q.Alike i j := by
  simp only [Alike, h.machineName, h.jobTags, h.request]

theorem Alike.eligible (h : q.Alike i j) : q.Eligible i m ↔ q.Eligible j m := by
  obtain ⟨hname, htags, hreq⟩ := h
  simp only [Eligible, JobQueue.candidates, hname, htags, hreq]

theorem Ordered.congr (h : q.Ordered) (hs : SameBooks q q') : q'.Ordered where
  linked := h.linked.congr hs
  sorted := by
    rw [hs.jobs]
    exact h.sorted
  turn i j hij hj ha := by
    rw [hs.nextJob] at hj
    simp only [Alike, hs.job] at ha
    rw [hs.job]
    exact h.turn i j hij hj ha

theorem Ordered.fewer (h : q.Ordered) (hl : q'.Linked) (hf : Fixed q q')
    (hjobs : q'.jobs.values.Sublist q.jobs.values)
    (hp : ∀ i, (q'.job i).pending = true → (q.job i).pending = true)
    (hturn : ∀ i k, i < k → q.Alike i k → (q'.job i).pending = true →
      (q.job k).machine = none → (q'.job k).machine = none) : q'.Ordered where
  linked := hl
  sorted := h.sorted.sublist hjobs
  turn i k hik hk ha hpi := by
    rw [hf.nextJob] at hk
    have ha' := hf.alike.mp ha
    exact hturn i k hik ha' hpi (h.turn i k hik hk ha' (hp i hpi))

theorem Ordered.cancelled (h : q.Ordered) (hp : (q.job j).pending = true) :
    ((q.withdrawn j).dropped (q.job j).id).Ordered := by
  apply h.fewer (h.linked.cancelled hp) ((fixed_withdrawn q j).trans (fixed_dropped _ _))
    (Dict.values_erase_sublist _ _) (fun i hi => (pending_withdrawn hi).2)
  intro i k _ _ _ hk
  dsimp only [dropped]
  rw [job_withdrawn]
  split
  · exact hk
  · exact hk

theorem Ordered.placed {l rest : List ℕ} {al : Allocation} {b : Allocator} (h : q.Ordered)
    (hlined : q.Lined rest) (hh : q.Head m j l) (hp : (q.job j).pending = true)
    (hr : Registers (q.machine m).allocator (some al) b) :
    ((q.setAllocator m b).placed j m al.id).Ordered := by
  apply h.fewer (h.linked.placed_new hp hh.machine hr)
    ((fixed_setAllocator hr.setup).trans (fixed_placed _ _ _ _)) (List.Sublist.refl _)
    (fun i hi => (pending_placed hi).2)
  intro i k hik ha hpi hk
  rw [job_placed]
  split
  · next hkj =>
    subst hkj
    obtain ⟨-, he⟩ := hlined.queued m hh.machine k (hh.queue ▸ List.mem_cons_self) hp
    exact absurd (ha.eligible.mpr he) (hlined.head_first hh hp hik (pending_placed hpi).2)
  · exact hk

/-- The state of a call under way: what was told since `s`, in order. -/
def Attended (s u : JobQueue × List Event) : Prop := u.1.Ordered ∧ ∃ new, Told s new u

theorem Linked.machine_of_get (h : q.Linked) (hm : m ∈ q.machines.values) :
    q.machines.get? (q.machine m).name = some m := by
  obtain ⟨name, hname⟩ := Dict.mem_values.mp hm
  rwa [(h.names name m hname).1]

theorem Attended.congr (h : Attended s (q, log)) (hs : SameBooks q q') (hf : Fixed q q') :
    Attended s (q', log) := by
  obtain ⟨ho, new, ht⟩ := h
  refine ⟨ho.congr hs, new, ht.congr (fun i _ => ?_) (fun i _ => ?_) (.inr ⟨hf, fun j m hj => ?_⟩)⟩
  · rw [hs.job]
  · rw [hs.job]
  · rw [hs.job, hs.jobs]
    exact ⟨hj, fun _ hid => hid⟩

theorem Attended.placed {l rest : List ℕ} {al : Allocation} {b : Allocator}
    (h : Attended s (q, log)) (hlined : q.Lined rest) (hh : q.Head m j l)
    (hp : (q.job j).pending = true) (hr : Registers (q.machine m).allocator (some al) b) :
    Attended s ((q.setAllocator m b).placed j m al.id,
      log ++ [.allocated (q.job j).id (q.machine m).name al.boards al.periphery al.torus]) := by
  obtain ⟨ho, new, ht⟩ := h
  have hf := (fixed_setAllocator hr.setup).trans (fixed_placed (q.setAllocator m b) j m al.id)
  have hjob (i : ℕ) := job_placed (q.setAllocator m b) i j m al.id
  refine ⟨ho.placed hlined hh hp hr, new ++ [_], ht.event (j := j) ho.linked hp rfl (fun i => ?_)
    (fun i => ?_) hf (fun k n hk => ?_) fun id name boards periphery torus he => ?_⟩
  · rw [hjob]
    split <;> rfl
  · constructor
    · exact pending_placed
    · rintro ⟨hij, hi⟩
      rw [hjob, if_neg hij]
      exact hi
  · rw [hjob, if_neg]
    · exact ⟨hk, fun _ hid => hid⟩
    · rintro rfl
      rw [(ho.linked.unplaced k hp).1] at hk
      cases hk
  · injection he with hid hname
    subst hid hname
    obtain ⟨-, hej⟩ := hlined.queued m hh.machine j (hh.queue ▸ List.mem_cons_self) hp
    refine ⟨m, j, ho.linked.machine_of_get hh.machine, ho.linked.known j hp, ?_,
      hf.eligible.mpr hej, fun i hi hpi hno he => ?_⟩
    · rw [hjob, if_pos rfl]
    · exact hlined.head_first hh hp hi ((ht.pending i hpi).mpr hno) (hf.eligible.mp he)

theorem Attended.cancelled (h : Attended s (q, log)) (hp : (q.job j).pending = true)
    (hid : e.id = (q.job j).id) (hk : e.kind ≠ .allocate) :
    Attended s ((q.withdrawn j).dropped (q.job j).id, log ++ [e]) := by
  obtain ⟨ho, new, ht⟩ := h
  refine ⟨ho.cancelled hp, new ++ [e], ht.event (j := j) ho.linked hp hid (fun i => ?_)
    (fun i => ?_) ((fixed_withdrawn q j).trans (fixed_dropped _ _)) (fun k n hkn => ?_)
    fun id name boards periphery torus he => ?_⟩
  · dsimp only [dropped]
    rw [job_withdrawn]
    split <;> rfl
  · constructor
    · exact pending_withdrawn
    · rintro ⟨hij, hi⟩
      dsimp only [dropped]
      rw [job_withdrawn, if_neg hij]
      exact hi
  · have hkj : k ≠ j := by
      rintro rfl
      rw [(ho.linked.unplaced k hp).1] at hkn
      cases hkn
    constructor
    · dsimp only [dropped]
      rw [job_withdrawn, if_neg hkj]
      exact hkn
    · intro id hget
      dsimp only [dropped, withdrawn, setJob]
      rw [Dict.get?_erase, if_neg]
      · exact hget
      · rintro rfl
        rw [ho.linked.known j hp] at hget
        exact hkj (Option.some.inj hget).symm
  · rw [he] at hk
    exact absurd rfl hk

theorem Linked.lt_nextJob (h : q.Linked) (hp : (q.job j).pending = true) : j < q.nextJob :=
  (h.ids _ j (h.known j hp)).2

theorem attended_rules (s : JobQueue × List Event) :
    LineRules recorder (Attended s) fun _ _ => True where
  alloc q w m j l rest h hlined hh hp := by
    apply (alloc_registers _ _).mono _ fun _ _ _ => trivial
    intro res a hr
    cases res with
    | none => exact h.congr (sameBooks_setAllocator (hr.none rfl)) (fixed_setAllocator hr.setup)
    | some al => exact h.placed hlined hh hp hr
  queue q w m l h := h.congr (sameBooks_setQueue m l) (fixed_setQueue q m l)
  known q w j h hp := ⟨h.1.linked.known j hp, h.1.linked.lt_nextJob hp⟩
  names q w h := Dict.values_nodup fun _ _ _ hn hn' =>
    (h.1.linked.names _ _ hn).1.symm.trans (h.1.linked.names _ _ hn').1
  refused _ _ _ _ _ _ _ := trivial
  cancel q w j h hp _ := h.cancelled hp rfl nofun

/-- Nothing was allocated since `s`. -/
def Silent (s u : JobQueue × List Event) : Prop :=
  u.1.Ordered ∧ ∃ new, Told s new u ∧ Unplaced new

theorem Silent.attended (h : Silent s u) : Attended s u := by
  obtain ⟨ho, new, ht, -⟩ := h
  exact ⟨ho, new, ht⟩

theorem silent_start (h : s.1.Ordered) : Silent s s := ⟨h, [], told_start s, nofun⟩

theorem Silent.changed (h : Silent s (q, log)) (ho : q'.Ordered)
    (hid : ∀ i, (s.1.job i).pending = true → (q'.job i).id = (q.job i).id)
    (hp : ∀ i, (s.1.job i).pending = true → (q'.job i).pending = (q.job i).pending) :
    Silent s (q', log) := by
  obtain ⟨-, new, ht, hnew⟩ := h
  exact ⟨ho, new, ht.congr hid hp (.inl hnew), hnew⟩

theorem Silent.same (h : Silent s (q, log)) (ho : q'.Ordered) (hjob : q'.job = q.job) :
    Silent s (q', log) := by
  apply h.changed ho
  · exact fun i _ => by rw [hjob]
  · exact fun i _ => by rw [hjob]

theorem Silent.released (h : Silent s (q, log)) (hget : q.jobs.get? id = some j)
    (hp : (q.job j).pending = false) (hid : e.id = id) (hk : e.kind ≠ .allocate) :
    Silent s (q, log ++ [e]) := by
  obtain ⟨ho, new, ht, hnew⟩ := h
  refine ⟨ho, new ++ [e], ⟨?_, ht.id, fun i hi => ?_, fun pre id name boards periphery torus post
    he => (hnew.append hk).not_allocated he |>.elim⟩, hnew.append hk⟩
  · have hlog : log = s.2 ++ new := ht.log
    dsimp only
    rw [hlog, List.append_assoc]
  · rw [ht.pending i hi]
    simp only [List.mem_append, List.mem_singleton, or_imp, forall_and, forall_eq]
    constructor
    · intro hno
      refine ⟨hno, fun he => ?_⟩
      have hpi : (q.job i).pending = true := (ht.pending i hi).mpr hno
      have hidi : (q.job i).id = (s.1.job i).id := ht.id i hi
      have hki := ho.linked.known i hpi
      rw [hidi, ← he, hid, hget] at hki
      rw [← Option.some.inj hki, hp] at hpi
      cases hpi
    · exact fun hno => hno.1

theorem Silent.cancelled (h : Silent s (q, log)) (hp : (q.job j).pending = true)
    (hid : e.id = (q.job j).id) (hk : e.kind ≠ .allocate) :
    Silent s ((q.withdrawn j).dropped (q.job j).id, log ++ [e]) := by
  obtain ⟨ho, new, ht, hnew⟩ := h
  obtain ⟨-, new', ht'⟩ := Attended.cancelled ⟨ho, new, ht⟩ hp hid hk
  obtain rfl : new' = new ++ [e] := by
    have hlog : log ++ [e] = s.2 ++ new' := ht'.log
    have hold : log = s.2 ++ new := ht.log
    rw [hold, List.append_assoc] at hlog
    exact (List.append_cancel_left hlog).symm
  exact ⟨ho.cancelled hp, _, ht', hnew.append hk⟩

structure Thinned (q q' : JobQueue) : Prop extends Onward q q' where
  queue : ∀ m, (q'.machine m).queue = (q.machine m).queue

theorem Thinned.lined {rest : List ℕ} (h : Thinned q q') (hl : q.Lined rest) : q'.Lined rest :=
  hl.fewer h.toFixed h.queue h.pending

theorem Ordered.freed {a : ℕ} {b : Allocator} (h : q.Ordered) (hj : q.jobs.get? id = some j)
    (hh : q.Holds j m a) (hr : b.Registry) (hsame : SameSetup (q.machine m).allocator b)
    (hty : b.allocationTypes = (q.machine m).allocator.allocationTypes.erase a) :
    ((q.dropped id).setAllocator m b).Ordered :=
  h.fewer (h.linked.freed hj hh hr hty)
    ((fixed_dropped q id).trans (fixed_setAllocator (q := q.dropped id) hsame))
    (Dict.values_erase_sublist _ _) (fun _ hi => hi) fun _ _ _ _ _ hk => hk

theorem destroyJob_silent {Q : Unit → JobQueue × List Event → Prop} {reason : Option String}
    (h : Silent s (q, log))
    (hprocess : ∀ t, Silent s t → Thinned q t.1 → wp (processQueue recorder) Q (fun _ _ => True) t) :
    wp (destroyJob recorder id reason) Q (fun _ _ => True) (q, log) := by
  apply destroyJob_wp (I := fun t => Silent s t ∧ Thinned q t.1)
  · exact fun t ht => hprocess t ht.1 ht.2
  · exact fun _ => trivial
  · intro j hj hp
    obtain rfl := (h.1.linked.ids id j hj).1
    exact ⟨h.cancelled hp rfl nofun, ⟨(fixed_withdrawn q j).trans (fixed_dropped _ _),
      fun i hi => (pending_withdrawn hi).2⟩, fun _ => rfl⟩
  · intro j hj hp
    obtain rfl := (h.1.linked.ids id j hj).1
    exact ⟨h.released hj hp rfl nofun, .refl q, fun _ => rfl⟩

theorem free_silent {Q : Unit → JobQueue × List Event → Prop} (h : Silent s (q, log))
    (hunknown : q.jobs.get? id = none → Q () (q, log))
    (hprocess : ∀ t, Silent s t → Thinned q t.1 → wp (processQueue recorder) Q (fun _ _ => True) t) :
    wp (free recorder id) Q (fun _ _ => True) (q, log) := by
  apply free_wp (I := fun t => Silent s t ∧ Thinned q t.1)
  · exact fun t ht => hprocess t ht.1 ht.2
  · exact hunknown
  · exact fun _ _ _ => trivial
  · exact fun _ _ _ => trivial
  · intro j m a hj hm ha
    have hh : q.Holds j m a := ⟨hm, ha⟩
    have hp := h.1.linked.pending_of_holds hh
    obtain ⟨n, hn, _, hh'⟩ := h.1.linked.placed j (Dict.mem_values.mpr ⟨id, hj⟩) hp
    obtain rfl := Option.some.inj (hm.symm.trans hh'.1)
    apply (free_registry (h.1.linked.registry m hn) a).mono _ fun _ _ _ => trivial
    rintro _ b ⟨-, hr, hsame, hty⟩
    have hf := (fixed_dropped q id).trans (fixed_setAllocator (q := q.dropped id) hsame)
    exact ⟨h.same (h.1.freed hj hh hr hsame hty) rfl, ⟨hf, fun _ hi => hi⟩,
      fun n => queue_setAllocator m n b⟩

/-- What holds after a call that began in the state `s`. -/
structure Done (s u : JobQueue × List Event) : Prop where
  attended : Attended s u
  depth : 0 ≤ u.1.postpone
  lined : u.1.postpone = 0 → u.1.Lined []

structure Ready (u : JobQueue × List Event) : Prop where
  ordered : u.1.Ordered
  depth : 0 ≤ u.1.postpone
  lined : u.1.postpone = 0 → u.1.Lined []

theorem Done.ready (h : Done s u) : Ready u := ⟨h.attended.1, h.depth, h.lined⟩

theorem processQueue_done (h : Attended s u) (hd : 0 ≤ u.1.postpone)
    (hl : u.1.postpone = 0 → u.1.Lined []) :
    wp (processQueue recorder) (fun _ => Done s) (fun _ _ => True) u := by
  by_cases hpost : u.1.postpone = 0
  · apply (processQueue_line (attended_rules s) ⟨h, hl hpost, .refl u.1, rfl⟩).mono _
      fun _ _ _ => trivial
    exact fun _ v hv => ⟨hv.base, hd.trans_eq hv.onward.postpone.symm, fun _ => hv.lined⟩
  · exact processQueue_postponed hpost ⟨h, hd, hl⟩

theorem regenerateQueues_done (h : Silent s u) (hd : 0 ≤ u.1.postpone) :
    wp (regenerateQueues recorder) (fun _ => Done s) (fun _ _ => True) u := by
  obtain ⟨q, log⟩ := u
  by_cases hpost : q.postpone = 0
  · have hcleared : Attended s (q.cleared, log) :=
      h.attended.congr sameBooks_cleared (onward_cleared q).toFixed
    apply (regenerateQueues_line (attended_rules s) hcleared hpost
      (fun j hj => h.1.linked.mem hj) h.1.sorted (.inl fun _ => trivial)).mono _
      fun _ _ _ => trivial
    exact fun _ v hv => ⟨hv.1, hd.trans_eq hv.2.postpone.symm, fun _ => hv.2.lined⟩
  · simp only [regenerateQueues, wp_bind, wp_queue]
    rw [if_pos hpost]
    exact ⟨h.attended, hd, fun h0 => absurd h0 hpost⟩

theorem job_created (q : JobQueue) (job : Job) (i : ℕ) :
    (q.created job).job i = if i = q.nextJob then job else q.job i := job_setJob i q.nextJob job

theorem Ordered.created (h : q.Ordered) (job : Job) (hp : job.pending = true)
    (hm : job.machine = none) (ha : job.allocationId = none)
    (hnone : q.jobs.get? job.id = none) : (q.created job).Ordered where
  linked := h.linked.created job hp hm ha hnone
  sorted := by
    have hv : (q.created job).jobs.values = q.jobs.values ++ [q.nextJob] :=
      Dict.values_set_new hnone q.nextJob
    rw [hv, List.pairwise_append]
    refine ⟨h.sorted, List.pairwise_singleton _ _, fun i hi j hj => ?_⟩
    obtain rfl := List.mem_singleton.mp hj
    obtain ⟨id, hid⟩ := Dict.mem_values.mp hi
    exact (h.linked.ids id i hid).2
  turn i j hij hj halike hpi := by
    rw [job_created]
    split
    · exact hm
    · next hne =>
      have hlt : j < q.nextJob := lt_of_le_of_ne (Nat.le_of_lt_succ hj) hne
      have hi : i ≠ q.nextJob := by omega
      simp only [Alike, job_created, if_neg hi, if_neg hne] at halike
      rw [job_created, if_neg hi] at hpi
      exact h.turn i j hij hlt halike hpi

theorem Lined.created (h : q.Lined []) (hl : q.Linked) (job : Job) :
    (q.created job).Lined [q.nextJob] := by
  have hjob (i : ℕ) := job_created q job i
  have hcand (i m : ℕ) (hi : i ≠ q.nextJob) : (q.created job).Eligible i m ↔ q.Eligible i m := by
    have hcandidates : (q.created job).candidates i = q.candidates i := by
      unfold candidates
      rw [hjob, if_neg hi]
      rfl
    rw [Eligible, Eligible, hcandidates, hjob, if_neg hi]
    rfl
  have hold (m i : ℕ) (hm : m ∈ q.machines.values) (hi : i ∈ (q.machine m).queue) :
      i ≠ q.nextJob := Nat.ne_of_lt (h.made m hm i hi)
  refine ⟨fun m hm i hi => Nat.lt_succ_of_lt (h.made m hm i hi), fun m hm => ?_,
    fun m hm i hi hr he => ?_, fun m hm i hq hi => ?_, fun i hi hr j hj => ?_⟩
  · apply (h.sorted m hm).imp_of_mem
    intro i j hin hjn hij hi hj
    rw [hjob, if_neg (hold m i hm hin)] at hi
    rw [hjob, if_neg (hold m j hm hjn)] at hj
    exact hij hi hj
  · rw [List.mem_singleton] at hr
    rw [hjob, if_neg hr] at hi
    exact h.offered m hm i hi List.not_mem_nil ((hcand i m hr).mp he)
  · have hne := hold m i hm hq
    rw [hjob, if_neg hne] at hi
    rw [List.mem_singleton]
    exact ⟨hne, (hcand i m hne).mpr (h.queued m hm i hq hi).2⟩
  · obtain rfl := List.mem_singleton.mp hj
    rw [List.mem_singleton] at hr
    rw [hjob, if_neg hr] at hi
    exact hl.lt_nextJob hi

theorem createJob_done {id : Option ℕ} {machine : Option MachineName} {tags : Option Tags}
    {request : Request} (h : Ready s) :
    wp (createJob recorder id machine tags request) (fun _ => Done s) (fun _ _ => True) s := by
  obtain ⟨q, log⟩ := s
  simp only [createJob, wp_bind, wp_queue]
  cases id with
  | none => trivial
  | some id =>
    dsimp only
    split
    · trivial
    next hnone =>
    rw [wp_bind]
    cases jobTags machine tags with
    | error e => trivial
    | ok tags =>
    rw [wp_ofExcept_ok, wp_bind, wp_change]
    have hget : q.jobs.get? id = none := Option.not_isSome_iff_eq_none.mp hnone
    have hnew (i : ℕ) (hi : (q.job i).pending = true) : i ≠ q.nextJob :=
      Nat.ne_of_lt (h.ordered.linked.lt_nextJob hi)
    generalize hjob : Job.mk id true machine tags request none none = job
    have ho : (q.created job).Ordered := by
      subst hjob
      exact h.ordered.created _ rfl rfl rfl hget
    have hs : Silent (q, log) (q.created job, log) := by
      apply (silent_start h.ordered).changed ho
      · exact fun i hi => by rw [job_created, if_neg (hnew i hi)]
      · exact fun i hi => by rw [job_created, if_neg (hnew i hi)]
    have hp : ((q.created job).job q.nextJob).pending = true := by
      rw [job_created, if_pos rfl, ← hjob]
    by_cases hpost : q.postpone = 0
    · have hl := (h.lined hpost).created h.ordered.linked job
      apply (enqueueJob_line (attended_rules (q, log)) ⟨hs.attended, hl, .refl _, rfl⟩
        (List.pairwise_singleton _ _) hp hpost).mono _ fun _ _ _ => trivial
      exact fun _ v hv => ⟨hv.1, h.depth.trans_eq hv.2.2.postpone.symm, fun _ => hv.2.1⟩
    · simp only [enqueueJob, wp_bind, wp_queue]
      have hpost' : (q.created job).postpone ≠ 0 := hpost
      rw [if_pos hpost']
      exact ⟨hs.attended, h.depth, fun h0 => absurd h0 hpost⟩

theorem Thinned.done (h : Thinned s.1 u.1) (hs : Ready s) (ha : Silent s u) :
    wp (processQueue recorder) (fun _ => Done s) (fun _ _ => True) u := by
  apply processQueue_done ha.attended
  · exact hs.depth.trans_eq h.postpone.symm
  · exact fun hpost => h.lined (hs.lined (h.postpone.symm.trans hpost))

theorem checkFree_done (h : Ready s) :
    wp (checkFree recorder) (fun _ => Done s) (fun _ _ => True) s := by
  have ha := (silent_start h.ordered).attended
  by_cases hpost : s.1.postpone = 0
  · have hline : Line (Attended s) s.1 [] s := ⟨ha, h.lined hpost, .refl s.1, rfl⟩
    have hcheck : wp (checkFree recorder) (fun _ => Line (Attended s) s.1 [])
        (fun _ _ => True) s := by
      apply checkFree_wp (line_rules (attended_rules s) s.1 []) _ hline
      intro q log m hI _
      apply (checkFree_passes _).mono _ fun _ _ _ => trivial
      intro _ a hp
      have hf := fixed_setAllocator hp.setup
      exact ⟨hI.base.congr (sameBooks_setAllocator hp) hf,
        hI.lined.fewer hf (fun n => queue_setAllocator m n a) fun _ hi => hi,
        hI.onward.trans ⟨hf, fun _ hi => hi⟩, hI.jobs⟩
    apply hcheck.mono _ fun _ _ _ => trivial
    exact fun _ v hv => ⟨hv.base, h.depth.trans_eq hv.onward.postpone.symm, fun _ => hv.lined⟩
  · simp only [checkFree, wp_bind, wp_queue]
    rw [if_pos hpost]
    exact ⟨ha, h.depth, h.lined⟩

theorem Ordered.linked_changed (h : q.Ordered) (hl : q'.Linked) (hjob : q'.job = q.job)
    (hjobs : q'.jobs = q.jobs) (hnext : q'.nextJob = q.nextJob) : q'.Ordered where
  linked := hl
  sorted := by
    rw [hjobs]
    exact h.sorted
  turn := by
    simp only [Alike, hjob, hnext]
    exact h.turn

theorem removeMachine_done {name : String} (h : Ready s) :
    wp (removeMachine recorder name) (fun _ => Done s) (fun _ _ => True) s := by
  obtain ⟨q, log⟩ := s
  have hdepth : 0 ≤ q.postpone := h.depth
  apply removeMachine_sweeps (F := fun _ _ => True)
    (K := fun _ t => Agrees q.machines (q.postpone + 1) t ∧ Silent (q, log) t)
  · exact fun id j hj => (h.ordered.linked.ids id j hj).1
  · exact fun _ => trivial
  · intro m _
    have hlinked : ({ q with postpone := q.postpone + 1 } : JobQueue).Linked :=
      h.ordered.linked.congr ⟨rfl, rfl, rfl, fun _ => rfl, rfl, fun _ => rfl, fun _ => rfl,
        fun _ => rfl, fun _ => rfl⟩
    exact ⟨⟨hlinked, rfl, rfl⟩,
      (silent_start h.ordered).same (h.ordered.linked_changed hlinked rfl rfl rfl) rfl⟩
  · intro m j rest t _ hs ht hj
    obtain ⟨q', log'⟩ := t
    obtain ⟨ha, hsilent⟩ := ht
    have hpost : q'.postpone ≠ 0 := by
      have hpost := ha.postpone
      dsimp only at hpost
      omega
    have hturn : wp (destroyJob recorder (q.job j).id (some "Machine removed.") >>= fun _ =>
        free recorder (q.job j).id) (fun _ => Silent (q, log)) (fun _ _ => True) (q', log') := by
      rw [wp_bind]
      apply destroyJob_silent hsilent
      intro t ht hthin
      have hpost' := hthin.postpone.trans_ne hpost
      apply processQueue_postponed hpost'
      apply free_silent ht
      · exact fun _ => ht
      · exact fun v hv hthin' => processQueue_postponed (hthin'.postpone.trans_ne hpost') hv
    have hswept := sweep_agrees recorder_quiet (some "Machine removed.") ha (by omega)
      (hs.known j List.mem_cons_self) (hs.job ▸ hj)
    exact (hturn.and hswept).mono (fun _ _ ht => ⟨⟨ht.2.1, ht.1⟩, ht.2.2⟩) fun _ _ _ => trivial
  · intro m t hm hs ht
    obtain ⟨q', log'⟩ := t
    obtain ⟨ha, hsilent⟩ := ht
    obtain ⟨hl, -⟩ := ha.linked.erased (hs.machines ▸ hm) fun j => hs.left
    have hl' : ({ q' with
        machines := q'.machines.erase name
        postpone := q'.postpone - 1 } : JobQueue).Linked :=
      hl.congr ⟨rfl, rfl, rfl, fun _ => rfl, rfl, fun _ => rfl, fun _ => rfl, fun _ => rfl,
        fun _ => rfl⟩
    simp only [exit, wp_bind, wp_change]
    apply regenerateQueues_done
    · exact hsilent.same (hsilent.1.linked_changed hl' rfl rfl rfl) rfl
    · have hpost : q'.postpone = q.postpone + 1 := ha.postpone
      dsimp only
      omega
  · exact fun _ _ _ => wp_trivial _

theorem exec_done {call : JobQueueCall} (h : Ready s) (hexit : call = .exit → 0 < s.1.postpone) :
    wp (call.exec recorder) (fun _ => Done s) (fun _ _ => True) s := by
  obtain ⟨q, log⟩ := s
  have hs := silent_start h.ordered
  have hsame : Done (q, log) (q, log) := ⟨hs.attended, h.depth, h.lined⟩
  cases call with
  | createJob id machine tags request => exact createJob_done h
  | destroyJob id reason => exact destroyJob_silent hs fun t ht hthin => hthin.done h ht
  | free id => exact free_silent hs (fun _ => hsame) fun t ht hthin => hthin.done h ht
  | checkFree => exact checkFree_done h
  | addMachine name width height tags deadBoards deadLinks =>
    change wp (addMachine recorder name width height tags deadBoards deadLinks) _ _ _
    simp only [addMachine, wp_bind, wp_queue]
    split
    · trivial
    next hnone =>
    rw [wp_bind, wp_change]
    have hl := h.ordered.linked.added (Option.not_isSome_iff_eq_none.mp hnone) width height tags
      deadBoards deadLinks
    exact regenerateQueues_done (hs.same (h.ordered.linked_changed hl rfl rfl rfl) rfl) h.depth
  | modifyMachine name tags deadBoards deadLinks =>
    change wp (modifyMachine recorder name tags deadBoards deadLinks) _ _ _
    simp only [modifyMachine, wp_bind, wp_queue]
    cases q.machines.get? name with
    | none => trivial
    | some m =>
      dsimp only
      rw [wp_bind, wp_change]
      have ho := h.ordered.congr (sameBooks_modified m tags deadBoards deadLinks)
      exact regenerateQueues_done (hs.same ho rfl) h.depth
  | moveMachineToEnd name =>
    change wp (moveMachineToEnd name) _ _ _
    simp only [moveMachineToEnd, wp_bind, wp_queue]
    split
    · trivial
    have hget (n : String) : (q.machines.moveToEnd name).get? n = q.machines.get? n :=
      Dict.get?_moveToEnd _ _ _
    have hmem (m : ℕ) : m ∈ (q.machines.moveToEnd name).values ↔ m ∈ q.machines.values := by
      simp only [Dict.mem_values, hget]
    have hsb : SameBooks q { q with machines := q.machines.moveToEnd name } :=
      ⟨rfl, rfl, rfl, hget, rfl, fun _ => rfl, fun _ => rfl, fun _ => rfl, fun _ => rfl⟩
    have heligible (j m : ℕ) :
        ({ q with machines := q.machines.moveToEnd name } : JobQueue).Eligible j m ↔
          q.Eligible j m := by
      apply and_congr_left'
      unfold candidates
      dsimp only
      cases (q.job j).machineName with
      | none => simp only [List.mem_filter, hmem]
      | some name =>
        cases name with
        | name n => simp only [hget]
        | unhashable type => rfl
    refine ⟨(hs.same (h.ordered.congr hsb) rfl).attended, h.depth, fun hpost => ?_⟩
    have hl := h.lined hpost
    exact ⟨fun m hm => hl.made m ((hmem m).mp hm), fun m hm => hl.sorted m ((hmem m).mp hm),
      fun m hm j hj hr he => hl.offered m ((hmem m).mp hm) j hj hr ((heligible j m).mp he),
      fun m hm j hj hp => (hl.queued m ((hmem m).mp hm) j hj hp).imp_right (heligible j m).mpr,
      hl.first⟩
  | removeMachine name => exact removeMachine_done h
  | enter =>
    have ho : ({ q with postpone := q.postpone + 1 } : JobQueue).Ordered :=
      h.ordered.congr ⟨rfl, rfl, rfl, fun _ => rfl, rfl, fun _ => rfl, fun _ => rfl,
        fun _ => rfl, fun _ => rfl⟩
    have hdepth : 0 ≤ q.postpone := h.depth
    refine ⟨(hs.same ho rfl).attended, ?_, fun hpost => ?_⟩
    · exact hdepth.trans (Int.le_add_one le_rfl)
    · have hzero : q.postpone + 1 = 0 := hpost
      omega
  | exit =>
    change wp (exit recorder) _ _ _
    simp only [exit, wp_bind, wp_change]
    have ho : ({ q with postpone := q.postpone - 1 } : JobQueue).Ordered :=
      h.ordered.congr ⟨rfl, rfl, rfl, fun _ => rfl, rfl, fun _ => rfl, fun _ => rfl,
        fun _ => rfl, fun _ => rfl⟩
    exact regenerateQueues_done (hs.same ho rfl) (Int.le_sub_one_of_lt (hexit rfl))

/-- The call does not raise, and blocks are left only after they are entered. -/
def Completes (s : JobQueue × List Event) (call : JobQueueCall) : Prop :=
  (∃ s', (call.exec recorder).run s = (.ok (), s')) ∧ (call = .exit → 0 < s.1.postpone)

theorem reachable_ready {c : Schedule.Setup}
    (h : ((system recorder c []).restrict Completes).Reachable s) : Ready s := by
  apply h.invariant
  · rintro _ rfl
    refine ⟨⟨⟨nofun, nofun, nofun, nofun, nofun, nofun, nofun, nofun⟩, List.Pairwise.nil,
      fun _ _ _ _ _ _ => rfl⟩, le_rfl, fun _ => ⟨nofun, nofun, nofun, nofun, nofun⟩⟩
  · rintro s call _ - hs ⟨⟨⟨s', hrun⟩, hexit⟩, rfl⟩
    rw [hrun]
    exact (wp_of_eq_ok (exec_done hs hexit) hrun).ready

/-- When a job is allocated on a machine, no job that was created earlier is still pending and
eligible for it. So jobs that are alike are allocated in the order in which they were created. -/
theorem no_overtaking {c : Schedule.Setup} {s s' : JobQueue × List Event} {call : JobQueueCall}
    (h : ((system recorder c []).restrict Completes).Reachable s)
    (hexit : call = .exit → 0 < s.1.postpone) (hrun : (call.exec recorder).run s = (.ok (), s')) :
    (∃ new, s'.2 = s.2 ++ new ∧ ∀ pre id name boards periphery torus post,
        new = pre ++ .allocated id name boards periphery torus :: post →
          Uncontested s s'.1 pre id name) ∧
      ∀ i j, i < j → j < s'.1.nextJob → s'.1.Alike i j → (s'.1.job i).pending = true →
        (s'.1.job j).machine = none := by
  obtain ⟨⟨ho, new, ht⟩, -, -⟩ := wp_of_eq_ok (exec_done (reachable_ready h) hexit) hrun
  exact ⟨⟨new, ht.log, ht.turn⟩, ho.turn⟩

theorem reachable_completes {c : Schedule.Setup}
    (h : ((system recorder c []).restrict Completes).Reachable s) (call : JobQueueCall)
    (hok : ((call.exec recorder).run s).1.isOk) (hexit : call ≠ .exit) :
    ((system recorder c []).restrict Completes).Reachable ((call.exec recorder).run s).2 :=
  .next h ⟨⟨run_of_isOk hok, fun he => absurd he hexit⟩, rfl⟩

def twoWaiting : List JobQueueCall :=
  [.addMachine "m" 1 1 none ∅ ∅, .createJob (some 1) none none { args := .one (.int 3) },
    .createJob (some 2) none none { args := .one (.int 3) },
    .createJob (some 3) none none { args := .one (.int 3) }, .destroyJob 1 none]

theorem no_overtaking_twoWaiting :
    ∃ s', ((JobQueueCall.free 1).exec recorder).run (runs recorder empty twoWaiting) =
        (.ok (), s') ∧ history s'.2 2 = [.allocate] ∧ history s'.2 3 = [] ∧
      ∀ i j, i < j → j < s'.1.nextJob → s'.1.Alike i j → (s'.1.job i).pending = true →
        (s'.1.job j).machine = none := by
  have h0 : ((system recorder Schedule.Setup.quiet []).restrict Completes).Reachable empty :=
    .start rfl
  have h1 := reachable_completes h0 (.addMachine "m" 1 1 none ∅ ∅) (by decide +kernel) nofun
  have h2 := reachable_completes h1 (.createJob (some 1) none none { args := .one (.int 3) })
    (by decide +kernel) nofun
  have h3 := reachable_completes h2 (.createJob (some 2) none none { args := .one (.int 3) })
    (by decide +kernel) nofun
  have h4 := reachable_completes h3 (.createJob (some 3) none none { args := .one (.int 3) })
    (by decide +kernel) nofun
  have h5 : ((system recorder Schedule.Setup.quiet []).restrict Completes).Reachable
      (runs recorder empty twoWaiting) :=
    reachable_completes h4 (.destroyJob 1 none) (by decide +kernel) nofun
  have hlog : history (((JobQueueCall.free 1).exec recorder).run
        (runs recorder empty twoWaiting)).2.2 2 = [.allocate] ∧
      history (((JobQueueCall.free 1).exec recorder).run
        (runs recorder empty twoWaiting)).2.2 3 = [] := by
    decide +kernel
  obtain ⟨s', hrun⟩ := run_of_isOk (m := (JobQueueCall.free 1).exec recorder)
    (s := runs recorder empty twoWaiting) (by decide +kernel)
  rw [hrun] at hlog
  have hexit : JobQueueCall.free 1 = .exit → 0 < (runs recorder empty twoWaiting).1.postpone :=
    nofun
  exact ⟨s', hrun, hlog.1, hlog.2, (no_overtaking h5 hexit hrun).2⟩

end SpallocServer.JobQueue
