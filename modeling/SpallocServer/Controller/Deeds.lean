import SpallocServer.Controller.Roster

namespace SpallocServer.Controller

open Foundation Prog JobQueue

variable {q : JobQueue} {c c' c₀ : Controller} {t : JobQueue × Controller} {id k : ℕ}
  {depth : ℤ}

/-- When a job is kept alive now, it times out then. -/
def due (c : Controller) (seconds : Option ℚ) : Option Keepalive :=
  seconds.map fun seconds => ⟨seconds, c.clock c.reads + seconds⟩

def ticked (c : Controller) (seconds : Option ℚ) : ℕ :=
  c.reads + if seconds.isSome then 1 else 0

def enlisted (c : Controller) (owner : String) (seconds : Option ℚ) (host : Option String) :
    Controller :=
  Controller.createdJob { c with nextId := c.nextId + 1, reads := c.ticked seconds } c.nextId owner
    (c.due seconds) host

/-- The seconds a job may go without being kept alive. -/
def patience (c : Controller) (id : ℕ) : Option ℚ := (c.job id).keepalive.map (·.keepalive)

def kept (c : Controller) (id : ℕ) (host : Option String) : Controller :=
  c.refreshed id (host <|> (c.job id).lasthost) (c.due (c.patience id)) (c.ticked (c.patience id))

def told (c : Controller) (id : ℕ) (name : String) (machine : Configuration.Machine)
    (boards : Finset Board) (periphery : Finset BoardLink) (torus : WrapAround) :
    Option ((ℤ × ℤ) × Option (Dict (ℤ × ℤ) String)) → Controller
  | none => c.assigned id name machine boards periphery torus
  | some (size, none) => (c.assigned id name machine boards periphery torus).sized id size
  | some (size, some connections) =>
    c.prepared id name machine boards periphery torus size connections

/-- What is done at once. -/
inductive Deed where
  | note
  | arrange
  | read
  | enlist (owner : String) (seconds : Option ℚ) (host : Option String)
  | tell (id : ℕ) (name : String) (machine : Configuration.Machine) (boards : Finset Board)
    (periphery : Finset BoardLink) (torus : WrapAround)
    (shape : Option ((ℤ × ℤ) × Option (Dict (ℤ × ℤ) String)))
  | keep (id : ℕ) (host : Option String)
  | await (id n : ℕ)
  | power (id : ℕ) (on : Bool)
  | retire (id : ℕ) (reason : Option String)
  | uncount (id : ℕ)
  | ready (id : ℕ)
  | limit (value : ℕ)

structure Notes (c c' : Controller) : Prop where
  nextId : c'.nextId = c.nextId
  jobs : c'.jobs = c.jobs
  job : c'.job = c.job
  maxRetiredJobs : c'.maxRetiredJobs = c.maxRetiredJobs
  retiredJobs : c'.retiredJobs = c.retiredJobs
  clock : c'.clock = c.clock
  reads : c'.reads = c.reads
  changedJobs : c.changedJobs ⊆ c'.changedJobs
  changedMachines : c.changedMachines ⊆ c'.changedMachines

theorem Notes.refl (c : Controller) : Notes c c :=
  ⟨rfl, rfl, rfl, rfl, rfl, rfl, rfl, Finset.Subset.refl _, Finset.Subset.refl _⟩

/-- The state after a deed. A job is told about its boards once, it has boards when it is powered
or ready, and it is with the machine that is recorded when it goes. -/
def Deed.does (c c' : Controller) : Deed → Prop
  | .note => Notes c c' ∧ c'.machines = c.machines
  | .arrange => Notes c c'
  | .read => c' = { c with reads := c.reads + 1 }
  | .enlist owner seconds host => c' = c.enlisted owner seconds host
  | .tell id name machine boards periphery torus shape =>
    id ∈ c.jobs ∧ (c.job id).boards = none ∧ c.machines.get? name = some machine ∧
      c' = c.told id name machine boards periphery torus shape
  | .keep id host => id ∈ c.jobs ∧ c' = c.kept id host
  | .await id n => (c.job id).boards ≠ none ∧ c' = c.counted id n
  | .power id on => (c.job id).boards ≠ none ∧ c' = c.powering id on
  | .retire id reason =>
    id ∈ c.jobs ∧ c.retiredJobs.get? id = none ∧
      ((c.job id).boards ≠ none →
        ∃ machine, (c.job id).allocatedMachine = some machine ∧ machine.name ∈ c.changedMachines) ∧
      c' = c.retired id reason
  | .uncount id => c' = c.uncounted id
  | .ready id =>
    (c.job id).bmpRequestsUntilReady = 1 ∧ c' = (c.uncounted id).readied id
  | .limit value => c' = c.limited value

/-- No job comes or goes, no job that has been started is kept alive, and the machines are as
before. -/
def Deed.Routine (c : Controller) : Deed → Prop
  | .arrange | .enlist .. | .retire .. | .limit _ => False
  | .keep id _ => (c.job id).power = none
  | _ => True

def deeds : System Controller Deed where
  init _ := True
  step c d c' := d.does c c'

def Does (ok : Controller → Deed → Prop) : Controller → Controller → Prop :=
  (deeds.restrict ok).Path

namespace Does

variable {ok : Controller → Deed → Prop}

theorem refl (c : Controller) : Does ok c c := Relation.ReflTransGen.refl

theorem trans {c'' : Controller} (h : Does ok c c') (h' : Does ok c' c'') : Does ok c c'' :=
  Relation.ReflTransGen.trans h h'

theorem step {d : Deed} (h : Does ok c₀ c) (hok : ok c d) (hd : d.does c c') : Does ok c₀ c' :=
  System.Path.step h ⟨hok, hd⟩

theorem relates {R : Controller → Controller → Prop} (h : Does ok c c') (hrefl : ∀ c, R c c)
    (htrans : ∀ c c' c'', R c c' → R c' c'' → R c c'')
    (hstep : ∀ c d c', ok c d → d.does c c' → R c c') : R c c' :=
  System.Path.relates (M := deeds.restrict ok) hrefl htrans
    (fun c d c' hs => hstep c d c' hs.1 hs.2) h

theorem invariant {I : Controller → Prop} (h : Does ok c c') (hc : I c)
    (hstep : ∀ c d c', I c → ok c d → d.does c c' → I c') : I c' :=
  h.relates (R := fun c c' => I c → I c') (fun _ h => h) (fun _ _ _ h h' h0 => h' (h h0))
    (fun c d c' hok hd hI => hstep c d c' hI hok hd) hc

theorem mono {ok' : Controller → Deed → Prop} (h : Does ok c c') (hok : ∀ c d, ok c d → ok' c d) :
    Does ok' c c' :=
  Relation.ReflTransGen.mono (fun _ _ hs => hs.imp fun _ hd => ⟨hok _ _ hd.1, hd.2⟩) _ _ h

end Does

/-- What a deed makes of a job. -/
inductive Turn : Job → Job → Prop where
  | same {job} : Turn job job
  | tell {job machine boards periphery torus width height connections} : job.boards = none →
    Turn job { job with
      allocatedMachine := some machine
      boards := some boards
      periphery := some periphery
      torus := some torus
      width := width
      height := height
      connections := connections }
  | keep {job lasthost keepalive} :
    keepalive.map (·.keepalive) = job.keepalive.map (·.keepalive) →
    Turn job { job with lasthost := lasthost, keepalive := keepalive }
  | await {job} (n : ℕ) : job.boards ≠ none →
    Turn job { job with bmpRequestsUntilReady := job.bmpRequestsUntilReady + n }
  | power {job on} : job.boards ≠ none → Turn job { job with state := .power, power := some on }
  | uncount {job} : Turn job { job with bmpRequestsUntilReady := job.bmpRequestsUntilReady - 1 }
  | ready {job} : job.bmpRequestsUntilReady = 1 → Turn job { job with
    bmpRequestsUntilReady := job.bmpRequestsUntilReady - 1
    state := .ready }

theorem job_told (c : Controller) (id : ℕ) (name : String) (machine : Configuration.Machine)
    (boards : Finset Board) (periphery : Finset BoardLink) (torus : WrapAround)
    (shape : Option ((ℤ × ℤ) × Option (Dict (ℤ × ℤ) String))) : ∃ width height connections, ∀ k,
      (c.told id name machine boards periphery torus shape).job k =
        if k = id then { c.job id with
          allocatedMachine := some machine
          boards := some boards
          periphery := some periphery
          torus := some torus
          width := width
          height := height
          connections := connections } else c.job k := by
  match shape with
  | none => exact ⟨_, _, _, fun k => job_assigned⟩
  | some (size, none) =>
    refine ⟨some size.1, some size.2, (c.job id).connections, fun k => ?_⟩
    rw [told, sized, job_setJob, job_assigned, if_pos rfl]
    split
    · rfl
    · next hk => rw [job_assigned, if_neg hk]
  | some (size, some connections) => exact ⟨_, _, _, fun k => job_prepared⟩

theorem Turn.of_job {job : Job} (h : Turn (c.job id) job)
    (hjob : ∀ k, c'.job k = if k = id then job else c.job k) (k : ℕ) :
    Turn (c.job k) (c'.job k) := by
  rw [hjob]
  split
  · next hk => rwa [hk]
  · exact .same

theorem field_of_job {β : Type} (f : Job → β) {job : Job}
    (hjob : ∀ k, c'.job k = if k = id then job else c.job k) (hf : f job = f (c.job id)) (k : ℕ) :
    f (c'.job k) = f (c.job k) := by
  rw [hjob]
  split
  · next hk => rw [hk, hf]
  · rfl

/-- The jobs that are there, and those that are not any more, are as before. A job that is kept
alive is kept alive at the time that is read. -/
structure Still (d : Deed) (c c' : Controller) : Prop where
  nextId : c'.nextId = c.nextId
  jobs : c'.jobs = c.jobs
  retiredJobs : c'.retiredJobs = c.retiredJobs
  maxRetiredJobs : c'.maxRetiredJobs = c.maxRetiredJobs
  clock : c'.clock = c.clock
  reads : c.reads ≤ c'.reads
  job : ∀ k, Turn (c.job k) (c'.job k)
  keepalive : ∀ k, (c'.job k).keepalive = (c.job k).keepalive ∨
    (∃ host, d = .keep k host) ∧ (c'.job k).keepalive = c.due (c.patience k) ∧ c.reads < c'.reads
  boards : ∀ k ∉ c.jobs, (c'.job k).boards = (c.job k).boards

theorem Still.of_job {d : Deed} {job : Job} (hn : c'.nextId = c.nextId) (hj : c'.jobs = c.jobs)
    (hr : c'.retiredJobs = c.retiredJobs) (hm : c'.maxRetiredJobs = c.maxRetiredJobs)
    (hc : c'.clock = c.clock) (hreads : c'.reads = c.reads) (hturn : Turn (c.job id) job)
    (hjob : ∀ k, c'.job k = if k = id then job else c.job k)
    (hkeep : job.keepalive = (c.job id).keepalive)
    (hboards : id ∉ c.jobs → job.boards = (c.job id).boards) : Still d c c' := by
  refine ⟨hn, hj, hr, hm, hc, hreads.ge, Turn.of_job hturn hjob,
    fun k => .inl (field_of_job (·.keepalive) hjob hkeep k), fun k hk => ?_⟩
  rw [hjob]
  split
  · next hid =>
    rw [hid] at hk ⊢
    exact hboards hk
  · rfl

theorem Notes.still (h : Notes c c') (d : Deed) : Still d c c' := by
  refine ⟨h.nextId, h.jobs, h.retiredJobs, h.maxRetiredJobs, h.clock, h.reads.ge, fun k => ?_,
    fun k => .inl ?_, fun k _ => ?_⟩
  · rw [h.job]
    exact .same
  · rw [h.job]
  · rw [h.job]

theorem still_kept (c : Controller) (id : ℕ) (host : Option String) :
    Still (.keep id host) c (c.kept id host) := by
  have hjob (k : ℕ) : (c.kept id host).job k = if k = id then { c.job id with
      lasthost := host <|> (c.job id).lasthost
      keepalive := c.due (c.patience id) } else c.job k := job_refreshed _ _ _
  refine ⟨rfl, rfl, rfl, rfl, rfl, Nat.le_add_right _ _, Turn.of_job (.keep ?_) hjob, fun k => ?_,
    fun k _ => field_of_job (·.boards) hjob rfl k⟩
  · unfold due patience
    cases (c.job id).keepalive <;> rfl
  · rw [hjob]
    split
    · next hk =>
      rw [hk]
      cases halive : (c.job id).keepalive with
      | none =>
        left
        simp [due, patience, halive]
      | some alive =>
        refine .inr ⟨⟨host, rfl⟩, rfl, ?_⟩
        change c.reads < c.reads + _
        simp [patience, halive]
    · exact .inl rfl

theorem Deed.still {d : Deed} (h : d.does c c') : Still d c c' ∨
    (∃ owner seconds host, d = .enlist owner seconds host) ∨
    (∃ id reason, d = .retire id reason) ∨ ∃ value, d = .limit value := by
  cases d with
  | enlist owner seconds host => exact .inr (.inl ⟨owner, seconds, host, rfl⟩)
  | retire id reason => exact .inr (.inr (.inl ⟨id, reason, rfl⟩))
  | limit value => exact .inr (.inr (.inr ⟨value, rfl⟩))
  | note => exact .inl (h.1.still _)
  | arrange => exact .inl (Notes.still h _)
  | read =>
    obtain rfl := h
    exact .inl ⟨rfl, rfl, rfl, rfl, rfl, Nat.le_succ _, fun _ => .same, fun _ => .inl rfl,
      fun _ _ => rfl⟩
  | tell id name machine boards periphery torus shape =>
    obtain ⟨hid, hb, -, rfl⟩ := h
    obtain ⟨width, height, connections, hjob⟩ :=
      job_told c id name machine boards periphery torus shape
    have hlive {p : Prop} (hno : id ∉ c.jobs) : p := absurd hid hno
    left
    match shape with
    | none => exact .of_job rfl rfl rfl rfl rfl rfl (.tell hb) hjob rfl hlive
    | some (size, none) => exact .of_job rfl rfl rfl rfl rfl rfl (.tell hb) hjob rfl hlive
    | some (size, some connections) => exact .of_job rfl rfl rfl rfl rfl rfl (.tell hb) hjob rfl hlive
  | keep id host =>
    obtain ⟨-, rfl⟩ := h
    exact .inl (still_kept c id host)
  | await id n =>
    obtain ⟨hb, rfl⟩ := h
    exact .inl (.of_job rfl rfl rfl rfl rfl rfl (.await n hb) (fun k => job_setJob c id k _) rfl
      fun _ => rfl)
  | power id on =>
    obtain ⟨hb, rfl⟩ := h
    exact .inl (.of_job rfl rfl rfl rfl rfl rfl (.power hb) (fun k => job_setJob c id k _) rfl
      fun _ => rfl)
  | uncount id =>
    obtain rfl := h
    exact .inl (.of_job rfl rfl rfl rfl rfl rfl .uncount (fun k => job_setJob c id k _) rfl
      fun _ => rfl)
  | ready id =>
    obtain ⟨hone, rfl⟩ := h
    refine .inl (.of_job rfl rfl rfl rfl rfl rfl (.ready hone) (fun k => ?_) rfl fun _ => rfl)
    rw [readied, job_setJob, job_uncounted, if_pos rfl, job_uncounted]
    split <;> rfl

theorem Deed.turn {d : Deed} (h : d.does c c') :
    (∀ k, Turn (c.job k) (c'.job k)) ∨
      ∃ owner seconds host, d = .enlist owner seconds host := by
  obtain hstill | henlist | ⟨id, reason, rfl⟩ | ⟨value, rfl⟩ := Deed.still h
  · exact .inl hstill.job
  · exact .inr henlist
  · obtain ⟨-, -, -, rfl⟩ := h
    exact .inl fun _ => .same
  · obtain rfl := h
    exact .inl fun _ => .same

structure InPlace (c : Controller) : Prop where
  machine : ∀ id, (c.job id).boards = none ↔ (c.job id).allocatedMachine = none
  power : ∀ id, (c.job id).boards = none → (c.job id).power = none

theorem Deed.inPlace {d : Deed} (hd : d.does c c') (h : InPlace c) : InPlace c' := by
  have hboth (k : ℕ) : ((c'.job k).boards = none ↔ (c'.job k).allocatedMachine = none) ∧
      ((c'.job k).boards = none → (c'.job k).power = none) := by
    have hk := And.intro (h.machine k) (h.power k)
    obtain hturn | ⟨owner, seconds, host, rfl⟩ := Deed.turn hd
    · have ht := hturn k
      generalize c.job k = job at hk ht
      generalize c'.job k = job' at ht ⊢
      cases ht with
      | tell => simp
      | power hb => exact ⟨hk.1, fun hn => absurd hn hb⟩
      | _ => exact hk
    · obtain rfl := hd
      rw [enlisted, job_createdJob]
      split
      · simp [Job.new]
      · exact hk
  exact ⟨fun k => (hboth k).1, fun k => (hboth k).2⟩

theorem Does.inPlace {ok : Controller → Deed → Prop} (hd : Does ok c c') (h : InPlace c) :
    InPlace c' := hd.invariant h fun _ _ _ hI _ hs => Deed.inPlace hs hI

def Lenient (ok : Controller → Deed → Prop) : Prop := ∀ c d, Deed.Routine c d → ok c d

section Methods

variable {ok : Controller → Deed → Prop}

theorem Does.routine (h : Does ok c₀ c) (hok : Lenient ok) {d : Deed} (hr : d.Routine c)
    (hd : d.does c c') : Does ok c₀ c' := h.step (hok c d hr) hd

theorem Does.noted (h : Does ok c₀ c) (hok : Lenient ok) (hn : Notes c c')
    (hm : c'.machines = c.machines) : Does ok c₀ c' :=
  h.routine hok (d := .note) trivial ⟨hn, hm⟩

theorem notes_sent (c : Controller) (l : List (ℕ × AtomicRequests)) : Notes c (c.sent l) :=
  ⟨rfl, rfl, rfl, rfl, rfl, rfl, rfl, Finset.Subset.refl _, Finset.Subset.refl _⟩

theorem boards_counted (c : Controller) (id n : ℕ) :
    ((c.counted id n).job id).boards = (c.job id).boards := by
  rw [counted, job_setJob, if_pos rfl]

theorem setJobPowerAndLinks_does {power : Bool} {linkEnable : Option Bool} (hok : Lenient ok)
    (h : Does ok c₀ c) (hb : (c.job id).boards ≠ none) :
    wp (setJobPowerAndLinks id power linkEnable) (fun _ => Does ok c₀) (fun _ => Does ok c₀) c := by
  have hcounted (n : ℕ) (l : List (ℕ × AtomicRequests)) :
      Does ok c₀ ((c.counted id n).sent l) := by
    have hawait := h.routine hok (d := .await id n) trivial ⟨hb, rfl⟩
    exact hawait.noted hok (notes_sent _ l) rfl
  apply setJobPowerAndLinks_wp
  · intro commands _
    have hsent := hcounted commands.entries.length commands.entries
    apply hsent.routine hok (d := .power id power) trivial
    exact ⟨(boards_counted c id _).trans_ne hb, rfl⟩
  · exact fun _ _ => h
  · exact fun commands l _ _ _ => hcounted commands.entries.length l

theorem jobKeepalive_kept {host : Option String} {Q : Unit → Controller → Prop}
    {E : Error → Controller → Prop} (hgone : id ∉ c.jobs → Q () c)
    (hlive : id ∈ c.jobs → Q () (c.kept id host)) : wp (jobKeepalive host id) Q E c := by
  simp only [jobKeepalive, wp_bind, wp_state]
  split
  · next hid =>
    have hkept := hlive hid
    simp only [updateKeepalive, wp_bind, wp_update, wp_state]
    have hpatience : ((c.setJob id { c.job id with
        lasthost := host <|> (c.job id).lasthost }).job id).keepalive = (c.job id).keepalive := by
      rw [job_setJob, if_pos rfl]
    rw [hpatience]
    unfold kept due ticked patience refreshed at hkept
    cases hk : (c.job id).keepalive with
    | none =>
      rw [hk] at hkept
      simpa [aliveUntil, setJob, Function.update_idem] using hkept
    | some alive =>
      rw [hk] at hkept
      simpa [aliveUntil, timestamp, setJob, Function.update_idem] using hkept
  · next hid => exact hgone hid

theorem jobKeepalive_does {host : Option String} (h : Does ok c₀ c)
    (hkeep : id ∈ c.jobs → ok c (.keep id host)) :
    wp (jobKeepalive host id) (fun _ => Does ok c₀) (fun _ => Does ok c₀) c := by
  apply jobKeepalive_kept
  · exact fun _ => h
  · exact fun hid => h.step (hkeep hid) (d := .keep id host) ⟨hid, rfl⟩

theorem setJobBoards_does {host : Option String} {power : Bool} {linkEnable : Option Bool}
    (hok : Lenient ok) (h : Does ok c₀ c) (hkeep : id ∈ c.jobs → ok c (.keep id host)) :
    wp (setJobBoards host id power linkEnable) (fun _ => Does ok c₀) (fun _ => Does ok c₀) c := by
  simp only [setJobBoards, wp_bind]
  apply (jobKeepalive_does h hkeep).mono _ fun _ _ he => he
  intro _ c' hc'
  rw [wp_bind, wp_state]
  split
  · next hb => exact setJobPowerAndLinks_does hok hc' hb.2
  · exact hc'

theorem onAllocate_does {name : String} {boards : Finset Board} {periphery : Finset BoardLink}
    {torus : WrapAround} (hok : Lenient ok) (h : Does ok c₀ c) (hb : (c.job id).boards = none)
    (hpower : (c.job id).power = none) :
    wp (onAllocate id name boards periphery torus) (fun _ => Does ok c₀) (fun _ => Does ok c₀)
      c := by
  simp only [onAllocate, wp_bind, wp_state]
  split
  · exact h
  next hid =>
  cases hm : c.machines.get? name with
  | none => exact h
  | some machine =>
    have htold (shape : Option ((ℤ × ℤ) × Option (Dict (ℤ × ℤ) String))) :
        Does ok c₀ (c.told id name machine boards periphery torus shape) :=
      h.routine hok (d := .tell id name machine boards periphery torus shape) trivial
        ⟨not_not.mp hid, hb, hm, rfl⟩
    simp only [wp_bind, wp_update]
    apply wp_ofExcept _ fun _ _ => htold none
    intro origin _
    rw [wp_bind]
    apply wp_ofExcept _ fun _ _ => htold none
    intro top _
    rw [wp_bind, wp_update, wp_bind]
    have hsize := htold (some (dimensions origin top boards torus, none))
    apply wp_ofExcept _ fun _ _ => hsize
    intro connections _
    rw [wp_bind, wp_update]
    apply setJobBoards_does hok
      (htold (some (dimensions origin top boards torus, some connections)))
    intro _
    apply hok
    obtain ⟨width, height, connections', hjob⟩ := job_told c id name machine boards periphery torus
      (some (dimensions origin top boards torus, some connections))
    exact (field_of_job (·.power) hjob rfl id).trans hpower

theorem teardownJob_does {reason : Option String} (hok : Lenient ok) (h : Does ok c₀ c)
    (hend : id ∈ c.jobs → ok c (.retire id reason)) (hnew : c.retiredJobs.get? id = none)
    (hnamed : (c.job id).boards ≠ none →
      ∃ machine, (c.job id).allocatedMachine = some machine ∧ machine.name ∈ c.changedMachines) :
    wp (teardownJob id reason) (fun _ => Does ok c₀) (fun _ => Does ok c₀) c := by
  have hretired (hid : id ∈ c.jobs) : Does ok c₀ (c.retired id reason) :=
    h.step (hend hid) ⟨hid, hnew, hnamed, rfl⟩
  apply teardownJob_wp
  · exact fun _ => h
  · exact fun hid _ => hretired hid
  · exact fun hid hb => setJobPowerAndLinks_does hok (hretired hid) hb

theorem onFree_does {reason : Option String} (hok : Lenient ok) (h : Does ok c₀ c)
    (hend : ∀ names, (c.job id).allocatedMachine ≠ none →
      ok { c with changedMachines := names } (.retire id reason))
    (hnew : c.retiredJobs.get? id = none) :
    wp (onFree id reason) (fun _ => Does ok c₀) (fun _ => Does ok c₀) c := by
  apply onFree_wp
  · exact fun _ => h
  · exact fun _ _ => h
  intro machine _ hm
  have hnamed : Notes c { c with changedMachines := insert machine.name c.changedMachines } :=
    { Notes.refl c with changedMachines := Finset.subset_insert _ _ }
  have hplace : (c.job id).allocatedMachine ≠ none := by
    rw [hm]
    exact Option.some_ne_none machine
  apply teardownJob_does hok (h.noted hok hnamed rfl) (fun _ => hend _ hplace) hnew
  exact fun _ => ⟨machine, hm, Finset.mem_insert_self _ _⟩

theorem onCancel_does {reason : Option String} (hok : Lenient ok) (h : Does ok c₀ c)
    (hend : id ∈ c.jobs → ok c (.retire id (some ("Cancelled: " ++ reason.getD ""))))
    (hnew : c.retiredJobs.get? id = none) (hb : (c.job id).boards = none) :
    wp (onCancel id reason) (fun _ => Does ok c₀) (fun _ => Does ok c₀) c :=
  teardownJob_does hok h hend hnew fun hne => absurd hb hne

end Methods

end SpallocServer.Controller
