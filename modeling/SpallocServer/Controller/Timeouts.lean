import SpallocServer.Controller.History
import SpallocServer.Controller.Reassignment

namespace SpallocServer.Controller

open Foundation Prog JobQueue

variable {q : JobQueue} {c c' c₀ : Controller} {t t' : JobQueue × Controller} {id k : ℕ}
  {depth : ℤ}

def Timely (c : Controller) : Prop :=
  ∀ id alive, (c.job id).keepalive = some alive →
    ∃ n < c.reads, alive.keepaliveUntil = c.clock n + alive.keepalive

/-- A job with this patience that is kept alive since the clock was read does not time out before
the deadline. -/
structure Patient (id : ℕ) (seconds deadline : ℚ) (c : Controller) : Prop where
  given : id < c.nextId
  monotone : Monotone c.clock
  timely : Timely c
  later : ∃ alive, (c.job id).keepalive = some alive ∧ alive.keepalive = seconds ∧
    deadline ≤ alive.keepaliveUntil
  now : ∀ n, c.reads ≤ n → deadline ≤ c.clock n + seconds

theorem due_eq_some {seconds : Option ℚ} {alive : Keepalive} (h : c.due seconds = some alive) :
    seconds = some alive.keepalive ∧ alive.keepaliveUntil = c.clock c.reads + alive.keepalive := by
  unfold due at h
  obtain ⟨seconds, rfl, rfl⟩ := Option.map_eq_some_iff.mp h
  exact ⟨rfl, rfl⟩

theorem Still.timely {d : Deed} (h : Still d c c') (ht : Timely c) : Timely c' := by
  intro k alive halive
  rw [h.clock]
  obtain hkeep | ⟨-, hkeep, hreads⟩ := h.keepalive k
  · rw [hkeep] at halive
    obtain ⟨n, hn, huntil⟩ := ht k alive halive
    exact ⟨n, hn.trans_le h.reads, huntil⟩
  · rw [hkeep] at halive
    exact ⟨c.reads, hreads, (due_eq_some halive).2⟩

theorem timely_enlisted {owner : String} {seconds : Option ℚ} {host : Option String}
    (ht : Timely c) : Timely (c.enlisted owner seconds host) := by
  intro k alive halive
  have hreads : c.reads ≤ (c.enlisted owner seconds host).reads := Nat.le_add_right _ _
  rw [enlisted, job_createdJob] at halive
  split at halive
  · obtain ⟨rfl, huntil⟩ := due_eq_some halive
    exact ⟨c.reads, Nat.lt_succ_self _, huntil⟩
  · obtain ⟨n, hn, huntil⟩ := ht k alive halive
    exact ⟨n, hn.trans_le hreads, huntil⟩

theorem Deed.timely {d : Deed} (hd : d.does c c') (h : Timely c) : Timely c' := by
  obtain hstill | ⟨owner, seconds, host, rfl⟩ | ⟨id, reason, rfl⟩ | ⟨value, rfl⟩ := Deed.still hd
  · exact hstill.timely h
  · obtain rfl := hd
    exact timely_enlisted h
  · obtain ⟨-, -, -, rfl⟩ := hd
    exact h
  · obtain rfl := hd
    exact h

theorem Deed.patient {d : Deed} {seconds deadline : ℚ} (hd : d.does c c')
    (h : Patient id seconds deadline c) : Patient id seconds deadline c' := by
  have htimely := Deed.timely hd h.timely
  obtain ⟨alive, halive, hseconds, hlater⟩ := h.later
  obtain hstill | ⟨owner, wait, host, rfl⟩ | ⟨k, reason, rfl⟩ | ⟨value, rfl⟩ := Deed.still hd
  · refine ⟨h.given.trans_eq hstill.nextId.symm, hstill.clock ▸ h.monotone, htimely, ?_,
      fun n hn => hstill.clock ▸ h.now n (hstill.reads.trans hn)⟩
    obtain hkeep | ⟨-, hkeep, -⟩ := hstill.keepalive id
    · exact ⟨alive, hkeep.trans halive, hseconds, hlater⟩
    · refine ⟨⟨seconds, c.clock c.reads + seconds⟩, ?_, rfl, h.now c.reads le_rfl⟩
      rw [hkeep, patience, halive, Option.map_some, hseconds]
      rfl
  · obtain rfl := hd
    refine ⟨h.given.trans (Nat.lt_succ_self _), h.monotone, htimely, ⟨alive, ?_, hseconds, hlater⟩,
      fun n hn => h.now n ((Nat.le_add_right _ _).trans hn)⟩
    rw [enlisted, job_createdJob, if_neg h.given.ne]
    exact halive
  · obtain ⟨-, -, -, rfl⟩ := hd
    exact ⟨h.given, h.monotone, htimely, ⟨alive, halive, hseconds, hlater⟩, h.now⟩
  · obtain rfl := hd
    exact ⟨h.given, h.monotone, htimely, ⟨alive, halive, hseconds, hlater⟩, h.now⟩

theorem reachable_timely {s : Setup} (h : (system s).Reachable t) :
    t.2.clock = s.time ∧ Timely t.2 := by
  apply h.invariant
  · rintro _ rfl
    exact ⟨rfl, fun _ _ halive => nomatch halive⟩
  · rintro t op _ hr ⟨hclock, htimely⟩ rfl
    obtain ⟨events, helapses, -⟩ := (next_does hr op).elapses
    exact ⟨helapses.clock.trans hclock,
      (next_does hr op).invariant htimely fun _ _ _ hI _ hd => Deed.timely hd hI⟩

/-- The operation ends the job: it is asked to, or the job has timed out, or its machine is not
kept, or a command for it has failed. -/
def Operation.Disturbs (t : JobQueue × Controller) (id : ℕ) : Operation → Prop
  | .destroyJob id' _ => id' = id
  | .destroyTimedOutJobs => ∃ alive, (t.2.job id).keepalive = some alive ∧
      alive.keepaliveUntil < t.2.clock t.2.reads
  | .setMachines machines => ∀ machine, (t.2.job id).allocatedMachine = some machine →
      ¬Keeps t.2 machines machine.name
  | .complete b success =>
    success = false ∧ ∃ r rest, (t.2.bmp b).requests = r :: rest ∧ r.onDone = id
  | _ => False

theorem Timely.patient (ht : Timely c) (hclock : Monotone c.clock) (hid : id < c.nextId)
    {alive : Keepalive} (halive : (c.job id).keepalive = some alive)
    (hlate : c.clock c.reads ≤ alive.keepaliveUntil) :
    Patient id alive.keepalive (c.clock c.reads) c := by
  refine ⟨hid, hclock, ht, ⟨alive, halive, rfl, hlate⟩, fun n hn => ?_⟩
  obtain ⟨m, hm, huntil⟩ := ht id alive halive
  have hpast := hclock hm.le
  have hfuture := hclock hn
  linarith

theorem Does.lives {ok : Controller → Deed → Prop} {I : Controller → Prop} (h : Does ok c c')
    (hid : id ∈ c.jobs) (hI : I c) (hstep : ∀ c (d : Deed) c', I c → d.does c c' → I c')
    (hspares : ∀ c reason, I c → ¬ok c (.retire id reason)) : id ∈ c'.jobs := by
  have hboth := h.invariant (I := fun c => id ∈ c.jobs ∧ I c) ⟨hid, hI⟩
    fun c d c' ⟨hid, hI⟩ hok hd => by
      refine ⟨?_, hstep c d c' hI hd⟩
      obtain hstill | ⟨owner, wait, host, rfl⟩ | ⟨k, reason, rfl⟩ | ⟨value, rfl⟩ := Deed.still hd
      · rw [hstill.jobs]
        exact hid
      · obtain rfl := hd
        exact List.mem_append_left _ hid
      · obtain ⟨-, -, -, rfl⟩ := hd
        refine mem_retired.mpr ⟨hid, ?_⟩
        rintro rfl
        exact hspares c reason hI hok
      · obtain rfl := hd
        exact hid
  exact hboth.1

theorem setMachines_stays {machines : Machines} {s : Setup} (h : (system s).Reachable t)
    (hop : Returns t (.setMachines machines)) (hid : id ∈ t.2.jobs)
    {machine : Configuration.Machine} (hm : (t.2.job id).allocatedMachine = some machine) :
    id ∈ (next t (.setMachines machines)).2.jobs ↔ Keeps t.2 machines machine.name := by
  obtain ⟨hr, hh⟩ := reachable_hosting h
  obtain ⟨t', hrun⟩ := run_of_isOk hop
  obtain ⟨gone, hreassigned⟩ := wp_of_eq_ok (setMachines_reassigns machines hr hh) hrun
  have hnext : next t (.setMachines machines) = t' := congrArg Prod.snd hrun
  rw [hnext]
  constructor
  · intro hlive
    by_contra hno
    have hgone := List.mem_map_of_mem (f := Prod.fst) (hreassigned.swept id hid machine hm hno)
    exact ((hreassigned.left id).mp hgone).2 hlive
  · exact fun hkept => (hreassigned.kept id hid machine hm hkept).1

theorem lives_undisturbed {s : Setup} (hclock : Monotone s.time) (h : (system s).Reachable t)
    {op : Operation} (hop : ∀ machines, op = .setMachines machines → Returns t op)
    (hid : id ∈ t.2.jobs) (hno : ¬op.Disturbs t id) : id ∈ (next t op).2.jobs := by
  obtain ⟨htime, htimely⟩ := reachable_timely h
  have hlt := (reachable_ordered h).1.lt hid
  have hdoes := next_does h op
  have hmonotone : Monotone t.2.clock := by rwa [htime]
  have hnever (hspares : ∀ c reason, ¬op.Ends t.2 c id reason) : id ∈ (next t op).2.jobs :=
    hdoes.lives (I := fun _ => True) hid trivial (fun _ _ _ _ _ => trivial)
      fun c reason _ => hspares c reason
  cases op with
  | destroyJob id' reason' =>
    apply hnever
    rintro c reason ⟨rfl, -⟩
    exact hno rfl
  | destroyTimedOutJobs =>
    cases halive : (t.2.job id).keepalive with
    | none =>
      apply hdoes.lives (I := fun c => id < c.nextId ∧ c.patience id = none) hid
        ⟨hlt, by rw [patience, halive, Option.map_none]⟩
      · rintro c d c' ⟨hlt, hnone⟩ hd
        obtain ⟨events, helapses, -⟩ := Deed.elapses hd
        exact ⟨hlt.trans_le helapses.nextId, (helapses.job id hlt).patience.trans hnone⟩
      · rintro c reason ⟨-, hnone⟩ ⟨alive, hsome, -⟩
        rw [patience, hsome] at hnone
        cases hnone
    | some alive =>
      have hlate : t.2.clock t.2.reads ≤ alive.keepaliveUntil := by
        by_contra hlt
        exact hno ⟨alive, halive, not_le.mp hlt⟩
      apply hdoes.lives (I := Patient id alive.keepalive (t.2.clock t.2.reads)) hid
        (htimely.patient hmonotone hlt halive hlate) fun _ _ _ hI hd => Deed.patient hd hI
      rintro c reason hpatient ⟨alive', halive', hlate', -⟩
      obtain ⟨alive'', hsome, -, hdeadline⟩ := hpatient.later
      obtain rfl := Option.some.inj (halive'.symm.trans hsome)
      exact absurd hlate' (not_lt.mpr hdeadline)
  | setMachines machines =>
    simp only [Operation.Disturbs, not_forall, not_not] at hno
    obtain ⟨machine, hm, hkeeps⟩ := hno
    exact (setMachines_stays h (hop machines rfl) hid hm).mpr hkeeps
  | complete b success =>
    apply hnever
    rintro c reason ⟨hs, r, rest, hr, rfl, -⟩
    exact hno ⟨hs, r, rest, hr, rfl⟩
  | createJob ownerhost owner keepalive machine tags request =>
    apply hnever
    rintro c reason ⟨rfl, -⟩
    exact absurd hlt (lt_irrefl _)
  | jobKeepalive clienthost id => exact hnever fun _ _ hends => hends
  | powerOnJobBoards clienthost id => exact hnever fun _ _ hends => hends
  | powerOffJobBoards clienthost id => exact hnever fun _ _ hends => hends
  | checkFree => exact hnever fun _ _ hends => hends
  | setMaxRetiredJobs value => exact hnever fun _ _ hends => hends
  | stop => exact hnever fun _ _ hends => hends

/-- The operation does not end the job before the deadline. An assignment of machines may raise
half-way, so that what becomes of the job is looked at afterwards. -/
def Operation.Leaves (id : ℕ) (deadline : ℚ) (t : JobQueue × Controller) (op : Operation) : Prop :=
  match op with
  | .destroyTimedOutJobs => t.2.clock t.2.reads ≤ deadline
  | .setMachines machines => id ∈ (next t (.setMachines machines)).2.jobs
  | op => ¬op.Disturbs t id

theorem Patient.lives {s : Setup} {seconds deadline : ℚ} {op : Operation}
    (hclock : Monotone s.time) (h : (system s).Reachable t) (hid : id ∈ t.2.jobs)
    (hpatient : Patient id seconds deadline t.2) (hop : op.Leaves id deadline t) :
    id ∈ (next t op).2.jobs := by
  cases op with
  | destroyTimedOutJobs =>
    apply lives_undisturbed hclock h (by rintro _ ⟨⟩) hid
    rintro ⟨alive', halive', hlate⟩
    obtain ⟨alive, halive, -, hdeadline⟩ := hpatient.later
    obtain rfl := Option.some.inj (halive'.symm.trans halive)
    have hnow : t.2.clock t.2.reads ≤ deadline := hop
    linarith
  | setMachines machines => exact hop
  | _ => exact lives_undisturbed hclock h (by rintro _ ⟨⟩) hid hop

theorem patient_lives {s : Setup} (hclock : Monotone s.time) {seconds deadline : ℚ}
    {ops : List Operation} (h : (system s).Reachable t) (hid : id ∈ t.2.jobs)
    (hpatient : Patient id seconds deadline t.2)
    (hops : System.Along next (fun t op => op.Leaves id deadline t) t ops) :
    id ∈ (runs t ops).2.jobs := by
  induction ops generalizing t with
  | nil => exact hid
  | cons op ops ih =>
    obtain ⟨hop, hrest⟩ := hops
    have hlive : id ∈ (next t op).2.jobs := hpatient.lives hclock h hid hop
    have hpatient' : Patient id seconds deadline (next t op).2 :=
      (next_does h op).invariant hpatient fun _ _ _ hI _ hd => Deed.patient hd hI
    exact ih (.next h rfl) hlive hpatient' hrest

/-- A job that is kept alive does not time out before its patience is over, whatever is done in the
meantime. -/
theorem kept_alive {s : Setup} (hclock : Monotone s.time) (h : (system s).Reachable t)
    (hid : id ∈ t.2.jobs) {seconds : ℚ} (hseconds : t.2.patience id = some seconds)
    (host : Option String) {ops : List Operation}
    (hops : System.Along next
      (fun t' (op : Operation) => op.Leaves id (t.2.clock t.2.reads + seconds) t')
      (next t (.jobKeepalive host id)) ops) :
    id ∈ (runs (next t (.jobKeepalive host id)) ops).2.jobs := by
  obtain ⟨htime, htimely⟩ := reachable_timely h
  have hmonotone : Monotone t.2.clock := by rwa [htime]
  have hkept : (next t (.jobKeepalive host id)).2 = t.2.kept id host := by
    have hwp : wp (exec (.jobKeepalive host id)) (fun _ t' => t'.2 = t.2.kept id host)
        (fun _ t' => t'.2 = t.2.kept id host) t := by
      change wp (own (jobKeepalive host id)) _ _ (t.1, t.2)
      rw [wp_own]
      apply jobKeepalive_kept
      · exact fun hgone => absurd hid hgone
      · exact fun _ => rfl
    exact wp_same (I := fun t' : JobQueue × Controller => t'.2 = t.2.kept id host) hwp
  have hstill := still_kept t.2 id host
  have halive : ((t.2.kept id host).job id).keepalive =
      some ⟨seconds, t.2.clock t.2.reads + seconds⟩ := by
    rw [kept, job_refreshed, if_pos rfl, hseconds]
    rfl
  have hpatient : Patient id seconds (t.2.clock t.2.reads + seconds) (t.2.kept id host) :=
    ⟨(reachable_ordered h).1.lt hid, hmonotone, hstill.timely htimely, ⟨_, halive, rfl, le_rfl⟩,
      fun n hn => by
        have hlater := hmonotone (hstill.reads.trans hn)
        exact add_le_add_left hlater seconds⟩
  have hlive : id ∈ (next t (.jobKeepalive host id)).2.jobs := by
    rw [hkept, hstill.jobs]
    exact hid
  exact patient_lives hclock (.next h rfl) hlive (hkept ▸ hpatient) hops

/-- A job is created that may go without being kept alive for a minute. -/
def waiting : List Operation :=
  [.setMachines oneBoard,
    .createJob none (some "owner") (some (some 60)) none none { args := .nil }]

theorem kept_alive_waiting :
    1 ∈ (runs (next (runs Setup.quiet.start waiting) (.jobKeepalive none 1))
      [.checkFree, .destroyTimedOutJobs]).2.jobs := by
  have h : (system Setup.quiet).Reachable (runs Setup.quiet.start waiting) :=
    .next (.next (.start rfl) rfl) rfl
  have hseconds : (runs Setup.quiet.start waiting).2.patience 1 = some 60 := by decide +kernel
  have hlater : (system Setup.quiet).Reachable
      (next (next (runs Setup.quiet.start waiting) (.jobKeepalive none 1)) .checkFree) :=
    .next (.next h rfl) rfl
  have hleaves : Operation.destroyTimedOutJobs.Leaves 1
      ((runs Setup.quiet.start waiting).2.clock (runs Setup.quiet.start waiting).2.reads + 60)
      (next (next (runs Setup.quiet.start waiting) (.jobKeepalive none 1)) .checkFree) := by
    dsimp only [Operation.Leaves]
    rw [(reachable_timely h).1, (reachable_timely hlater).1]
    norm_num [Setup.quiet]
  exact kept_alive monotone_const h (by decide +kernel) hseconds none ⟨not_false, hleaves, trivial⟩

theorem Does.unkept {ok : Controller → Deed → Prop} (h : Does ok c c')
    (hok : ∀ c host, ok c (.keep id host) → (c.job id).power = none) (hid : id < c.nextId)
    (hpower : (c.job id).power ≠ none) : (c'.job id).keepalive = (c.job id).keepalive := by
  have hboth := h.invariant (I := fun c' => id < c'.nextId ∧ (c'.job id).power ≠ none ∧
    (c'.job id).keepalive = (c.job id).keepalive) ⟨hid, hpower, rfl⟩
    fun c₁ d c₂ ⟨hid, hpower, hsame⟩ hallowed hd => by
      obtain ⟨events, helapses, -⟩ := Deed.elapses hd
      refine ⟨hid.trans_le helapses.nextId, (helapses.job id hid).powered hpower, ?_⟩
      obtain hstill | ⟨owner, wait, host, rfl⟩ | ⟨k, reason, rfl⟩ | ⟨value, rfl⟩ := Deed.still hd
      · obtain hkeep | ⟨⟨host, rfl⟩, -⟩ := hstill.keepalive id
        · exact hkeep.trans hsame
        · exact absurd (hok c₁ host hallowed) hpower
      · obtain rfl := hd
        rw [enlisted, job_createdJob, if_neg hid.ne]
        exact hsame
      · obtain ⟨-, -, -, rfl⟩ := hd
        exact hsame
      · obtain rfl := hd
        exact hsame
  exact hboth.2.2

theorem teardownJob_gone {reason : Option String} :
    wp (teardownJob id reason) (fun _ c' => id ∉ c'.jobs) (fun _ _ => True) c := by
  have hgone (c' : Controller) (hj : c'.jobs = (c.retired id reason).jobs) : id ∉ c'.jobs := by
    rw [hj]
    exact fun hin => (mem_retired.mp hin).2 rfl
  apply teardownJob_wp
  · exact fun _ => trivial
  · exact fun _ _ => hgone _ rfl
  · exact fun _ _ => setJobPowerAndLinks_touches.mono (fun _ c' ht => hgone c' ht.jobs)
      fun _ _ _ => trivial

theorem destroyJob_gone {reason : Option String} (h : Indexed t.1) :
    wp (destroyJob id reason) (fun _ t' => id ∉ t'.2.jobs) (fun _ _ => True) t := by
  obtain ⟨q, c⟩ := t
  have hprocess : ProcessRules callbacks (fun t => id ∉ t.2.jobs) fun _ _ => True := by
    refine ⟨fun q c m j rest hgone _ _ => ?_, fun _ _ _ _ _ hgone _ _ => hgone⟩
    apply (wp_trivial _).mono _ fun _ _ he => he
    intro res a _
    cases res with
    | none => exact hgone
    | some al =>
      apply onAllocate_touches.mono _ fun _ _ _ => trivial
      intro _ c' ht hin
      rw [ht.jobs] at hin
      exact hgone hin
  simp only [destroyJob, wp_bind, wp_controller]
  split
  · apply destroyJob_wp fun t ht => processQueue_wp (q := t.1) (w := t.2) hprocess ht
    · exact fun _ => trivial
    · intro j hj _
      rw [h.ids id j hj]
      exact teardownJob_gone
    · intro j hj _
      rw [h.ids id j hj]
      apply onFree_wp
      · exact fun _ => trivial
      · exact fun _ _ => trivial
      · exact fun _ _ _ => teardownJob_gone
  · next hid => exact hid

theorem Does.gone {ok : Controller → Deed → Prop} (h : Does ok c c') (hid : id < c.nextId)
    (hgone : id ∉ c.jobs) : id ∉ c'.jobs := by
  obtain ⟨events, helapses, -⟩ := h.elapses
  exact helapses.gone hid hgone

theorem destroyTimedOutJobs_ends (hr : Roster 0 t) (hh : InPlace t.2) :
    wp destroyTimedOutJobs (fun _ t' => ∀ id ∈ t.2.jobs, (t.2.job id).power ≠ none →
      Operation.destroyTimedOutJobs.Disturbs t id → id ∉ t'.2.jobs) (fun _ _ => True) t := by
  obtain ⟨q, c⟩ := t
  have hok := allows_lenient .destroyTimedOutJobs c
  have hread : Does (Operation.destroyTimedOutJobs.Allows c) c { c with reads := c.reads + 1 } :=
    (Does.refl c).routine hok (d := .read) trivial rfl
  simp only [destroyTimedOutJobs, wp_bind, wp_own, timestamp, wp_state, wp_update, wp_pure,
    wp_controller]
  have hstart : Done (Operation.destroyTimedOutJobs.Allows c) c 0
      (q, { c with reads := c.reads + 1 }) := ⟨hr.same rfl rfl rfl fun _ => rfl, hread⟩
  refine (wp_forEach (I := fun rest t' => Done (Operation.destroyTimedOutJobs.Allows c) c 0 t' ∧
      ∀ id ∈ c.jobs, (c.job id).power ≠ none → Operation.destroyTimedOutJobs.Disturbs (q, c) id →
        id ∈ rest ∨ id ∉ t'.2.jobs) ?_ ⟨hstart, fun id hid _ _ => .inl hid⟩).mono
    (fun _ t' ht' id hid hpower hlate => ?_) fun _ _ he => he
  swap
  · exact (ht'.2 id hid hpower hlate).resolve_left List.not_mem_nil
  intro a rest t' _ hboth
  obtain ⟨hdone, hrest⟩ := hboth
  have hgiven (id : ℕ) (hid : id ∈ c.jobs) : id < c.nextId := hr.lt (q := q) hid
  have hvisited (id : ℕ) (hid : id ∈ c.jobs) (hpower : (c.job id).power ≠ none)
      (hlate : Operation.destroyTimedOutJobs.Disturbs (q, c) id) :
      id = a ∨ id ∈ rest ∨ id ∉ t'.2.jobs := by
    obtain hin | hgone := hrest id hid hpower hlate
    · exact (List.mem_cons.mp hin).imp_right .inl
    · exact .inr (.inr hgone)
  have hsame (hid : a ∈ c.jobs) (hpower : (c.job a).power ≠ none) :
      (t'.2.job a).keepalive = (c.job a).keepalive :=
    hdone.2.unkept (fun _ _ hallowed => hallowed.resolve_left fun htends => htends) (hgiven a hid)
      hpower
  have hpassed (alive : Option Keepalive) (hk : (t'.2.job a).keepalive = alive)
      (hno : ∀ alive', alive = some alive' → ¬alive'.keepaliveUntil < c.clock c.reads) (id : ℕ)
      (hid : id ∈ c.jobs) (hpower : (c.job id).power ≠ none)
      (hlate : Operation.destroyTimedOutJobs.Disturbs (q, c) id) : id ∈ rest ∨ id ∉ t'.2.jobs := by
    obtain rfl | hleft := hvisited id hid hpower hlate
    · obtain ⟨alive', halive', hexpired⟩ := hlate
      rw [hsame hid hpower, halive'] at hk
      exact absurd hexpired (hno alive' hk.symm)
    · exact hleft
  simp only [wp_bind, wp_controller]
  cases hk : (t'.2.job a).keepalive with
  | none =>
    refine ⟨hdone, hpassed none hk fun alive' halive' => ?_⟩
    cases halive'
  | some alive =>
    dsimp only
    split
    · next hexpired =>
      have hdoes := destroyJob_does hok (hdone.2.inPlace hh)
        ⟨hdone.1, .refl t'.2⟩ fun names _ => ⟨alive, hk, hexpired, rfl⟩
      apply (hdoes.and (destroyJob_gone hdone.1.indexed)).mono _ fun _ _ _ => trivial
      intro _ t'' hpost
      obtain ⟨⟨hroster, hsince⟩, hgone⟩ := hpost
      refine ⟨⟨hroster, hdone.2.trans hsince⟩, fun id hid hpower hlate => ?_⟩
      obtain rfl | hin | hno := hvisited id hid hpower hlate
      · exact .inr hgone
      · exact .inl hin
      · obtain ⟨events, helapses, -⟩ := hdone.2.elapses
        exact .inr (hsince.gone ((hgiven id hid).trans_le helapses.nextId) hno)
    · next hlive =>
      refine ⟨hdone, hpassed _ hk fun alive' halive' => ?_⟩
      rwa [← Option.some.inj halive']

theorem complete_ends {b : ℕ} {r : AtomicRequests} {rest : List AtomicRequests}
    (hreq : (t.2.bmp b).requests = r :: rest) (hr : Roster 0 t) (hh : InPlace t.2)
    (hid : r.onDone < t.2.nextId) :
    wp (complete b false) (fun _ t' => r.onDone ∉ t'.2.jobs) (fun _ _ => True) t := by
  obtain ⟨q, c⟩ := t
  apply complete_wp
  · intro hnil
    rw [hreq] at hnil
    cases hnil
  intro r' rest' hreq'
  obtain ⟨rfl, -⟩ := List.cons.inj (hreq.symm.trans hreq')
  have hok : Lenient fun _ _ => True := fun _ _ _ => trivial
  have hpopped : Roster 0 (q, c.setBmp b (c.bmp b).popped) := hr.tables rfl rfl rfl rfl
  have hplace : InPlace (c.setBmp b (c.bmp b).popped) := ⟨hh.machine, hh.power⟩
  simp only [bmpOnRequestComplete, wp_bind]
  have hdoes : wp (destroyJob r.onDone (c.failure b)) _ _ (q, c.setBmp b (c.bmp b).popped) :=
    destroyJob_does hok hplace ⟨hpopped, .refl _⟩ fun _ _ => trivial
  apply (hdoes.and (destroyJob_gone hpopped.indexed)).mono _ fun _ _ _ => trivial
  intro _ t' hpost
  obtain ⟨⟨hroster, hsince⟩, hgone⟩ := hpost
  apply (countDown_does hok (hsince.inPlace hplace) ⟨hroster, .refl t'.2⟩).mono _
    fun _ _ _ => trivial
  intro _ t'' ht''
  obtain ⟨events, helapses, -⟩ := hsince.elapses
  exact ht''.2.gone (hid.trans_le helapses.nextId) hgone

/-- A job that has been started ends when it is asked to, when it has timed out, when its machine
is not kept or when a command for it has failed, and only then. -/
theorem job_ends_iff {s : Setup} (hclock : Monotone s.time) (h : (system s).Reachable t)
    {op : Operation} (hop : Returns t op) (hid : id ∈ t.2.jobs)
    (hpower : (t.2.job id).power ≠ none) : id ∉ (next t op).2.jobs ↔ op.Disturbs t id := by
  have hr := reachable_roster h
  have hh := reachable_inPlace h
  constructor
  · intro hgone
    by_contra hno
    exact hgone (lives_undisturbed hclock h (fun _ _ => hop) hid hno)
  intro hends
  obtain ⟨t', hrun⟩ := run_of_isOk hop
  have hnext : next t op = t' := congrArg Prod.snd hrun
  cases op with
  | destroyJob id' reason =>
    obtain rfl := hends
    rw [hnext]
    exact wp_of_eq_ok (destroyJob_gone hr.indexed) hrun
  | destroyTimedOutJobs =>
    rw [hnext]
    exact wp_of_eq_ok (destroyTimedOutJobs_ends hr hh) hrun id hid hpower hends
  | setMachines machines =>
    have hb : (t.2.job id).boards ≠ none := fun hb => hpower (hh.power id hb)
    obtain ⟨machine, hm⟩ := Option.ne_none_iff_exists'.mp fun hm => hb ((hh.machine id).mpr hm)
    exact fun hlive => hends machine hm ((setMachines_stays h hop hid hm).mp hlive)
  | complete b success =>
    obtain ⟨rfl, r, rest, hreq, rfl⟩ := hends
    rw [hnext]
    exact wp_of_eq_ok (complete_ends hreq hr hh ((reachable_ordered h).1.lt hid)) hrun
  | _ => exact hends.elim

theorem job_ends_poweringOn :
    1 ∉ (next (runs Setup.quiet.start poweringOn) (.destroyJob 1 none)).2.jobs :=
  (job_ends_iff monotone_const (reachable_poweringOn .quiet) (by decide +kernel) (by decide +kernel)
    (by decide +kernel)).mpr rfl

end SpallocServer.Controller
