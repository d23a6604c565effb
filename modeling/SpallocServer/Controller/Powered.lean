import SpallocServer.Foundation.Latest
import SpallocServer.Controller.Orders
import SpallocServer.Controller.Separation
import SpallocServer.Controller.Timeouts

namespace SpallocServer.Controller

open Foundation Prog JobQueue Allocator

variable {q q' : JobQueue} {c c' : Controller} {t t' : JobQueue × Controller} {id id' j m b : ℕ}
  {n : ℤ} {debt debt' : ℕ → ℕ} {depth depth' : ℤ} {name : String} {board : Board}
  {machines : Machines} {machine : Configuration.Machine} {power : Bool}
  {past past' : ℕ → List (AtomicRequests × Bool)}

def issued (past : ℕ → List (AtomicRequests × Bool)) (c : Controller) (b : ℕ) :
    List AtomicRequests :=
  (past b).map Prod.fst ++ (c.bmp b).requests

def latestRequest (past : ℕ → List (AtomicRequests × Bool)) (c : Controller) (b : ℕ) (n : ℤ) :
    Option AtomicRequests :=
  latest (fun r => n ∈ r.boards) (issued past c b)

/-- The last request about a board of a live job is for this job, and powers the board as the job
has it. No board is powered on last for a job that is gone. -/
structure Obeyed (past : ℕ → List (AtomicRequests × Bool)) (c : Controller) : Prop where
  aimed : ∀ b, ∀ r ∈ issued past c b, r.onDone ∈ c.jobs → ∀ n ∈ r.boards, c.Aims r.onDone b n
  heeded : ∀ id ∈ c.jobs, ∀ b n, c.Aims id b n → ∃ r power, latestRequest past c b n = some r ∧
    r.onDone = id ∧ (c.job id).power = some power ∧ Powers r n power
  live : ∀ b n r, latestRequest past c b n = some r → n ∈ r.powerOnBoards → r.onDone ∈ c.jobs
  fresh : ∀ b, ∀ r ∈ issued past c b, r.onDone < c.nextId
  idle : ∀ b, c.nextBmp ≤ b → past b = []

theorem aims_of_placement (hp : (c'.job id).placement = (c.job id).placement)
    (hc : c'.bmpControllers = c.bmpControllers) : c'.Aims id b n ↔ c.Aims id b n :=
  aims_congr (allocatedMachine_of_placement hp) (boards_of_placement hp)
    (periphery_of_placement hp) hc

namespace Obeyed

theorem congr (h : Obeyed past c) (hi : ∀ b, issued past' c' b = issued past c b)
    (hc : ∀ id ∈ c.jobs, ∀ machine, (c.job id).allocatedMachine = some machine →
      c'.bmpControllers.get? machine.name = c.bmpControllers.get? machine.name)
    (hj : c'.jobs = c.jobs) (hn : c'.nextId = c.nextId) (hidle : ∀ b, c'.nextBmp ≤ b → past' b = [])
    (hp : ∀ k, (c'.job k).placement = (c.job k).placement)
    (hpower : ∀ k, (c'.job k).power = (c.job k).power) : Obeyed past' c' := by
  have haims (k : ℕ) (hk : k ∈ c.jobs) (b : ℕ) (n : ℤ) : c'.Aims k b n ↔ c.Aims k b n := by
    unfold Aims
    rw [allocatedMachine_of_placement (hp k),
      concerned_congr (boards_of_placement (hp k)) (periphery_of_placement (hp k))]
    have hget (machine : Configuration.Machine) (controllers : Dict (ℤ × ℤ) ℕ)
        (hm : (c.job k).allocatedMachine = some machine) :
        c'.bmpControllers.get? machine.name = some controllers ↔
          c.bmpControllers.get? machine.name = some controllers := by
      rw [hc k hk machine hm]
    constructor
    · rintro ⟨machine, controllers, board, hm, hcontrollers, hrest⟩
      exact ⟨machine, controllers, board, hm, (hget _ _ hm).mp hcontrollers, hrest⟩
    · rintro ⟨machine, controllers, board, hm, hcontrollers, hrest⟩
      exact ⟨machine, controllers, board, hm, (hget _ _ hm).mpr hcontrollers, hrest⟩
  have hlatest (b : ℕ) (n : ℤ) : latestRequest past' c' b n = latestRequest past c b n := by
    unfold latestRequest
    rw [hi]
  refine ⟨fun b r hr hid n hin => ?_, fun id hid b n ha => ?_, fun b n r hr hin => ?_,
    fun b r hr => ?_, hidle⟩
  · rw [hi] at hr
    rw [hj] at hid
    exact (haims _ hid _ _).mpr (h.aimed b r hr hid n hin)
  · rw [hj] at hid
    rw [hlatest, hpower]
    exact h.heeded id hid b n ((haims _ hid _ _).mp ha)
  · rw [hlatest] at hr
    rw [hj]
    exact h.live b n r hr hin
  · rw [hi] at hr
    rw [hn]
    exact h.fresh b r hr

theorem same (h : Obeyed past c) (hb : ∀ b, (c'.bmp b).requests = (c.bmp b).requests)
    (hc : c'.bmpControllers = c.bmpControllers) (hj : c'.jobs = c.jobs)
    (hn : c'.nextId = c.nextId) (hnext : c'.nextBmp = c.nextBmp)
    (hp : ∀ k, (c'.job k).placement = (c.job k).placement)
    (hpower : ∀ k, (c'.job k).power = (c.job k).power) : Obeyed past c' := by
  refine h.congr (fun b => ?_) (fun _ _ _ _ => by rw [hc]) hj hn (fun b hb => h.idle b ?_) hp hpower
  · unfold issued
    rw [hb]
  · rwa [hnext] at hb

theorem ordered (h : Obeyed past c) (ho : Orders id power c c')
    (hc : c'.bmpControllers = c.bmpControllers) (hn : c'.nextId = c.nextId)
    (hnext : c'.nextBmp = c.nextBmp) (hlt : id < c.nextId)
    (hjob : ∀ k, k ≠ id → c'.job k = c.job k) (hjobs : ∀ k, k ≠ id → (k ∈ c'.jobs ↔ k ∈ c.jobs))
    (hpower : power = true → id ∈ c'.jobs)
    (hold : ∀ b, ∀ r ∈ issued past c b, r.onDone = id → ∀ n ∈ r.boards, c'.Aims id b n)
    (hapart : ∀ k ∈ c'.jobs, ∀ b n, c'.Aims k b n → c'.Aims id b n → k = id) :
    Obeyed past c' := by
  have haims (k b : ℕ) (n : ℤ) (hk : k ≠ id) : c'.Aims k b n ↔ c.Aims k b n :=
    aims_of_placement (by rw [hjob k hk]) hc
  -- A board has its last request from before exactly if it is not one of the job.
  have hbefore (b : ℕ) (n : ℤ) (hno : ¬c'.Aims id b n) :
      latestRequest past c' b n = latestRequest past c b n := by
    obtain ⟨l, hl, hall, -⟩ := ho.requests b
    unfold latestRequest issued
    rw [hl, ← List.append_assoc]
    exact latest_append_of_none fun r hr hin => hno ((hall r hr).2 n hin).1
  have hafter (b : ℕ) (n : ℤ) (hyes : c'.Aims id b n) :
      ∃ r, latestRequest past c' b n = some r ∧ r.onDone = id ∧ Powers r n power := by
    obtain ⟨l, hl, hall, hfull⟩ := ho.requests b
    obtain ⟨r, hr, hin⟩ := hfull n hyes
    unfold latestRequest issued
    rw [hl, ← List.append_assoc, latest_append_of_mem hr hin]
    obtain ⟨r', hr'⟩ : ∃ r', latest (fun r => n ∈ r.boards) l = some r' := exists_latest hr hin
    obtain ⟨hmem, hin'⟩ := latest_mem hr'
    exact ⟨r', hr', (hall r' hmem).1, ((hall r' hmem).2 n hin').2⟩
  have hissued (b : ℕ) (r : AtomicRequests) (hr : r ∈ issued past c' b) :
      r ∈ issued past c b ∨ r.onDone = id ∧ ∀ n ∈ r.boards, c'.Aims id b n := by
    obtain ⟨l, hl, hall, -⟩ := ho.requests b
    unfold issued at hr
    rw [hl, ← List.append_assoc] at hr
    exact (List.mem_append.mp hr).imp_right fun hr =>
      ⟨(hall r hr).1, fun n hin => ((hall r hr).2 n hin).1⟩
  refine ⟨fun b r hr hid n hin => ?_, fun k hk b n ha => ?_, fun b n r hr hin => ?_,
    fun b r hr => ?_, fun b hb => h.idle b (hnext ▸ hb)⟩
  · obtain hr | ⟨rfl, hr⟩ := hissued b r hr
    · by_cases hone : r.onDone = id
      · rw [hone]
        exact hold b r hr hone n hin
      · exact (haims _ _ _ hone).mpr (h.aimed b r hr ((hjobs _ hone).mp hid) n hin)
    · exact hr n hin
  · by_cases hone : k = id
    · subst hone
      obtain ⟨r, hr, hdone, hpowers⟩ := hafter b n ha
      exact ⟨r, power, hr, hdone, ho.power, hpowers⟩
    · rw [hbefore b n fun hyes => hone (hapart k hk b n ha hyes), hjob k hone]
      exact h.heeded k ((hjobs k hone).mp hk) b n ((haims k b n hone).mp ha)
  · by_cases hyes : c'.Aims id b n
    · obtain ⟨r', hr', hdone, hpowers⟩ := hafter b n hyes
      obtain rfl := Option.some.inj (hr.symm.trans hr')
      rw [hdone]
      apply hpower
      cases power with
      | true => rfl
      | false => exact absurd hin hpowers.2
    · rw [hbefore b n hyes] at hr
      obtain ⟨hmem, habout⟩ := latest_mem hr
      have hne : r.onDone ≠ id := fun hone => hyes (hold b r hmem hone n habout)
      exact (hjobs _ hne).mpr (h.live b n r hr hin)
  · obtain hr | ⟨rfl, -⟩ := hissued b r hr
    · rw [hn]
      exact h.fresh b r hr
    · rwa [hn]

theorem retired (h : Obeyed past c) (hm : (c.job id).allocatedMachine = none)
    (reason : Option String) : Obeyed past (c.retired id reason) := by
  refine ⟨fun b r hr hid => h.aimed b r hr (mem_retired.mp hid).1,
    fun k hk => h.heeded k (mem_retired.mp hk).1, fun b n r hr hin => ?_, h.fresh, h.idle⟩
  have hlive : r.onDone ∈ c.jobs := h.live b n r hr hin
  obtain ⟨hmem, habout⟩ := latest_mem hr
  refine mem_retired.mpr ⟨hlive, fun hone => ?_⟩
  obtain ⟨machine, -, -, hmachine, -⟩ := h.aimed b r hmem hlive n habout
  rw [hone, hm] at hmachine
  cases hmachine

theorem created {owner : String} {alive : Option Keepalive} {host : Option String} {reads : ℕ}
    (h : Obeyed past c) : Obeyed past (Controller.createdJob
      { c with nextId := c.nextId + 1, reads := reads } c.nextId owner alive host) := by
  have hjob (k : ℕ) : (Controller.createdJob { c with nextId := c.nextId + 1, reads := reads }
      c.nextId owner alive host).job k = if k = c.nextId then .new owner (c.utcnow c.nextId) alive host else c.job k :=
    job_createdJob
  have haims (k b : ℕ) (n : ℤ) (hk : k ≠ c.nextId) : (Controller.createdJob
      { c with nextId := c.nextId + 1, reads := reads } c.nextId owner alive host).Aims k b n ↔
        c.Aims k b n := aims_of_placement (by rw [hjob, if_neg hk]) rfl
  refine ⟨fun b r hr hid n hin => ?_, fun k hk b n ha => ?_, fun b n r hr hin => ?_,
    fun b r hr => Nat.lt_succ_of_lt (h.fresh b r hr), h.idle⟩
  · have hne : r.onDone ≠ c.nextId := (h.fresh b r hr).ne
    obtain hid | hid := List.mem_append.mp hid
    · exact (haims _ _ _ hne).mpr (h.aimed b r hr hid n hin)
    · exact absurd (List.mem_singleton.mp hid) hne
  · have hne : k ≠ c.nextId := by
      rintro rfl
      obtain ⟨machine, -, -, hmachine, -⟩ := ha
      rw [hjob, if_pos rfl] at hmachine
      cases hmachine
    obtain hk | hk := List.mem_append.mp hk
    · rw [hjob, if_neg hne]
      exact h.heeded k hk b n ((haims k b n hne).mp ha)
    · exact absurd (List.mem_singleton.mp hk) hne
  · exact List.mem_append_left _ (h.live b n r hr hin)

end Obeyed

theorem Resident.apart (h : Resident t) (hr : Roster depth t)
    (hone : ∀ b name frame name' frame', t.2.Controls b name frame → t.2.Controls b name' frame' →
      name = name' ∧ frame = frame')
    (hid : id ∈ t.2.jobs) (hid' : id' ∈ t.2.jobs) (ha : t.2.Aims id b n) (ha' : t.2.Aims id' b n) :
    id = id' := by
  obtain ⟨machine, controllers, board, hmachine, hget, hboard, hlocate⟩ := ha
  obtain ⟨machine', controllers', board', hmachine', hget', hboard', hlocate'⟩ := ha'
  obtain ⟨frame, hlocation, hb⟩ := locate_ok hlocate
  obtain ⟨frame', hlocation', hb'⟩ := locate_ok hlocate'
  obtain ⟨current, hcurrent, hsame, hlent⟩ := h.lends hr hid hmachine
  obtain ⟨current', hcurrent', hsame', hlent'⟩ := h.lends hr hid' hmachine'
  obtain ⟨hname, rfl⟩ := hone b _ frame _ frame' ⟨controllers, hget, hb⟩ ⟨controllers', hget', hb'⟩
  rw [← hname] at hcurrent' hlent'
  obtain rfl := Option.some.inj (hcurrent.symm.trans hcurrent')
  obtain rfl := Configuration.Machine.location_injective ((hsame board).symm.trans hlocation)
    ((hsame' board').symm.trans hlocation')
  exact lent_exclusive h hr machine.name id id' board (hlent board hboard) (hlent' board hboard')

theorem Resident.inside (h : Resident t) (hr : Roster depth t) (hid : id ∈ t.2.jobs) :
    t.2.Inside id := by
  intro board hboard
  have hsome : (t.2.job id).allocatedMachine ≠ none := by
    obtain ⟨boards, hb, -⟩ | ⟨periphery, hp, -⟩ := hboard
    · exact (h.boards id).mp fun hnone => by rw [hb] at hnone; cases hnone
    · exact (h.periphery id).mp fun hnone => by rw [hp] at hnone; cases hnone
  obtain ⟨machine, hmachine⟩ := Option.ne_none_iff_exists'.mp hsome
  obtain ⟨current, hcurrent, -, hlent⟩ := h.lends hr hid hmachine
  obtain ⟨m, boards, periphery, -, hhoused, hin⟩ := hlent board hboard
  exact ⟨boards, hhoused.boards, hin⟩

theorem Obeyed.placed {a : Allocator} {al : ℕ} (h : Separated debt depth (q, c))
    (hobeyed : Obeyed past c) (hp : (q.job j).pending = true) (ht : Touches (q.job j).id c c')
    (ho : c'.Inside (q.job j).id → Orders (q.job j).id true c c')
    (hr : Roster depth ((q.setAllocator m a).placed j m al, c'))
    (hresident : Resident ((q.setAllocator m a).placed j m al, c')) : Obeyed past c' := by
  obtain ⟨hid, hnone⟩ := h.roster.pending j hp
  have hlive : (q.job j).id ∈ c'.jobs := by
    rw [ht.jobs]
    exact hid
  have hnowhere : (c.job (q.job j).id).allocatedMachine = none := by
    by_contra hsome
    exact (h.resident.boards _).mpr hsome hnone
  refine hobeyed.ordered (ho (hresident.inside hr hlive)) ht.bmpControllers ht.nextId ht.nextBmp
    (h.roster.lt hid) ht.job (fun k _ => by rw [ht.jobs]) (fun _ => hlive) ?_ ?_
  · intro b r hmem hone n hin
    obtain ⟨machine, -, -, hmachine, -⟩ := hobeyed.aimed b r hmem (hone ▸ hid) n hin
    rw [hone, hnowhere] at hmachine
    cases hmachine
  · intro k hk b n ha ha'
    refine hresident.apart hr (fun b name frame name' frame' hc hc' => ?_) hk hlive ha ha'
    unfold Controls at hc hc'
    dsimp only at hc hc'
    rw [ht.bmpControllers] at hc hc'
    exact h.dedicated.apart b name frame name' frame' hc hc'

theorem Obeyed.powered (h : Separated debt depth (q, c)) (hobeyed : Obeyed past c)
    (hid : id ∈ c.jobs) (ht : Touches id c c') (hp : ∀ k, (c'.job k).placement = (c.job k).placement)
    (ho : c'.Inside id → Orders id power c c') : Obeyed past c' := by
  have haims (k b : ℕ) (n : ℤ) : c'.Aims k b n ↔ c.Aims k b n :=
    aims_of_placement (hp k) ht.bmpControllers
  have hinside : c'.Inside id :=
    (inside_congr (boards_of_placement (hp id)) (periphery_of_placement (hp id))).mpr
      (h.resident.inside h.roster hid)
  refine hobeyed.ordered (ho hinside) ht.bmpControllers ht.nextId ht.nextBmp (h.roster.lt hid)
    ht.job (fun k _ => by rw [ht.jobs]) (fun _ => by rwa [ht.jobs]) ?_ ?_
  · exact fun b r hmem hone n hin =>
      (haims _ _ _).mpr (hone ▸ hobeyed.aimed b r hmem (hone ▸ hid) n hin)
  · intro k hk b n ha ha'
    rw [ht.jobs] at hk
    exact h.resident.apart h.roster h.dedicated.apart hk hid ((haims _ _ _).mp ha)
      ((haims _ _ _).mp ha')

theorem Obeyed.freed {reason : Option String} {names : Finset String} (hresident : Resident (q, c))
    (hr : Roster depth (q, c)) (hone : ∀ b name frame name' frame', c.Controls b name frame →
      c.Controls b name' frame' → name = name' ∧ frame = frame')
    (hobeyed : Obeyed past c) (hid : id ∈ c.jobs)
    (ht : Touches id (Controller.retired { c with changedMachines := names } id reason) c')
    (hp : ∀ k, (c'.job k).placement = (c.job k).placement)
    (ho : c'.Inside id → Orders id false c c') : Obeyed past c' := by
  have haims (k b : ℕ) (n : ℤ) : c'.Aims k b n ↔ c.Aims k b n :=
    aims_of_placement (hp k) ht.bmpControllers
  have hinside : c'.Inside id :=
    (inside_congr (boards_of_placement (hp id)) (periphery_of_placement (hp id))).mpr
      (hresident.inside hr hid)
  have hjobs (k : ℕ) : k ∈ c'.jobs ↔ k ∈ c.jobs ∧ k ≠ id := by
    rw [ht.jobs]
    exact mem_retired
  refine hobeyed.ordered (ho hinside) ht.bmpControllers ht.nextId ht.nextBmp (hr.lt hid) ht.job
    (fun k hk => ?_) (fun hoff => ?_) ?_ ?_
  · rw [hjobs]
    exact and_iff_left hk
  · cases hoff
  · exact fun b r hmem hone n hin =>
      (haims _ _ _).mpr (hone ▸ hobeyed.aimed b r hmem (hone ▸ hid) n hin)
  · intro k hk b n ha ha'
    exact hresident.apart hr hone ((hjobs k).mp hk).1 hid ((haims _ _ _).mp ha)
      ((haims _ _ _).mp ha')

structure Commanded (past : ℕ → List (AtomicRequests × Bool)) (debt : ℕ → ℕ) (depth : ℤ)
    (t : JobQueue × Controller) : Prop where
  separated : Separated debt depth t
  obeyed : Obeyed past t.2

theorem obeyed_steps (past : ℕ → List (AtomicRequests × Bool)) (debt : ℕ → ℕ) (depth : ℤ) :
    Steps (Commanded past debt depth) (fun t => Separated debt depth t → Obeyed past t.2)
      fun _ _ => True where
  alloc q c m j rest h _ hp := by
    apply (wp_trivial _).mono _ fun _ _ _ => trivial
    intro res a _
    cases res with
    | none => exact fun _ => h.obeyed
    | some al =>
      apply (onAllocate_touches.and onAllocate_orders).mono _ fun _ _ _ => trivial
      exact fun _ c' hc hs => .placed h.separated h.obeyed hp hc.1 hc.2 hs.roster hs.resident
  skip q c m j rest h _ _ _ := h.obeyed
  offer q c j m h _ _ _ _ := h.obeyed
  cancel q c j reason h hp := by
    obtain ⟨hid, hb⟩ := h.separated.roster.pending j hp
    apply onCancel_wp hid hb
    intro reason _
    refine h.obeyed.retired ?_ reason
    by_contra hsome
    exact (h.separated.resident.boards _).mpr hsome hb
  freed q c id j reason h hid hj hp := by
    have hboards : (c.job id).boards ≠ none :=
      (h.separated.resident.boards id).mpr (h.separated.resident.told id hid j hj hp)
    apply ((onFree_retires.and onFree_placement).and (onFree_orders hboards)).mono _
      fun _ _ _ => trivial
    intro _ c' hc _
    obtain ⟨⟨⟨names, ht⟩, hplacement⟩, ho⟩ := hc
    exact .freed h.separated.resident h.separated.roster h.separated.dedicated.apart h.obeyed hid
      ht hplacement ho
  read q c reads h _ :=
    h.obeyed.same (fun _ => rfl) rfl rfl rfl rfl (fun _ => rfl) fun _ => rfl
  refresh q c id lasthost alive reads h _ :=
    h.obeyed.same (fun _ => rfl) rfl rfl rfl rfl
      (fun _ => job_refreshed_field Job.placement (fun _ _ _ => rfl) lasthost alive reads)
      fun _ => job_refreshed_field (·.power) (fun _ _ _ => rfl) lasthost alive reads
  power q c id power linkEnable h hid _ := by
    apply ((setJobPowerAndLinks_touches.and setJobPowerAndLinks_placement).and
      setJobPowerAndLinks_orders).mono _ fun _ _ _ => trivial
    exact fun _ c' hc _ => .powered h.separated h.obeyed hid hc.1.1 hc.1.2 hc.2
  free q c m h _ := by
    apply (wp_trivial _).mono _ fun _ _ _ => trivial
    exact fun _ _ _ _ => h.obeyed

theorem commanded_rules (past : ℕ → List (AtomicRequests × Bool)) (debt : ℕ → ℕ) (depth : ℤ) :
    JobRules (Commanded past debt depth) fun _ _ => True where
  toSteps := by
    have hseparated : Steps (Commanded past debt depth) (Separated debt depth) fun _ _ => True :=
      (separated_rules debt depth).toSteps.mono (fun _ h => h.separated) (fun _ h => h)
        fun _ _ _ => trivial
    exact (hseparated.and (obeyed_steps past debt depth)).mono (fun _ h => h)
      (fun _ h => ⟨h.1, h.2 h.1⟩) fun _ _ _ => trivial
  indexed _ h := h.separated.roster.indexed
  lost _ _ _ _ _ _ := trivial

def completed (c : Controller) (b : ℕ) : Operation → List (AtomicRequests × Bool)
  | .complete b' success =>
    if b' = b then ((c.bmp b).requests.take 1).map fun r => (r, success) else []
  | _ => []

namespace Commanded

theorem same (h : Commanded past debt depth (q, c)) (hs : Separated debt' depth' (q', c'))
    (hb : ∀ b, (c'.bmp b).requests = (c.bmp b).requests)
    (hc : c'.bmpControllers = c.bmpControllers) (hj : c'.jobs = c.jobs)
    (hn : c'.nextId = c.nextId) (hnext : c'.nextBmp = c.nextBmp)
    (hp : ∀ k, (c'.job k).placement = (c.job k).placement)
    (hpower : ∀ k, (c'.job k).power = (c.job k).power) : Commanded past debt' depth' (q', c') :=
  ⟨hs, h.obeyed.same hb hc hj hn hnext hp hpower⟩

theorem seen (h : Commanded past debt depth (q, c)) (ids : Finset ℕ) :
    Commanded past debt depth (q, { c with changedJobs := ids }) :=
  h.same (h.separated.seen ids) (fun _ => rfl) rfl rfl rfl rfl (fun _ => rfl) fun _ => rfl

theorem createJob {ownerhost owner : Option String} {keepalive : Option (Option ℚ)}
    {machine : Option MachineName} {tags : Option Tags} {request : Request}
    (h : Commanded past debt depth t) :
    wp (Controller.createJob ownerhost owner keepalive machine tags request)
      (fun _ => Commanded past debt depth) (fun _ _ => True) t := by
  obtain ⟨q, c⟩ := t
  apply (commanded_rules past debt depth).createJob (fun _ _ he => he) (fun _ _ _ => trivial) h
  · exact fun _ _ _ _ _ => trivial
  · exact fun owner alive reads tags hnone =>
      ⟨h.separated.created hnone machine tags request, h.obeyed.created⟩
  · exact fun _ _ ids h => h.seen ids

theorem exit (depth : ℤ) (h : Commanded past debt (depth + 1) t) :
    wp (JobQueue.exit callbacks) (fun _ => Commanded past debt depth) (fun _ _ => True) t := by
  obtain ⟨q, c⟩ := t
  apply (commanded_rules past debt depth).exit (fun _ _ he => he) (fun _ _ _ => trivial)
  · exact fun q c h => ⟨h.separated.view (narrows_cleared q c)
      (h.separated.roster.queue_congr sameBooks_cleared rfl)
      (h.separated.tracked.queue_congr rfl rfl rfl rfl) fun _ _ hr => hr, h.obeyed⟩
  · have hpost : q.postpone = depth + 1 := h.separated.roster.postpone
    rw [hpost, Int.add_sub_cancel]
    exact ⟨h.separated.view (narrows_postponed q c depth) (h.separated.roster.postponed depth)
      (h.separated.tracked.postponed depth) fun _ _ hr => hr, h.obeyed⟩

theorem popped {r : AtomicRequests} {rest : List AtomicRequests} {success : Bool}
    (h : Commanded past settled depth (q, c)) (hr : (c.bmp b).requests = r :: rest) :
    Commanded (fun b' => past b' ++ completed c b' (.complete b success)) (owing r.onDone) depth
      (q, c.setBmp b (c.bmp b).popped) := by
  have hrequests (b' : ℕ) : ((c.setBmp b (c.bmp b).popped).bmp b').requests =
      if b' = b then rest else (c.bmp b').requests := by
    change (Function.update c.bmp b (c.bmp b).popped b').requests = _
    split
    · next hb =>
      rw [hb, Function.update_self, AsyncBmpController.popped, hr]
      rfl
    · next hb => rw [Function.update_of_ne hb]
  have hcompleted (b' : ℕ) : completed c b' (.complete b success) =
      if b' = b then [(r, success)] else [] := by
    simp only [completed]
    by_cases hb : b' = b
    · rw [hb, if_pos rfl, if_pos rfl, hr]
      rfl
    · rw [if_neg hb, if_neg (Ne.symm hb)]
  have hview : Narrows (q, c) (q, c.setBmp b (c.bmp b).popped) :=
    narrows_controller rfl rfl rfl rfl (fun _ => rfl) fun _ => rfl
  refine ⟨h.separated.view hview (h.separated.roster.tables rfl rfl rfl rfl)
    (h.separated.tracked.popped hr) fun b' r' hr' => ?_,
    h.obeyed.congr (fun b' => ?_) (fun _ _ _ _ => rfl) rfl rfl (fun b' hb' => ?_) (fun _ => rfl)
      fun _ => rfl⟩
  · rw [hrequests] at hr'
    split at hr'
    · next hb =>
      rw [hb, hr]
      exact List.mem_cons_of_mem r hr'
    · exact hr'
  · simp only [issued, hrequests, hcompleted]
    split
    · next hb => rw [hb, hr, List.map_append, List.append_assoc, List.map_singleton,
        List.singleton_append]
    · rw [List.append_nil]
  · have hne : b' ≠ b := by
      rintro rfl
      have hnil := h.separated.tracked.idle b' hb'
      rw [hr] at hnil
      cases hnil
    simp only [h.obeyed.idle b' hb', hcompleted, if_neg hne, List.append_nil]

theorem uncounted (h : Commanded past (owing id) depth (q, c))
    (hmore : 1 < (c.job id).bmpRequestsUntilReady) :
    Commanded past settled depth (q, c.uncounted id) :=
  have hv := sameView_uncounted q c id
  ⟨h.separated.uncounted hmore, h.obeyed.same (fun _ => rfl) rfl rfl rfl rfl hv.placement
    fun k => field_of_job (·.power) (fun _ => job_uncounted) rfl k⟩

theorem readied (h : Commanded past (owing id) depth (q, c))
    (hlast : (c.job id).bmpRequestsUntilReady = 1) :
    Commanded past settled depth (q, (c.uncounted id).readied id) := by
  have hone := sameView_uncounted q c id
  have htwo := sameView_readied q (c.uncounted id) id
  refine ⟨h.separated.readied hlast, h.obeyed.same (fun _ => rfl) rfl rfl rfl rfl
    (fun k => (htwo.placement k).trans (hone.placement k)) fun k => ?_⟩
  dsimp only
  rw [Controller.readied, job_setJob, ← field_of_job (·.power) (fun _ => job_uncounted) rfl k]
  split
  · next hk => rw [hk]
  · rfl

theorem complete {success : Bool} (h : Commanded past settled depth (q, c)) :
    wp (complete b success)
      (fun _ => Commanded (fun b' => past b' ++ completed c b' (.complete b success)) settled depth)
      (fun _ _ => True) (q, c) := by
  apply complete_wp
  · intro hidle
    have hnone (b' : ℕ) : completed c b' (.complete b success) = [] := by
      simp only [completed]
      split
      · next hb =>
        rw [← hb, hidle]
        rfl
      · rfl
    simp only [hnone, List.append_nil]
    exact h
  intro r rest hr
  apply bmpOnRequestComplete_wp (h.popped hr)
  · exact fun _ reason t h => (commanded_rules _ (owing r.onDone) depth).destroyJob h
  · exact fun _ _ _ _ => trivial
  · exact fun _ _ h hmore => h.uncounted hmore
  · intro q c h hlast
    have hready := h.readied hlast
    apply freeRetired_wp
    · exact fun _ => hready
    · intro hretired
      have hid := hready.separated.roster.gone _ hretired
      have hidle := waits_readied hlast
      apply hready.separated.roster.free_wp hid
        fun t ht => (commanded_rules _ settled depth).processQueue ht
      · exact fun _ => hready
      · exact fun j m a x hj hh hm hrun =>
          ⟨hready.separated.freed hid hidle hj hh hm hrun, hready.obeyed⟩
  · exact fun _ _ ids h => h.seen ids

end Commanded

theorem Obeyed.unregistered (h : Obeyed past c) (hleft : ∀ id ∈ c.jobs, ∀ machine,
    (c.job id).allocatedMachine = some machine → machine.name ≠ name) :
    Obeyed past (c.unregistered name) := by
  refine h.congr (fun _ => rfl) (fun id hid machine hm => ?_) rfl rfl h.idle (fun _ => rfl)
    fun _ => rfl
  exact Dict.get?_erase_ne _ (Ne.symm (hleft id hid machine hm))

theorem Obeyed.registered (h : Obeyed past c) (hcounted : Counted debt c)
    (hname : machine.name = name) (hother : ∀ id ∈ c.jobs, ∀ machine,
      (c.job id).allocatedMachine = some machine → machine.name ≠ name) :
    Obeyed past (c.registered name machine) := by
  have hwired : Counted debt (c.registered name machine) ∧
      (∀ b, ((c.registered name machine).bmp b).requests = (c.bmp b).requests) ∧
      c.nextBmp ≤ (c.registered name machine).nextBmp ∧
      ∀ name', name' ≠ name → (c.registered name machine).bmpControllers.get? name' =
        c.bmpControllers.get? name' := by
    subst hname
    apply registered_induct (P := fun c' => Counted debt c' ∧
      (∀ b, (c'.bmp b).requests = (c.bmp b).requests) ∧ c.nextBmp ≤ c'.nextBmp ∧
      ∀ name', name' ≠ machine.name → c'.bmpControllers.get? name' = c.bmpControllers.get? name')
    · exact ⟨hcounted.emptied machine.name machine.name machine, fun _ => rfl, le_rfl,
        fun name' hne => Dict.get?_set_ne _ (Ne.symm hne) _⟩
    · intro c' frame hostname hprev
      obtain ⟨hcounted', hrequests, hnext, htable⟩ := hprev
      refine ⟨hcounted'.wired machine.name frame hostname, fun b => ?_, Nat.le_succ_of_le hnext,
        fun name' hne => (Dict.get?_set_ne _ (Ne.symm hne) _).trans (htable name' hne)⟩
      rw [← hrequests b]
      change (Function.update c'.bmp c'.nextBmp (.new hostname) b).requests = _
      by_cases hb : b = c'.nextBmp
      · rw [hb, Function.update_self]
        exact (hcounted'.idle c'.nextBmp le_rfl).symm
      · rw [Function.update_of_ne hb]
  obtain ⟨-, hrequests, hnext, htable⟩ := hwired
  obtain ⟨hid, hjobs, -, hjob⟩ := registered_jobs c name machine
  refine h.congr (fun b => ?_) (fun id hid machine' hm => htable _ (hother id hid machine' hm))
    hjobs hid (fun b hb => h.idle b (hnext.trans hb)) (fun k => by rw [hjob]) fun k => by rw [hjob]
  unfold issued
  rw [hrequests]

structure Vacating (machines : Machines) (past : ℕ → List (AtomicRequests × Bool)) (name : String)
    (m : ℕ) (t : JobQueue × Controller) : Prop where
  resident : Resident t
  removing : UpkeepRules.Removing machines Tolerated name m t
  obeyed : Obeyed past t.2
  apart : ∀ b name frame name' frame', t.2.Controls b name frame → t.2.Controls b name' frame' →
    name = name' ∧ frame = frame'

theorem vacating_sweep (depth : ℤ) (name : String) (m : ℕ) :
    SweepRules depth m (Vacating machines past name m) fun _ _ => True where
  freed q c id j hr h hj hp hm := by
    by_cases hid : id ∈ c.jobs
    · have hboards : (c.job id).boards ≠ none :=
        (h.resident.boards id).mpr (h.resident.told id hid j hj hp)
      apply (((resident_rules.sweep tolerated_local depth name m).freed q c id j hr
        ⟨h.resident, h.removing⟩ hj hp hm).and ((onFree_retires.and onFree_placement).and
          (onFree_orders hboards))).mono _ fun _ _ _ => trivial
      intro _ c' hc
      obtain ⟨⟨hresident, hremoving⟩, ⟨⟨names, ht⟩, hplacement⟩, ho⟩ := hc
      refine ⟨hresident, hremoving, .freed h.resident hr h.apart h.obeyed hid ht hplacement ho, ?_⟩
      unfold Controls
      dsimp only
      rw [ht.bmpControllers]
      exact h.apart
    · apply onFree_wp
      · exact fun _ => trivial
      · exact fun hin => absurd hin hid
      · exact fun _ hin => absurd hin hid
  free q c id j a b hr h hid hj hh hm hrun := by
    obtain ⟨hresident, hremoving⟩ := (resident_rules.sweep tolerated_local depth name m).free q c
      id j a b hr ⟨h.resident, h.removing⟩ hid hj hh hm hrun
    exact ⟨hresident, hremoving, h.obeyed, h.apart⟩

theorem Commanded.remove (h : Commanded past debt 1 t)
    (hchangeable : Changeable machines Tolerated t)
    (hmajor : ∀ old new, t.2.machines.get? name = some old → machines.dict.get? name = some new →
      compare old new = .major) :
    wp (JobQueue.removeMachine callbacks name) (fun _ t' =>
      Obeyed past (t'.2.unregistered name)) (fun _ _ => True) t := by
  obtain ⟨q, c⟩ := t
  apply SweepRules.removeMachine (fun m => vacating_sweep (1 + 1) name m) h.separated.roster
    Int.one_pos
  · intro m hm
    have hpostponed := narrows_postponed q c 2
    exact ⟨resident_rules.view _ _ h.separated.resident hpostponed,
      ⟨hm, hmajor, hchangeable.view tolerated_local hpostponed.toSameView⟩, h.obeyed,
      h.separated.dedicated.apart⟩
  · exact fun _ => trivial
  · intro m q' c' hm hmachines hK hempty _ _
    refine hK.obeyed.unregistered fun id hid machine hmachine hname => ?_
    obtain ⟨j, m', -, hj, hjm, hm', -⟩ := hK.resident.hosted id hid machine hmachine
    rw [hname, hmachines, hm] at hm'
    obtain rfl := Option.some.inj hm'
    exact hempty j (Dict.mem_values.mpr ⟨id, hj⟩) hjm
  · exact fun _ _ _ _ _ => trivial

theorem commanded_assign : AssignRules machines
    (fun _ t => Commanded past debt 1 t ∧ Changeable machines Tolerated t) fun _ _ => True := by
  have hbase : AssignRules machines
      (fun _ t => Separated debt 1 t ∧ Changeable machines Tolerated t) fun _ _ => True :=
    separated_assign
  constructor
  case postponed => exact fun l t h => hbase.postponed l t ⟨h.1.separated, h.2⟩
  case remove =>
    intro l name t h hmajor
    apply ((hbase.remove l name t ⟨h.1.separated, h.2⟩ hmajor).and (h.1.remove h.2 hmajor)).mono _
      fun _ _ _ => trivial
    intro _ t' hpost
    refine ⟨hpost.1.1, hpost.1.2.1, fun controllers hc => ?_⟩
    obtain ⟨hseparated, hchangeable⟩ := hpost.1.2.2 controllers hc
    exact ⟨⟨hseparated, hpost.2⟩, hchangeable⟩
  case stop =>
    intro l t h
    obtain ⟨hseparated, hchangeable⟩ := hbase.stop l t ⟨h.1.separated, h.2⟩
    exact ⟨⟨hseparated, h.1.obeyed.same (requests_stopped l) rfl rfl rfl rfl (fun _ => rfl)
      fun _ => rfl⟩, hchangeable⟩
  case change =>
    intro name old new q c h hold hnew hminor
    obtain ⟨hnone, hsome⟩ := hbase.change name old new q c ⟨h.1.separated, h.2⟩ hold hnew hminor
    refine ⟨hnone, fun m hm => ?_⟩
    obtain ⟨hseparated, hchangeable⟩ := hsome m hm
    exact ⟨⟨hseparated, h.1.obeyed.same (fun _ => rfl) rfl rfl rfl rfl (fun _ => rfl)
      fun _ => rfl⟩, hchangeable⟩
  case add =>
    intro name new q c h hnone hnew
    obtain ⟨hused, hadded⟩ := hbase.add name new q c ⟨h.1.separated, h.2⟩ hnone hnew
    refine ⟨hused, fun hqnone => ?_⟩
    obtain ⟨hseparated, hchangeable⟩ := hadded hqnone
    refine ⟨⟨hseparated, h.1.obeyed.registered h.1.separated.tracked.toCounted
      (machines.named name new hnew) fun id hid machine hm hname => ?_⟩, hchangeable⟩
    -- A machine with a job is known.
    obtain ⟨-, -, current, -, -, -, hcurrent, -⟩ := h.1.separated.resident.hosted id hid machine hm
    rw [hname] at hcurrent
    exact absurd (hcurrent.symm.trans hnone) (Option.some_ne_none current)
  case move =>
    intro name q c h
    obtain ⟨hnone, hqnone, hseparated, hchangeable⟩ := hbase.move name q c ⟨h.1.separated, h.2⟩
    exact ⟨hnone, hqnone, ⟨hseparated, h.1.obeyed.same (fun _ => rfl) rfl rfl rfl rfl
      (fun _ => rfl) fun _ => rfl⟩, hchangeable⟩

namespace Commanded

theorem setMachines (h : Commanded past settled 0 t)
    (hchangeable : Changeable machines Tolerated t) :
    wp (Controller.setMachines machines) (fun _ => Commanded past settled 0) (fun _ _ => True) t := by
  obtain ⟨q, c⟩ := t
  apply commanded_assign.setMachines
  · have hpost : q.postpone = 0 := h.separated.roster.postpone
    dsimp only
    rw [hpost]
    have hpostponed := narrows_postponed q c 1
    exact ⟨⟨h.separated.view hpostponed (h.separated.roster.postponed 1)
      (h.separated.tracked.postponed 1) fun _ _ hr => hr, h.obeyed⟩,
      hchangeable.view tolerated_local hpostponed.toSameView⟩
  · exact fun t ht => ht.1.exit 0
  · exact fun _ _ _ => wp_trivial _
  · exact fun q c names h => h.same (h.separated.view
      (narrows_controller rfl rfl rfl rfl (fun _ => rfl) fun _ => rfl)
      (h.separated.roster.tables rfl rfl rfl rfl) (h.separated.tracked.tables
        (h.separated.tracked.toCounted.congr rfl (fun _ => rfl) rfl fun _ => rfl) rfl rfl rfl rfl)
      fun _ _ hr => hr) (fun _ => rfl) rfl rfl rfl rfl (fun _ => rfl) fun _ => rfl

theorem setMaxRetiredJobs {value : ℕ} (h : Commanded past settled 0 t) :
    wp (own (Controller.setMaxRetiredJobs value)) (fun _ => Commanded past settled 0)
      (fun _ _ => True) t := by
  have hseparated : wp (own (Controller.setMaxRetiredJobs value)) (fun _ => Separated settled 0)
      (fun _ _ => True) t := h.separated.setMaxRetiredJobs
  rw [wp_own, setMaxRetiredJobs_nat] at hseparated ⊢
  exact h.same hseparated (fun _ => rfl) rfl rfl rfl rfl (fun _ => rfl) fun _ => rfl

theorem exec {op : Operation} (h : Commanded past settled 0 t) (halters : op.Alters Tolerated t) :
    wp (Controller.exec op)
      (fun _ => Commanded (fun b => past b ++ completed t.2 b op) settled 0) (fun _ _ => True)
      t := by
  have hrules := commanded_rules past settled 0
  have hnone (hop : ∀ b, completed t.2 b op = []) :
      (fun b => past b ++ completed t.2 b op) = past :=
    funext fun b => by rw [hop, List.append_nil]
  cases op with
  | createJob ownerhost owner keepalive machine tags request =>
    rw [hnone fun _ => rfl]
    simp only [Controller.exec, wp_bind]
    exact h.createJob.mono (fun _ _ ht => ht) fun _ _ he => he
  | jobKeepalive clienthost id =>
    rw [hnone fun _ => rfl]
    exact hrules.jobKeepalive h
  | powerOnJobBoards clienthost id =>
    rw [hnone fun _ => rfl]
    exact hrules.setJobBoards h
  | powerOffJobBoards clienthost id =>
    rw [hnone fun _ => rfl]
    exact hrules.setJobBoards h
  | destroyJob id reason =>
    rw [hnone fun _ => rfl]
    exact hrules.destroyJob h
  | destroyTimedOutJobs =>
    rw [hnone fun _ => rfl]
    exact hrules.destroyTimedOutJobs h
  | checkFree =>
    rw [hnone fun _ => rfl]
    exact hrules.checkFree h
  | setMaxRetiredJobs value =>
    rw [hnone fun _ => rfl]
    exact h.setMaxRetiredJobs
  | setMachines machines =>
    rw [hnone fun _ => rfl]
    exact h.setMachines halters
  | stop =>
    rw [hnone fun _ => rfl]
    refine stop_wp (q := t.1) (c := t.2) (fun bmps => ?_) fun _ _ => trivial
    exact h.same (h.separated.stopped bmps) (requests_stopped bmps) rfl rfl rfl rfl (fun _ => rfl)
      fun _ => rfl
  | complete b success => exact complete (q := t.1) (c := t.2) h

end Commanded

/-- What some operations, one after the other, complete at a BMP controller. -/
def history (t : JobQueue × Controller) : List Operation → ℕ → List (AtomicRequests × Bool)
  | [], _ => []
  | op :: ops, b => completed t.2 b op ++ history (next t op) ops b

def Faultless (past : ℕ → List (AtomicRequests × Bool)) (c : Controller) : Prop :=
  ∀ b, ∀ p ∈ past b, p.2 = false → p.1.onDone ∉ c.jobs

theorem faultless_next {s : Setup} {op : Operation} (h : (system s).Reachable t)
    (hop : Returns t op) (hcommanded : Commanded past settled 0 t) (hf : Faultless past t.2) :
    Faultless (fun b => past b ++ completed t.2 b op) (next t op).2 := by
  obtain ⟨events, helapses, -⟩ := (next_does h op).elapses
  intro b p hp hfailed
  obtain hp | hp := List.mem_append.mp hp
  · have hlt : p.1.onDone < t.2.nextId :=
      hcommanded.obeyed.fresh b p.1 (List.mem_append_left _ (List.mem_map_of_mem hp))
    exact helapses.gone hlt (hf b p hp hfailed)
  cases op with
  | complete b' success =>
    simp only [completed] at hp
    split at hp
    · next hb =>
      subst hb
      obtain ⟨r, hr, rfl⟩ := List.mem_map.mp hp
      cases hreq : (t.2.bmp b').requests with
      | nil =>
        rw [hreq, List.take_nil] at hr
        cases hr
      | cons r' rest =>
        rw [hreq] at hr
        obtain rfl := List.mem_singleton.mp hr
        have hlt : r.onDone < t.2.nextId := hcommanded.obeyed.fresh b' r <| by
          unfold issued
          rw [hreq]
          exact List.mem_append_right _ List.mem_cons_self
        obtain ⟨t', hrun⟩ := run_of_isOk hop
        have hnext : next t (.complete b' success) = t' := congrArg Prod.snd hrun
        rw [hnext]
        obtain rfl : success = false := hfailed
        exact wp_of_eq_ok (complete_ends hreq (reachable_roster h) (reachable_inPlace h) hlt) hrun
    · cases hp
  | _ => cases hp

theorem start_commanded (s : Setup) : Commanded (fun _ => []) settled 0 s.start := by
  refine ⟨start_separated s, fun b r hr => ?_, fun id hid => ?_, fun b n r hr => ?_,
    fun b r hr => ?_, fun _ _ => rfl⟩
  · exact absurd hr List.not_mem_nil
  · exact absurd hid List.not_mem_nil
  · cases hr
  · exact absurd hr List.not_mem_nil

/-- All commands are obeyed in runs in which nothing is raised and no dead boards or links of
machines that stay are changed. -/
theorem runs_commanded {s : Setup} {ops : List Operation} (h : (system s).Reachable t)
    (hops : System.Along next (fun t op => Returns t op ∧ op.Alters Undamaged t) t ops)
    (hcommanded : Commanded past settled 0 t) (hf : Faultless past t.2) :
    Commanded (fun b => past b ++ history t ops b) settled 0 (runs t ops) ∧
      Faultless (fun b => past b ++ history t ops b) (runs t ops).2 := by
  induction ops generalizing t past with
  | nil =>
    simp only [history, List.append_nil]
    exact ⟨hcommanded, hf⟩
  | cons op ops ih =>
    obtain ⟨⟨hreturns, halters⟩, hops⟩ := hops
    obtain ⟨t', hrun⟩ := run_of_isOk hreturns
    have hnext : next t op = t' := congrArg Prod.snd hrun
    have htolerated : op.Alters Tolerated t := halters.mono (.of_all fun _ => trivial)
      fun _ _ hp => hp.tolerated hcommanded.separated.resident
    have hexec : Commanded (fun b => past b ++ completed t.2 b op) settled 0 (next t op) := by
      have hwp := wp_of_eq_ok (hcommanded.exec htolerated) hrun
      rwa [hnext]
    have hrest := ih (.next h rfl) hops hexec (faultless_next h hreturns hcommanded hf)
    simp only [history, ← List.append_assoc]
    exact hrest

/-- The boards of a job that is ready are as the job was told: the last request about each of them
that was completed is one of the job, it powers the board the way the job has it, it has succeeded,
and no other request about the board waits. -/
theorem ready_as_told {s : Setup} {ops : List Operation}
    (hops : System.Along next (fun t op => Returns t op ∧ op.Alters Undamaged t) s.start ops)
    (hid : id ∈ (runs s.start ops).2.jobs)
    (hready : ((runs s.start ops).2.job id).state = .ready)
    (haims : (runs s.start ops).2.Aims id b n) :
    (∀ r ∈ ((runs s.start ops).2.bmp b).requests, n ∉ r.boards) ∧
      ∃ r power, latest (fun p => n ∈ p.1.boards) (history s.start ops b) = some (r, true) ∧
        r.onDone = id ∧ ((runs s.start ops).2.job id).power = some power ∧ Powers r n power := by
  have hnever : Faultless (fun _ => []) s.start.2 := fun _ _ hp => absurd hp List.not_mem_nil
  obtain ⟨hcommanded, hf⟩ := runs_commanded (.start rfl) hops (start_commanded s) hnever
  simp only [List.nil_append] at hcommanded hf
  generalize runs s.start ops = t at *
  obtain ⟨r, power, hlatest, hdone, hpower, hpowers⟩ := hcommanded.obeyed.heeded id hid b n haims
  have hidle : (t.2.job id).bmpRequestsUntilReady = 0 := by
    cases hcommanded.separated.tracked.live id hid with
    | queued _ _ _ _ hstate _ =>
      rw [hready] at hstate
      cases hstate
    | placed _ _ _ _ hstate =>
      obtain hstate | hstate := hstate
      · exact hstate.2
      · rw [hready] at hstate
        cases hstate.1
    | stranded hlost _ _ _ => exact hlost.elim
  have hwaits : ∀ r' ∈ (t.2.bmp b).requests, n ∉ r'.boards := by
    intro r' hr' hin
    obtain ⟨r'', hr''⟩ :
        ∃ r'', latest (fun r => n ∈ r.boards) (t.2.bmp b).requests = some r'' :=
      exists_latest hr' hin
    rw [latestRequest, issued, latest_append, hr'', Option.some_or] at hlatest
    obtain rfl := Option.some.inj hlatest
    exact hcommanded.separated.tracked.toCounted.not_owed hidle (latest_mem hr'').1 hdone
  refine ⟨hwaits, r, power, ?_, hdone, hpower, hpowers⟩
  rw [latestRequest, issued, latest_append_of_none hwaits, latest_map] at hlatest
  obtain ⟨⟨r', success⟩, hp, rfl⟩ := Option.map_eq_some_iff.mp hlatest
  rw [hp]
  cases success with
  | true => rfl
  | false =>
    rw [← hdone] at hid
    exact absurd hid (hf b _ (latest_mem hp).1 rfl)

theorem aims_of_known (board : Board) (frame : ℤ × ℤ)
    (hlocation : (c.job id).allocatedMachine.bind (·.boardLocations.get? board) =
      some (frame.1, frame.2, n))
    (hcontroller : ((c.job id).allocatedMachine.bind fun machine =>
      (c.bmpControllers.get? machine.name).bind (·.get? frame)) = some b)
    (hboards : ((c.job id).boards.map fun boards => decide (board ∈ boards)) = some true) :
    c.Aims id b n := by
  obtain ⟨machine, hmachine, hlocation⟩ := Option.bind_eq_some_iff.mp hlocation
  rw [hmachine, Option.bind_some] at hcontroller
  obtain ⟨controllers, hget, hb⟩ := Option.bind_eq_some_iff.mp hcontroller
  obtain ⟨boards, hboards, hin⟩ := Option.map_eq_some_iff.mp hboards
  refine ⟨machine, controllers, board, hmachine, hget,
    .inl ⟨boards, hboards, of_decide_eq_true hin⟩, ?_⟩
  rw [locate, hlocation]
  dsimp only
  rw [hb]

def poweredOn : List Operation := poweringOn ++ [.complete 0 true]

theorem along_poweredOn : System.Along next (fun t op => Returns t op ∧ op.Alters Undamaged t)
    Setup.quiet.start poweredOn := by
  refine ⟨⟨by decide +kernel, fun _ _ _ hold => ?_⟩, ⟨by decide +kernel, trivial⟩,
    ⟨by decide +kernel, trivial⟩, trivial⟩
  cases hold

theorem aims_poweredOn : (runs Setup.quiet.start poweredOn).2.Aims 1 0 0 :=
  aims_of_known (0, 0, 0) (0, 0) (by decide +kernel) (by decide +kernel) (by decide +kernel)

theorem ready_as_told_poweredOn : ∃ r, latest (fun p => 0 ∈ p.1.boards)
    (history Setup.quiet.start poweredOn 0) = some (r, true) ∧ r.onDone = 1 := by
  obtain ⟨-, r, -, hlatest, hdone, -⟩ :=
    ready_as_told along_poweredOn (by decide +kernel) (by decide +kernel) aims_poweredOn
  exact ⟨r, hlatest, hdone⟩

/-- A board that was powered on last, and about which no request waits, is a board of a live job,
which has it powered on. -/
theorem powered_in_use {s : Setup} {ops : List Operation}
    (hops : System.Along next (fun t op => Returns t op ∧ op.Alters Undamaged t) s.start ops)
    {r : AtomicRequests} {success : Bool}
    (hlast : latest (fun p => n ∈ p.1.boards) (history s.start ops b) = some (r, success))
    (hon : n ∈ r.powerOnBoards)
    (hwaits : ∀ r' ∈ ((runs s.start ops).2.bmp b).requests, n ∉ r'.boards) :
    r.onDone ∈ (runs s.start ops).2.jobs ∧ (runs s.start ops).2.Aims r.onDone b n ∧
      ((runs s.start ops).2.job r.onDone).power = some true := by
  have hnever : Faultless (fun _ => []) s.start.2 := fun _ _ hp => absurd hp List.not_mem_nil
  obtain ⟨hcommanded, -⟩ := runs_commanded (.start rfl) hops (start_commanded s) hnever
  simp only [List.nil_append] at hcommanded
  generalize runs s.start ops = t at *
  have hlatest : latestRequest (history s.start ops) t.2 b n = some r := by
    rw [latestRequest, issued, latest_append_of_none hwaits, latest_map, hlast]
    rfl
  have hlive : r.onDone ∈ t.2.jobs := hcommanded.obeyed.live b n r hlatest hon
  obtain ⟨hmem, habout⟩ := latest_mem hlatest
  have haims : t.2.Aims r.onDone b n := hcommanded.obeyed.aimed b r hmem hlive n habout
  obtain ⟨r', power, hlatest', -, hpower, hpowers⟩ :=
    hcommanded.obeyed.heeded r.onDone hlive b n haims
  obtain rfl := Option.some.inj (hlatest.symm.trans hlatest')
  refine ⟨hlive, haims, ?_⟩
  cases power with
  | true => exact hpower
  | false => exact absurd hon hpowers.2

theorem powered_in_use_poweredOn : 1 ∈ (runs Setup.quiet.start poweredOn).2.jobs := by
  have hlast : ((latest (fun p => 0 ∈ p.1.boards) (history Setup.quiet.start poweredOn 0)).map
      fun p => (p.1.onDone, decide (0 ∈ p.1.powerOnBoards))) = some (1, true) := by decide +kernel
  obtain ⟨⟨r, success⟩, hlatest, hsame⟩ := Option.map_eq_some_iff.mp hlast
  obtain ⟨hdone, hon⟩ := Prod.mk.inj hsame
  have hlive := (powered_in_use along_poweredOn hlatest (of_decide_eq_true hon)
    (by decide +kernel)).1
  rwa [hdone] at hlive

end SpallocServer.Controller
