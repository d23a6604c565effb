import Mathlib.Algebra.BigOperators.Group.Finset.Basic
import SpallocServer.Controller

namespace SpallocServer.Controller

open Foundation Prog

variable {c c' : Controller} {id k b n : ℕ} {E : Error → Controller → Prop}
  {Q : Unit → Controller → Prop}

/-- The requests of a job that are accepted and not completed. -/
def outstanding (c : Controller) (id : ℕ) : ℕ :=
  ∑ b ∈ Finset.range c.nextBmp, (c.bmp b).requests.countP (·.onDone = id)

/-- Requests are appended to those that wait. -/
def sent (c : Controller) (l : List (ℕ × AtomicRequests)) : Controller :=
  { c with bmp := fun b => { c.bmp b with
      requests := (c.bmp b).requests ++ (l.filter (·.1 = b)).map Prod.snd } }

theorem sent_nil (c : Controller) : c.sent [] = c := by
  simp [sent]

theorem sent_cons (c : Controller) (p : ℕ × AtomicRequests) (l : List (ℕ × AtomicRequests)) :
    c.sent (p :: l) = (c.setBmp p.1 ((c.bmp p.1).accepted p.2)).sent l := by
  unfold sent setBmp
  congr 1
  funext b
  by_cases h : p.1 = b
  · subst h
    simp [AsyncBmpController.accepted]
  · simp [h, Function.update_of_ne (Ne.symm h)]

theorem outstanding_setBmp (c : Controller) (bmp : AsyncBmpController) (hb : b < c.nextBmp) :
    (c.setBmp b bmp).outstanding k + (c.bmp b).requests.countP (·.onDone = k) =
      c.outstanding k + bmp.requests.countP (·.onDone = k) := by
  have hmem : b ∈ Finset.range c.nextBmp := Finset.mem_range.mpr hb
  unfold outstanding
  change ∑ i ∈ Finset.range c.nextBmp,
    (Function.update c.bmp b bmp i).requests.countP _ + _ = _
  rw [← Finset.add_sum_erase _ _ hmem, ← Finset.add_sum_erase _ _ hmem, Function.update_self]
  have hrest : ∑ i ∈ (Finset.range c.nextBmp).erase b,
      (Function.update c.bmp b bmp i).requests.countP (·.onDone = k) =
      ∑ i ∈ (Finset.range c.nextBmp).erase b, (c.bmp i).requests.countP (·.onDone = k) := by
    apply Finset.sum_congr rfl
    intro i hi
    rw [Function.update_of_ne (Finset.ne_of_mem_erase hi)]
  rw [hrest]
  omega

theorem outstanding_accepted (c : Controller) {r : AtomicRequests} (hb : b < c.nextBmp) :
    (c.setBmp b ((c.bmp b).accepted r)).outstanding k =
      c.outstanding k + if r.onDone = k then 1 else 0 := by
  have h := outstanding_setBmp (k := k) c ((c.bmp b).accepted r) hb
  simp only [AsyncBmpController.accepted, List.countP_append, List.countP_singleton,
    decide_eq_true_eq] at h ⊢
  omega

theorem outstanding_popped {r : AtomicRequests} {rest : List AtomicRequests} (hb : b < c.nextBmp)
    (hr : (c.bmp b).requests = r :: rest) :
    c.outstanding k = (c.setBmp b (c.bmp b).popped).outstanding k +
      if r.onDone = k then 1 else 0 := by
  have h := outstanding_setBmp (k := k) c (c.bmp b).popped hb
  simp only [AsyncBmpController.popped, hr, List.countP_cons, List.tail_cons,
    decide_eq_true_eq] at h ⊢
  omega

theorem outstanding_sent (c : Controller) {l : List (ℕ × AtomicRequests)}
    (hl : ∀ p ∈ l, p.1 < c.nextBmp ∧ p.2.onDone = id) :
    (c.sent l).outstanding k = c.outstanding k + if k = id then l.length else 0 := by
  induction l generalizing c with
  | nil => simp [sent_nil]
  | cons p l ih =>
    obtain ⟨hp, hid⟩ := hl p List.mem_cons_self
    rw [sent_cons, ih, outstanding_accepted c hp, hid, List.length_cons]
    · by_cases hk : k = id
      · rw [if_pos hk, if_pos hk, if_pos hk.symm]
        omega
      · rw [if_neg hk, if_neg hk, if_neg (Ne.symm hk)]
    · exact fun q hq => hl q (List.mem_cons_of_mem p hq)

theorem addRequests_wp {l : List (ℕ × AtomicRequests)}
    (hok : (∀ p ∈ l, (c.bmp p.1).stopped = false) → Q () (c.sent l))
    (hstop : ∀ l', l' <+: l → (∃ p ∈ l, (c.bmp p.1).stopped = true) →
      E .assertionError (c.sent l')) :
    wp (forEach l fun p => addRequests p.1 p.2) Q E c := by
  induction l generalizing c with
  | nil =>
    have h := hok (by simp)
    rwa [sent_nil] at h
  | cons p l ih =>
    change wp (addRequests p.1 p.2 >>= fun _ => forEach l _) Q E c
    simp only [addRequests, wp_bind, wp_state]
    by_cases hs : (c.bmp p.1).stopped = true
    · rw [if_pos hs, wp_raise]
      have h := hstop [] List.nil_prefix ⟨p, List.mem_cons_self, hs⟩
      rwa [sent_nil] at h
    · rw [if_neg hs, wp_update]
      have hsame (i : ℕ) : ((c.setBmp p.1 ((c.bmp p.1).accepted p.2)).bmp i).stopped =
          (c.bmp i).stopped := by
        unfold setBmp
        by_cases hi : i = p.1
        · rw [hi]
          simp only [Function.update_self, AsyncBmpController.accepted]
        · simp only [Function.update_of_ne hi]
      apply ih
      · intro hall
        rw [← sent_cons]
        apply hok
        intro q hq
        obtain rfl | hq := List.mem_cons.mp hq
        · simpa using hs
        · rw [← hsame]
          exact hall q hq
      · intro l' hl' hex
        rw [← sent_cons]
        apply hstop _ (List.cons_prefix_cons.mpr ⟨rfl, hl'⟩)
        obtain ⟨q, hq, hqs⟩ := hex
        rw [hsame] at hqs
        exact ⟨q, List.mem_cons_of_mem p hq, hqs⟩

theorem job_setJob (c : Controller) (id k : ℕ) (job : Job) :
    (c.setJob id job).job k = if k = id then job else c.job k := by
  unfold setJob
  by_cases h : k = id
  · rw [if_pos h, h]
    exact Function.update_self ..
  · rw [if_neg h]
    exact Function.update_of_ne h ..

/-- What is not about the job is as before, but for its requests and what has been seen to
change. -/
structure Touches (id : ℕ) (c c' : Controller) : Prop where
  job : ∀ k, k ≠ id → c'.job k = c.job k
  nextId : c'.nextId = c.nextId
  machines : c'.machines = c.machines
  jobs : c'.jobs = c.jobs
  maxRetiredJobs : c'.maxRetiredJobs = c.maxRetiredJobs
  retiredJobs : c'.retiredJobs = c.retiredJobs
  bmpControllers : c'.bmpControllers = c.bmpControllers
  nextBmp : c'.nextBmp = c.nextBmp
  boardOrder : c'.boardOrder = c.boardOrder
  linkOrder : c'.linkOrder = c.linkOrder
  nameOrder : c'.nameOrder = c.nameOrder

/-- The same, without any requests. -/
structure Rewrites (id : ℕ) (c c' : Controller) : Prop extends Touches id c c' where
  bmp : c'.bmp = c.bmp

theorem Touches.trans {c'' : Controller} (h : Touches id c c') (h' : Touches id c' c'') :
    Touches id c c'' :=
  ⟨fun k hk => (h'.job k hk).trans (h.job k hk), h'.nextId.trans h.nextId,
    h'.machines.trans h.machines, h'.jobs.trans h.jobs, h'.maxRetiredJobs.trans h.maxRetiredJobs,
    h'.retiredJobs.trans h.retiredJobs, h'.bmpControllers.trans h.bmpControllers,
    h'.nextBmp.trans h.nextBmp, h'.boardOrder.trans h.boardOrder,
    h'.linkOrder.trans h.linkOrder, h'.nameOrder.trans h.nameOrder⟩

theorem Rewrites.trans {c'' : Controller} (h : Rewrites id c c') (h' : Rewrites id c' c'') :
    Rewrites id c c'' := ⟨h.toTouches.trans h'.toTouches, h'.bmp.trans h.bmp⟩

theorem rewrites_setJob (c : Controller) (id : ℕ) (job : Job) : Rewrites id c (c.setJob id job) :=
  ⟨⟨fun k hk => by rw [job_setJob, if_neg hk], rfl, rfl, rfl, rfl, rfl, rfl, rfl, rfl, rfl, rfl⟩,
    rfl⟩

structure Addressed (machine : Configuration.Machine) (controllers : Dict (ℤ × ℤ) ℕ) (id : ℕ)
    (boards : Set Board) (commands : Dict ℕ AtomicRequests) : Prop where
  onDone : ∀ b r, commands.get? b = some r → r.onDone = id
  controller : ∀ b r, commands.get? b = some r → b ∈ controllers.values
  boards : ∀ b r, commands.get? b = some r → ∀ n ∈ r.boards, ∃ board ∈ boards,
    locate machine controllers board = .ok (b, n)

variable {machine : Configuration.Machine} {controllers : Dict (ℤ × ℤ) ℕ} {boards : Set Board}
  {commands commands' : Dict ℕ AtomicRequests}

theorem Addressed.empty : Addressed machine controllers id boards Dict.empty :=
  ⟨nofun, nofun, nofun⟩

theorem locate_controller {board : Board} {number : ℤ}
    (h : locate machine controllers board = .ok (b, number)) : b ∈ controllers.values := by
  unfold locate at h
  split at h
  · cases h
  split at h
  · cases h
  · next hget =>
    cases h
    exact Dict.mem_values.mpr ⟨_, hget⟩

theorem Addressed.group {board : Board} {number : ℤ} {f : AtomicRequests → AtomicRequests}
    (h : Addressed machine controllers id boards commands) (hb : board ∈ boards)
    (hl : locate machine controllers board = .ok (b, number))
    (hdone : ∀ r, (f r).onDone = r.onDone)
    (hf : ∀ r n, n ∈ (f r).boards → n = number ∨ n ∈ r.boards) :
    Addressed machine controllers id boards (group id commands b f) := by
  have hget (b' : ℕ) (r : AtomicRequests) (hr : (Controller.group id commands b f).get? b' = some r) :
      commands.get? b' = some r ∨
        b' = b ∧ r = f ((commands.get? b).getD (.new id)) := by
    unfold Controller.group at hr
    rw [Dict.get?_set] at hr
    split at hr
    · next he => exact .inr ⟨he.symm, (Option.some.inj hr).symm⟩
    · exact .inl hr
  have hold : ((commands.get? b).getD (.new id)).onDone = id ∧
      ∀ n ∈ ((commands.get? b).getD (.new id)).boards, ∃ board ∈ boards,
        locate machine controllers board = .ok (b, n) := by
    cases hc : commands.get? b with
    | none => exact ⟨rfl, by simp⟩
    | some r => exact ⟨h.onDone b r hc, h.boards b r hc⟩
  refine ⟨fun b' r hr => ?_, fun b' r hr => ?_, fun b' r hr => ?_⟩
  · obtain hr | ⟨-, rfl⟩ := hget b' r hr
    · exact h.onDone b' r hr
    · rw [hdone]
      exact hold.1
  · obtain hr | ⟨rfl, -⟩ := hget b' r hr
    · exact h.controller b' r hr
    · exact locate_controller hl
  · obtain hr | ⟨rfl, rfl⟩ := hget b' r hr
    · exact h.boards b' r hr
    · intro n hn
      obtain rfl | hn := hf _ n hn
      · exact ⟨board, hb, hl⟩
      · exact hold.2 n hn

theorem Addressed.powerCommands {power : Bool} {l : List Board}
    (h : Addressed machine controllers id boards commands) (hl : ∀ b ∈ l, b ∈ boards)
    (hc : powerCommands machine controllers id power commands l = .ok commands') :
    Addressed machine controllers id boards commands' := by
  induction l generalizing commands with
  | nil =>
    cases hc
    exact h
  | cons board l ih =>
    unfold Controller.powerCommands at hc
    split at hc
    · cases hc
    · next hloc =>
      apply ih _ (fun b hb => hl b (List.mem_cons_of_mem _ hb)) hc
      apply h.group (hl board List.mem_cons_self) hloc
      · exact fun r => AtomicRequests.onDone_power _
      · exact fun r n => (AtomicRequests.mem_boards_power _).mp

theorem Addressed.linkCommands {enable : Bool} {l : List BoardLink}
    (h : Addressed machine controllers id boards commands) (hl : ∀ p ∈ l, p.1 ∈ boards)
    (hc : linkCommands machine controllers id enable commands l = .ok commands') :
    Addressed machine controllers id boards commands' := by
  induction l generalizing commands with
  | nil =>
    cases hc
    exact h
  | cons p l ih =>
    obtain ⟨board, link⟩ := p
    unfold Controller.linkCommands at hc
    split at hc
    · cases hc
    · next hloc =>
      apply ih _ (fun b hb => hl b (List.mem_cons_of_mem _ hb)) hc
      apply h.group (hl (board, link) List.mem_cons_self) hloc
      · exact fun r => AtomicRequests.onDone_link _ _
      · exact fun r n => (AtomicRequests.mem_boards_link _ _).mp

theorem group_ne_nil (f : AtomicRequests → AtomicRequests) :
    (group id commands b f).entries ≠ [] := by
  intro h
  have hb : b ∈ (group id commands b f).keys := Dict.mem_keys_set.mpr (.inl rfl)
  rw [Dict.keys, h] at hb
  exact List.not_mem_nil hb

theorem powerCommands_ne_nil {power : Bool} {l : List Board}
    (h : commands.entries ≠ [] ∨ l ≠ [])
    (hc : powerCommands machine controllers id power commands l = .ok commands') :
    commands'.entries ≠ [] := by
  induction l generalizing commands with
  | nil =>
    cases hc
    exact h.resolve_right (by simp)
  | cons board l ih =>
    unfold powerCommands at hc
    split at hc
    · cases hc
    · exact ih (.inl (group_ne_nil _)) hc

theorem linkCommands_ne_nil {enable : Bool} {l : List BoardLink} (h : commands.entries ≠ [])
    (hc : linkCommands machine controllers id enable commands l = .ok commands') :
    commands'.entries ≠ [] := by
  induction l generalizing commands with
  | nil =>
    cases hc
    exact h
  | cons p l ih =>
    unfold linkCommands at hc
    split at hc
    · cases hc
    · exact ih (group_ne_nil _) hc

def Concerned (c : Controller) (id : ℕ) : Set Board :=
  {b | (∃ boards, (c.job id).boards = some boards ∧ b ∈ boards) ∨
    ∃ periphery, (c.job id).periphery = some periphery ∧ ∃ l ∈ periphery, l.1 = b}

structure CommandsOf (c : Controller) (id : ℕ) (commands : Dict ℕ AtomicRequests)
    (machine : Configuration.Machine) (controllers : Dict (ℤ × ℤ) ℕ) (boards : Finset Board) :
    Prop where
  placed : (c.job id).allocatedMachine = some machine
  wired : c.bmpControllers.get? machine.name = some controllers
  held : (c.job id).boards = some boards
  addressed : Addressed machine controllers id (c.Concerned id) commands
  sent : boards.Nonempty → commands.entries ≠ []

theorem frameCommands_spec {power : Bool} {linkEnable : Option Bool}
    (h : c.frameCommands id power linkEnable = .ok commands) :
    ∃ machine controllers boards, c.CommandsOf id commands machine controllers boards := by
  unfold frameCommands at h
  split at h
  · cases h
  next machine hmachine =>
  split at h
  · cases h
  next controllers hcontrollers =>
  split at h
  next boards hboards =>
    obtain ⟨powers, hpowers, h⟩ := bind_eq_ok.mp h
    have haddr : Addressed machine controllers id (c.Concerned id) powers :=
      Addressed.empty.powerCommands
        (fun b hb => .inl ⟨boards, hboards, (c.boardOrder.mem _ _).mp hb⟩) hpowers
    have hne : boards.Nonempty → powers.entries ≠ [] := by
      intro ⟨b, hb⟩
      apply powerCommands_ne_nil (.inr _) hpowers
      exact List.ne_nil_of_mem ((c.boardOrder.mem _ _).mpr hb)
    split at h
    · next enable =>
      split at h
      · next periphery hperiphery =>
        refine ⟨machine, controllers, boards, hmachine, hcontrollers, hboards,
          haddr.linkCommands (fun p hp => .inr ⟨periphery, hperiphery, p, ?_, rfl⟩) h,
          fun hb => linkCommands_ne_nil (hne hb) h⟩
        exact (c.linkOrder.mem _ _).mp hp
      · cases h
    · cases h
      exact ⟨machine, controllers, boards, hmachine, hcontrollers, hboards, haddr, hne⟩
  · cases h

def commanded (c : Controller) (id : ℕ) (power : Bool) (l : List (ℕ × AtomicRequests)) :
    Controller := ((c.counted id l.length).sent l).powering id power

theorem job_commanded (power : Bool) (l : List (ℕ × AtomicRequests)) :
    (c.commanded id power l).job k = if k = id then { c.job id with
      bmpRequestsUntilReady := (c.job id).bmpRequestsUntilReady + l.length
      state := .power
      power := some power } else c.job k := by
  have hcounted (i : ℕ) : ((c.counted id l.length).sent l).job i = if i = id then { c.job id with
      bmpRequestsUntilReady := (c.job id).bmpRequestsUntilReady + l.length } else c.job i :=
    job_setJob c id i _
  change (((c.counted id l.length).sent l).setJob id _).job k = _
  rw [job_setJob, hcounted, if_pos rfl, hcounted]
  split <;> rfl

theorem touches_sent (n : ℕ) (l : List (ℕ × AtomicRequests)) :
    Touches id c ((c.counted id n).sent l) :=
  ⟨(rewrites_setJob c id _).job, rfl, rfl, rfl, rfl, rfl, rfl, rfl, rfl, rfl, rfl⟩

theorem touches_powering (c : Controller) (id : ℕ) (power : Bool) :
    Touches id c (c.powering id power) :=
  ⟨(rewrites_setJob c id _).job, rfl, rfl, rfl, rfl, rfl, rfl, rfl, rfl, rfl, rfl⟩

theorem touches_commanded (power : Bool) (l : List (ℕ × AtomicRequests)) :
    Touches id c (c.commanded id power l) :=
  (touches_sent l.length l).trans (touches_powering _ id power)

theorem setJobPowerAndLinks_wp {power : Bool} {linkEnable : Option Bool}
    (hok : ∀ commands, c.frameCommands id power linkEnable = .ok commands →
      Q () (c.commanded id power commands.entries))
    (herror : ∀ e, c.frameCommands id power linkEnable = .error e → E e c)
    (hstop : ∀ commands l, c.frameCommands id power linkEnable = .ok commands →
      l <+: commands.entries → (∃ b ∈ commands.keys, (c.bmp b).stopped = true) →
      E .assertionError ((c.counted id commands.entries.length).sent l)) :
    wp (setJobPowerAndLinks id power linkEnable) Q E c := by
  simp only [setJobPowerAndLinks, wp_bind, wp_state]
  cases hc : c.frameCommands id power linkEnable with
  | error e => exact herror e hc
  | ok commands =>
    rw [wp_ofExcept_ok, wp_bind, wp_update, wp_bind]
    apply addRequests_wp
    · exact fun _ => hok commands hc
    · intro l hl hex
      apply hstop commands l hc hl
      obtain ⟨p, hp, hs⟩ := hex
      exact ⟨p.1, List.mem_map_of_mem hp, hs⟩

theorem job_createdJob {owner : String} {alive : Option Keepalive} {host : Option String} :
    (c.createdJob id owner alive host).job k = if k = id then .new owner (c.utcnow id) alive host else c.job k :=
  job_setJob c id k _

theorem job_uncounted : (c.uncounted id).job k = if k = id then { c.job id with
    bmpRequestsUntilReady := (c.job id).bmpRequestsUntilReady - 1 } else c.job k :=
  job_setJob c id k _

theorem rewrites_uncounted : Rewrites id c (c.uncounted id) := rewrites_setJob c id _

theorem rewrites_readied : Rewrites id c (c.readied id) := rewrites_setJob c id _

def refreshed (c : Controller) (id : ℕ) (lasthost : Option String) (alive : Option Keepalive)
    (reads : ℕ) : Controller :=
  { c.setJob id { c.job id with lasthost := lasthost, keepalive := alive } with reads := reads }

theorem refreshed_self (c : Controller) (id : ℕ) :
    c.refreshed id (c.job id).lasthost (c.job id).keepalive c.reads = c := by
  unfold refreshed setJob
  have h : Function.update c.job id { c.job id with } = c.job := Function.update_eq_self ..
  rw [h]

theorem job_refreshed (lasthost : Option String) (alive : Option Keepalive) (reads : ℕ) :
    (c.refreshed id lasthost alive reads).job k =
      if k = id then { c.job id with lasthost := lasthost, keepalive := alive } else c.job k :=
  job_setJob c id k _

theorem job_refreshed_field {β : Type} (f : Job → β)
    (hf : ∀ job lasthost alive, f { job with lasthost := lasthost, keepalive := alive } = f job)
    (lasthost : Option String) (alive : Option Keepalive) (reads : ℕ) :
    f ((c.refreshed id lasthost alive reads).job k) = f (c.job k) := by
  rw [job_refreshed]
  split
  · next h =>
    rw [h]
    exact hf _ _ _
  · rfl

theorem aliveUntil_wp {keepalive : Option ℚ} {Q : Option Keepalive → Controller → Prop}
    (h : ∀ alive reads, Q alive { c with reads := reads }) :
    wp (aliveUntil keepalive) Q E c := by
  cases keepalive with
  | none => exact h none c.reads
  | some seconds => exact h _ (c.reads + 1)

theorem jobKeepalive_wp {host : Option String}
    (h : ∀ lasthost alive reads, Q () (c.refreshed id lasthost alive reads)) :
    wp (jobKeepalive host id) Q E c := by
  simp only [jobKeepalive, wp_bind, wp_state]
  split
  · simp only [updateKeepalive, wp_bind, wp_update, wp_state]
    apply aliveUntil_wp
    intro alive reads
    have hq := h (host <|> (c.job id).lasthost) alive reads
    have he : c.refreshed id (host <|> (c.job id).lasthost) alive reads =
        { (c.setJob id { c.job id with lasthost := host <|> (c.job id).lasthost }).setJob id
          { (c.setJob id { c.job id with lasthost := host <|> (c.job id).lasthost }).job id with
            keepalive := alive } with reads := reads } := by
      unfold refreshed setJob
      simp only [Function.update_self, Function.update_idem]
    rw [he] at hq
    exact hq
  · have hq := h (c.job id).lasthost (c.job id).keepalive c.reads
    rwa [refreshed_self] at hq

theorem setJobBoards_wp {host : Option String} {power : Bool} {linkEnable : Option Bool}
    (hidle : (id ∉ c.jobs ∨ (c.job id).boards = none) →
      ∀ lasthost alive reads, Q () (c.refreshed id lasthost alive reads))
    (hpower : id ∈ c.jobs → (c.job id).boards ≠ none → ∀ lasthost alive reads,
      wp (setJobPowerAndLinks id power linkEnable) Q E (c.refreshed id lasthost alive reads)) :
    wp (setJobBoards host id power linkEnable) Q E c := by
  simp only [setJobBoards, wp_bind]
  apply jobKeepalive_wp
  intro lasthost alive reads
  have hboards : ((c.refreshed id lasthost alive reads).job id).boards = (c.job id).boards := by
    unfold refreshed
    rw [job_setJob, if_pos rfl]
  rw [wp_bind, wp_state, hboards]
  split
  · next h => exact hpower h.1 h.2 lasthost alive reads
  · next h =>
    apply hidle
    by_cases hj : id ∈ c.jobs
    · exact .inr (not_not.mp fun hb => h ⟨hj, hb⟩)
    · exact .inl hj

def prepared (c : Controller) (id : ℕ) (name : String) (machine : Configuration.Machine)
    (boards : Finset Board) (periphery : Finset BoardLink) (torus : WrapAround)
    (size : ℤ × ℤ) (connections : Dict (ℤ × ℤ) String) : Controller :=
  ((c.assigned id name machine boards periphery torus).sized id size).connected id connections

theorem job_assigned {name : String} {machine : Configuration.Machine} {boards : Finset Board}
    {periphery : Finset BoardLink} {torus : WrapAround} :
    (c.assigned id name machine boards periphery torus).job k =
      if k = id then { c.job id with
        allocatedMachine := some machine
        boards := some boards
        periphery := some periphery
        torus := some torus } else c.job k := job_setJob c id k _

theorem job_prepared {name : String} {machine : Configuration.Machine} {boards : Finset Board}
    {periphery : Finset BoardLink} {torus : WrapAround} {size : ℤ × ℤ}
    {connections : Dict (ℤ × ℤ) String} :
    (c.prepared id name machine boards periphery torus size connections).job k =
      if k = id then { c.job id with
        allocatedMachine := some machine
        boards := some boards
        periphery := some periphery
        torus := some torus
        width := some size.1
        height := some size.2
        connections := some connections } else c.job k := by
  change ((((c.assigned id name machine boards periphery torus).setJob id _)).setJob id _).job k = _
  rw [job_setJob, sized, job_setJob, if_pos rfl, job_assigned, if_pos rfl, job_setJob, job_assigned]
  split <;> rfl

theorem rewrites_assigned {name : String} {machine : Configuration.Machine}
    {boards : Finset Board} {periphery : Finset BoardLink} {torus : WrapAround} :
    Rewrites id c (c.assigned id name machine boards periphery torus) :=
  ⟨⟨(rewrites_setJob c id _).job, rfl, rfl, rfl, rfl, rfl, rfl, rfl, rfl, rfl, rfl⟩, rfl⟩

theorem rewrites_refreshed (c : Controller) (id : ℕ) (lasthost : Option String)
    (alive : Option Keepalive) (reads : ℕ) :
    Rewrites id c (c.refreshed id lasthost alive reads) :=
  ⟨⟨(rewrites_setJob c id _).job, rfl, rfl, rfl, rfl, rfl, rfl, rfl, rfl, rfl, rfl⟩, rfl⟩

structure Assigned (id : ℕ) (machine : Configuration.Machine) (boards : Finset Board)
    (periphery : Finset BoardLink) (torus : WrapAround) (size : ℤ × ℤ)
    (connections : Dict (ℤ × ℤ) String) (c c' : Controller) : Prop extends Rewrites id c c' where
  allocatedMachine : (c'.job id).allocatedMachine = some machine
  boards : (c'.job id).boards = some boards
  periphery : (c'.job id).periphery = some periphery
  torus : (c'.job id).torus = some torus
  size : (c'.job id).width = some size.1 ∧ (c'.job id).height = some size.2
  connections : (c'.job id).connections = some connections
  waits : (c'.job id).bmpRequestsUntilReady = (c.job id).bmpRequestsUntilReady

theorem assigned_prepared {name : String} {machine : Configuration.Machine}
    {boards : Finset Board} {periphery : Finset BoardLink} {torus : WrapAround} {size : ℤ × ℤ}
    {connections : Dict (ℤ × ℤ) String} (lasthost : Option String) (alive : Option Keepalive)
    (reads : ℕ) :
    Assigned id machine boards periphery torus size connections c
      ((c.prepared id name machine boards periphery torus size connections).refreshed id lasthost
        alive reads) := by
  have hself : ((c.prepared id name machine boards periphery torus size connections).refreshed id
      lasthost alive reads).job id = { c.job id with
        allocatedMachine := some machine
        boards := some boards
        periphery := some periphery
        torus := some torus
        width := some size.1
        height := some size.2
        connections := some connections
        lasthost := lasthost
        keepalive := alive } := by
    rw [job_refreshed, if_pos rfl, job_prepared, if_pos rfl]
  have hrewrites : Rewrites id c (c.prepared id name machine boards periphery torus size
      connections) :=
    (rewrites_assigned.trans (rewrites_setJob _ id _)).trans (rewrites_setJob _ id _)
  apply Assigned.mk (hrewrites.trans (rewrites_refreshed _ id lasthost alive reads))
  all_goals rw [hself]
  exact ⟨rfl, rfl⟩

/-- What `onAllocate` has looked up before it tells the job about its boards. -/
structure Looked (c : Controller) (id : ℕ) (name : String) (boards : Finset Board)
    (machine : Configuration.Machine) (origin top : Board)
    (connections : Dict (ℤ × ℤ) String) : Prop where
  live : id ∈ c.jobs
  registered : c.machines.get? name = some machine
  least : leastBoard boards = .ok origin
  greatest : greatestBoard boards = .ok top
  connected : connect machine origin Dict.empty (c.boardOrder.list boards) = .ok connections

theorem onAllocate_wp {name : String} {boards : Finset Board} {periphery : Finset BoardLink}
    {torus : WrapAround}
    (hjob : id ∉ c.jobs → E .keyError c)
    (hname : c.machines.get? name = none → E .keyError c)
    (hmin : ∀ machine e, id ∈ c.jobs → c.machines.get? name = some machine →
      leastBoard boards = .error e → E e (c.assigned id name machine boards periphery torus))
    (hmax : ∀ machine e, id ∈ c.jobs → c.machines.get? name = some machine →
      greatestBoard boards = .error e → E e (c.assigned id name machine boards periphery torus))
    (hip : ∀ machine origin top e, id ∈ c.jobs → c.machines.get? name = some machine →
      leastBoard boards = .ok origin → greatestBoard boards = .ok top →
      connect machine origin Dict.empty (c.boardOrder.list boards) = .error e →
      E e ((c.assigned id name machine boards periphery torus).sized id
        (dimensions origin top boards torus)))
    (hok : ∀ machine origin top connections c',
      c.Looked id name boards machine origin top connections →
      Assigned id machine boards periphery torus (dimensions origin top boards torus) connections
        c c' →
      wp (setJobPowerAndLinks id true (some false)) Q E c') :
    wp (onAllocate id name boards periphery torus) Q E c := by
  simp only [onAllocate, wp_bind, wp_state]
  by_cases hj : id ∈ c.jobs
  · rw [if_neg (not_not.mpr hj)]
    cases hm : c.machines.get? name with
    | none => exact hname hm
    | some machine =>
      simp only [wp_bind, wp_update]
      cases hleast : leastBoard boards with
      | error e => exact hmin machine e hj hm hleast
      | ok origin =>
        cases hgreatest : greatestBoard boards with
        | error e => exact hmax machine e hj hm hgreatest
        | ok top =>
          simp only [wp_ofExcept_ok]
          cases hconnect : connect machine origin Dict.empty (c.boardOrder.list boards) with
          | error e => exact hip machine origin top e hj hm hleast hgreatest hconnect
          | ok connections =>
            simp only [wp_bind, wp_ofExcept_ok, wp_update]
            apply setJobBoards_wp (c := c.prepared id name machine boards periphery torus
              (dimensions origin top boards torus) connections)
            · intro hno
              rw [job_prepared, if_pos rfl] at hno
              obtain hno | hno := hno
              · exact absurd hj hno
              · cases hno
            · intro _ _ lasthost alive reads
              exact hok machine origin top connections _ ⟨hj, hm, hleast, hgreatest, hconnect⟩
                (assigned_prepared lasthost alive reads)
  · rw [if_pos hj]
    exact hjob hj

theorem get?_retain {n : ℤ} {d : Dict ℕ (Option String)} {reason : Option String}
    (h : (retain n d).get? k = some reason) : d.get? k = some reason := by
  unfold retain at h
  split at h
  · exact Dict.get?_dropFirst h
  · exact h

theorem mem_retired {reason : Option String} :
    k ∈ (c.retired id reason).jobs ↔ k ∈ c.jobs ∧ k ≠ id := by
  simp [retired]

theorem retired_gone {reason : Option String}
    (h : ((c.retired id reason).retiredJobs.get? k).isSome) :
    k = id ∨ (c.retiredJobs.get? k).isSome := by
  obtain ⟨r, hr⟩ := Option.isSome_iff_exists.mp h
  have hset := get?_retain hr
  rw [Dict.get?_set] at hset
  split at hset
  · next he => exact .inl he.symm
  · exact .inr (Option.isSome_iff_exists.mpr ⟨r, hset⟩)

theorem get?_iterate_dropFirst {d : Dict ℕ (Option String)} {reason : Option String} (n : ℕ)
    (h : (Dict.dropFirst^[n] d).get? k = some reason) : d.get? k = some reason := by
  induction n generalizing d with
  | zero => exact h
  | succ n ih => exact Dict.get?_dropFirst (ih h)

theorem teardownJob_wp {reason : Option String} (hjob : id ∉ c.jobs → E .keyError c)
    (hidle : id ∈ c.jobs → (c.job id).boards = none → Q () (c.retired id reason))
    (hpower : id ∈ c.jobs → (c.job id).boards ≠ none →
      wp (setJobPowerAndLinks id false none) Q E (c.retired id reason)) :
    wp (teardownJob id reason) Q E c := by
  simp only [teardownJob, wp_bind, wp_state]
  by_cases hj : id ∈ c.jobs
  · rw [if_neg (not_not.mpr hj), wp_bind, wp_update]
    by_cases hb : (c.job id).boards = none
    · rw [if_neg (not_not.mpr hb)]
      exact hidle hj hb
    · rw [if_pos hb]
      exact hpower hj hb
  · rw [if_pos hj]
    exact hjob hj

theorem onFree_wp {reason : Option String} (hjob : id ∉ c.jobs → E .keyError c)
    (hnowhere : id ∈ c.jobs → (c.job id).allocatedMachine = none → E .attributeError c)
    (hok : ∀ machine, id ∈ c.jobs → (c.job id).allocatedMachine = some machine →
      wp (teardownJob id reason) Q E
        { c with changedMachines := insert machine.name c.changedMachines }) :
    wp (onFree id reason) Q E c := by
  simp only [onFree, wp_bind, wp_state]
  by_cases hj : id ∈ c.jobs
  · rw [if_neg (not_not.mpr hj)]
    cases hm : (c.job id).allocatedMachine with
    | none => exact hnowhere hj hm
    | some machine => exact hok machine hj hm
  · rw [if_pos hj]
    exact hjob hj

end SpallocServer.Controller
