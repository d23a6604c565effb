import SpallocServer.Controller.Roster
import SpallocServer.Controller.Counter

namespace SpallocServer.Controller

open Foundation Prog JobQueue Allocator

variable {q q' : JobQueue} {c c' : Controller} {t : JobQueue × Controller} {id k b : ℕ}
  {debt : ℕ → ℕ} {depth : ℤ} {leaving : List ℕ}

/-- The BMP controllers of the machines are running, and count their requests. Those in the list
are of machines that are removed. -/
structure Tally (debt : ℕ → ℕ) (leaving : List ℕ) (c : Controller) : Prop
    extends Counted debt c where
  running : ∀ name controllers, c.bmpControllers.get? name = some controllers →
    ∀ b ∈ controllers.values, (c.bmp b).stopped = false
  apart : ∀ name controllers name' controllers', c.bmpControllers.get? name = some controllers →
    c.bmpControllers.get? name' = some controllers' →
    ∀ b ∈ controllers.values, b ∈ controllers'.values → name = name'
  wired : ∀ name, (c.machines.get? name).isSome → (c.bmpControllers.get? name).isSome
  left : ∀ name controllers, c.bmpControllers.get? name = some controllers →
    ∀ b ∈ controllers.values, b ∉ leaving
  fresh : ∀ id, c.nextId ≤ id → id ∉ c.jobs ∧ (c.job id).allocatedMachine = none ∧
    (c.job id).bmpRequestsUntilReady = 0

namespace Tally

theorem congr {debt' : ℕ → ℕ} (h : Tally debt leaving c) (hc : Counted debt' c')
    (hm : c'.machines = c.machines) (hb : c'.bmpControllers = c.bmpControllers)
    (hs : ∀ b, (c'.bmp b).stopped = (c.bmp b).stopped)
    (hf : ∀ id, c'.nextId ≤ id → id ∉ c'.jobs ∧ (c'.job id).allocatedMachine = none ∧
      (c'.job id).bmpRequestsUntilReady = 0) : Tally debt' leaving c' := by
  refine ⟨hc, ?_, ?_, ?_, ?_, hf⟩
  · rw [hb]
    simp only [hs]
    exact h.running
  · rw [hb]
    exact h.apart
  · rw [hm, hb]
    exact h.wired
  · rw [hb]
    exact h.left

theorem rewrites {debt' : ℕ → ℕ} (h : Tally debt leaving c) (hr : Rewrites id c c')
    (hid : id < c.nextId) (hc : Counted debt' c') : Tally debt' leaving c' := by
  refine h.congr hc hr.machines hr.bmpControllers (fun b => by rw [hr.bmp]) fun k hk => ?_
  rw [hr.nextId] at hk
  rw [hr.jobs, hr.job k (by omega)]
  exact h.fresh k hk

theorem same (h : Tally debt leaving c) (hm : c'.machines = c.machines)
    (hc : c'.bmpControllers = c.bmpControllers) (hb : c'.bmp = c.bmp) (hn : c'.nextBmp = c.nextBmp)
    (hi : c'.nextId = c.nextId) (hjobs : ∀ k ∈ c'.jobs, k ∈ c.jobs) (hj : c'.job = c.job) :
    Tally debt leaving c' := by
  refine h.congr (h.toCounted.congr hc (fun b => by rw [hb]) hn fun k => by rw [hj]) hm hc
    (fun b => by rw [hb]) fun k hk => ?_
  rw [hi] at hk
  rw [hj]
  obtain ⟨hnew, hnone⟩ := h.fresh k hk
  exact ⟨fun hin => hnew (hjobs k hin), hnone⟩

theorem lt (h : Tally debt leaving c) (hid : id ∈ c.jobs) : id < c.nextId := by
  by_contra hn
  exact (h.fresh id (Nat.not_lt.mp hn)).1 hid

theorem power {power : Bool} {linkEnable : Option Bool} (h : Tally debt leaving c) :
    wp (setJobPowerAndLinks id power linkEnable) (fun _ => Tally debt leaving)
      (fun _ => Tally debt leaving) c := by
  apply setJobPowerAndLinks_wp
  · intro commands hcommands
    obtain ⟨_, _, _, hc⟩ := frameCommands_spec hcommands
    refine h.congr (h.toCounted.commanded hc power) rfl rfl (fun _ => rfl) fun k hk => ?_
    obtain ⟨hnew, hnone, hidle⟩ := h.fresh k hk
    have hk : k ≠ id := by
      rintro rfl
      rw [hc.placed] at hnone
      cases hnone
    rw [job_commanded, if_neg hk]
    exact ⟨hnew, hnone, hidle⟩
  · exact fun _ _ => h
  · intro commands l hcommands _ ⟨b, hb, hstopped⟩
    obtain ⟨machine, controllers, _, hc⟩ := frameCommands_spec hcommands
    obtain ⟨r, hr⟩ := Dict.mem_keys.mp hb
    rw [h.running _ _ hc.wired b (hc.addressed.controller b r hr)] at hstopped
    cases hstopped

theorem teardown {reason : Option String} (h : Tally debt leaving c) :
    wp (teardownJob id reason) (fun _ => Tally debt leaving) (fun _ => Tally debt leaving) c := by
  have hretired (reason : Option String) : Tally debt leaving (c.retired id reason) :=
    h.same rfl rfl rfl rfl rfl (fun _ hk => (mem_retired.mp hk).1) rfl
  apply teardownJob_wp
  · exact fun _ => h
  · exact fun _ _ => hretired _
  · exact fun _ _ => (hretired _).power

theorem free {reason : Option String} (h : Tally debt leaving c) :
    wp (onFree id reason) (fun _ => Tally debt leaving) (fun _ => Tally debt leaving) c := by
  apply onFree_wp
  · exact fun _ => h
  · exact fun _ _ => h
  · exact fun _ _ _ => teardown (h.same rfl rfl rfl rfl rfl (fun _ hk => hk) rfl)

theorem allocate {name : String} {boards : Finset Board} {periphery : Finset BoardLink}
    {torus : WrapAround} (h : Tally debt leaving c) :
    wp (onAllocate id name boards periphery torus) (fun _ => Tally debt leaving)
      (fun _ => Tally debt leaving) c := by
  have hassigned (machine : Configuration.Machine) (hid : id ∈ c.jobs) :
      Tally debt leaving (c.assigned id name machine boards periphery torus) := by
    apply h.rewrites rewrites_assigned (h.lt hid)
    apply h.toCounted.rewrites rewrites_assigned
    rw [job_assigned, if_pos rfl]
  apply onAllocate_wp
  · exact fun _ => h
  · exact fun _ => h
  · exact fun machine _ hid _ _ => hassigned machine hid
  · exact fun machine _ hid _ _ => hassigned machine hid
  · intro machine origin top _ hid _ _ _ _
    have ha := hassigned machine hid
    apply ha.rewrites (rewrites_setJob _ id _) (h.lt hid)
    apply ha.toCounted.rewrites (rewrites_setJob _ id _)
    rw [job_setJob, if_pos rfl]
  · intro machine _ _ _ c' hl ha
    exact power (h.rewrites ha.toRewrites (h.lt hl.live)
      (h.toCounted.rewrites ha.toRewrites ha.waits))

end Tally

theorem tally_steps (debt : ℕ → ℕ) (leaving : List ℕ) :
    Steps (fun t => Tally debt leaving t.2) (fun t => Tally debt leaving t.2)
      fun _ t => Tally debt leaving t.2 where
  alloc q c m j rest h _ _ := by
    apply (wp_trivial _).mono
    · intro res a _
      cases res with
      | none => exact h
      | some al => exact h.allocate
    · exact fun _ _ _ => h
  skip _ _ _ _ _ h _ _ := h
  offer _ _ _ _ h _ _ _ := h
  cancel _ _ _ _ h _ := h.teardown
  freed _ _ _ _ _ h _ _ _ := h.free
  read _ _ _ h := h.same rfl rfl rfl rfl rfl (fun _ hk => hk) rfl
  refresh q c id lasthost alive reads h := by
    have hwaits (k : ℕ) : ((c.refreshed id lasthost alive reads).job k).bmpRequestsUntilReady =
        (c.job k).bmpRequestsUntilReady :=
      job_refreshed_field (·.bmpRequestsUntilReady) (fun _ _ _ => rfl) lasthost alive reads
    refine h.congr (h.toCounted.congr rfl (fun _ => rfl) rfl hwaits) rfl rfl (fun _ => rfl)
      fun k hk => ?_
    obtain ⟨hnew, hnone, hidle⟩ := h.fresh k hk
    exact ⟨hnew, (job_refreshed_field (·.allocatedMachine) (fun _ _ _ => rfl) _ _ _).trans hnone,
      (hwaits k).trans hidle⟩
  power _ _ _ _ _ h _ _ := h.power
  free _ _ _ h _ := (wp_trivial _).mono (fun _ _ _ => h) fun _ _ _ => h

def Balanced (debt : ℕ → ℕ) (depth : ℤ) (t : JobQueue × Controller) : Prop :=
  Roster depth t ∧ Tally debt [] t.2

theorem balanced_rules (debt : ℕ → ℕ) (depth : ℤ) :
    JobRules (Balanced debt depth) fun _ => Balanced debt depth where
  toSteps := ((roster_steps depth).mono (fun _ h => h.1) (fun _ h => h) fun _ _ h => h).and
    ((tally_steps debt []).mono (fun _ h => h.2) (fun _ h => h) fun _ _ h => h)
  indexed _ h := h.1.indexed
  lost _ _ _ h _ _ := h

namespace Tally

theorem unregistered {name : String} {controllers : Dict (ℤ × ℤ) ℕ} (h : Tally debt leaving c)
    (hget : c.bmpControllers.get? name = some controllers) :
    Tally debt (leaving ++ controllers.values) (c.unregistered name) := by
  have hold (name' : String) (controllers' : Dict (ℤ × ℤ) ℕ)
      (h' : (c.unregistered name).bmpControllers.get? name' = some controllers') :
      name ≠ name' ∧ c.bmpControllers.get? name' = some controllers' := by
    change (c.bmpControllers.erase name).get? name' = _ at h'
    rw [Dict.get?_erase] at h'
    split at h'
    · cases h'
    · next hne => exact ⟨hne, h'⟩
  refine ⟨h.toCounted.unregistered name, fun n cs hn => h.running n cs (hold n cs hn).2,
    fun n cs n' cs' hn hn' => h.apart n cs n' cs' (hold n cs hn).2 (hold n' cs' hn').2,
    fun n hn => ?_, fun n cs hn b hb => ?_, h.fresh⟩
  · change ((c.machines.erase name).get? n).isSome at hn
    change ((c.bmpControllers.erase name).get? n).isSome
    rw [Dict.get?_erase] at hn ⊢
    split at hn
    · cases hn
    · next hne =>
      rw [if_neg hne]
      exact h.wired n hn
  · obtain ⟨hne, hn⟩ := hold n cs hn
    rw [List.mem_append, not_or]
    exact ⟨h.left n cs hn b hb, fun hb' => hne (h.apart name controllers n cs hget hn b hb' hb)⟩

theorem stopped (h : Tally debt leaving c) : Tally debt [] (c.stopped leaving) := by
  refine ⟨h.toCounted.congr rfl (requests_stopped leaving) rfl fun _ => rfl,
    fun n cs hn b hb => ?_, h.apart, h.wired, fun _ _ _ _ _ => List.not_mem_nil, h.fresh⟩
  change (if b ∈ leaving then (c.bmp b).stop else c.bmp b).stopped = false
  rw [if_neg (h.left n cs hn b hb)]
  exact h.running n cs hn b hb

theorem wiredFrame (h : Tally debt [] c) (name : String) (frame : ℤ × ℤ) (hostname : String) :
    Tally debt [] (c.wired name frame hostname) := by
  have hcases (n : String) (cs : Dict (ℤ × ℤ) ℕ)
      (hn : (c.wired name frame hostname).bmpControllers.get? n = some cs) (b : ℕ)
      (hb : b ∈ cs.values) : b = c.nextBmp ∧ n = name ∨
        b < c.nextBmp ∧ ∃ cs', c.bmpControllers.get? n = some cs' ∧ b ∈ cs'.values := by
    change (c.bmpControllers.set name _).get? n = some cs at hn
    rw [Dict.get?_set] at hn
    split at hn
    · next hname =>
      cases hn
      subst hname
      obtain ⟨frame', hf⟩ := Dict.mem_values.mp hb
      rw [Dict.get?_set] at hf
      split at hf
      · cases hf
        exact .inl ⟨rfl, rfl⟩
      · cases hold : c.bmpControllers.get? name with
        | none =>
          rw [hold] at hf
          cases hf
        | some controllers =>
          rw [hold] at hf
          have hb' : b ∈ controllers.values := Dict.mem_values.mpr ⟨_, hf⟩
          exact .inr ⟨h.known name controllers hold b hb', controllers, rfl, hb'⟩
    · exact .inr ⟨h.known n cs hn b hb, cs, hn, hb⟩
  refine ⟨h.toCounted.wired name frame hostname, fun n cs hn b hb => ?_,
    fun n cs n' cs' hn hn' b hb hb' => ?_, fun n hn => ?_, fun _ _ _ _ _ => List.not_mem_nil,
    h.fresh⟩
  · change (Function.update c.bmp c.nextBmp (.new hostname) b).stopped = false
    obtain ⟨rfl, -⟩ | ⟨hlt, cs', hold, hb'⟩ := hcases n cs hn b hb
    · rw [Function.update_self]
      rfl
    · rw [Function.update_of_ne hlt.ne]
      exact h.running n cs' hold b hb'
  · obtain ⟨rfl, hname⟩ | ⟨hlt, ds, hold, hds⟩ := hcases n cs hn b hb
    · obtain ⟨-, hname'⟩ | ⟨hlt', -⟩ := hcases n' cs' hn' _ hb'
      · rw [hname, hname']
      · exact absurd hlt' (lt_irrefl _)
    · obtain ⟨rfl, -⟩ | ⟨-, ds', hold', hds'⟩ := hcases n' cs' hn' b hb'
      · exact absurd hlt (lt_irrefl _)
      · exact h.apart n ds n' ds' hold hold' b hds hds'
  · change ((c.bmpControllers.set name _).get? n).isSome
    rw [Dict.get?_set]
    split
    · rfl
    · exact h.wired n hn

theorem registered {name : String} {machine : Configuration.Machine} (h : Tally debt [] c)
    (hname : machine.name = name) : Tally debt [] (c.registered name machine) := by
  subst hname
  apply registered_induct (P := Tally debt [])
  · have hold (n : String) (cs : Dict (ℤ × ℤ) ℕ)
        (hn : (c.bmpControllers.set machine.name Dict.empty).get? n = some cs) (b : ℕ)
        (hb : b ∈ cs.values) : c.bmpControllers.get? n = some cs := by
      rw [Dict.get?_set] at hn
      split at hn
      · cases hn
        exact absurd hb List.not_mem_nil
      · exact hn
    refine ⟨⟨fun n cs hn b hb => h.known n cs (hold n cs hn b hb) b hb, h.idle, h.count⟩,
      fun n cs hn b hb => h.running n cs (hold n cs hn b hb) b hb,
      fun n cs n' cs' hn hn' b hb hb' =>
        h.apart n cs n' cs' (hold n cs hn b hb) (hold n' cs' hn' b hb') b hb hb',
      fun n hn => ?_, fun _ _ _ _ _ => List.not_mem_nil, h.fresh⟩
    dsimp only at hn ⊢
    rw [Dict.get?_set] at hn ⊢
    split
    · rfl
    · next hne =>
      rw [if_neg hne] at hn
      exact h.wired n hn
  · exact fun c frame hostname h => h.wiredFrame machine.name frame hostname

end Tally

theorem tally_sweep (depth : ℤ) (leaving : List ℕ) (m : ℕ) :
    SweepRules depth m (fun t => Tally debt leaving t.2) fun _ t => Tally debt leaving t.2 where
  freed _ _ _ _ _ h _ _ _ := h.free
  free _ _ _ _ _ _ _ h _ _ _ _ _ := h

theorem balanced_assign {machines : Machines} :
    AssignRules machines (fun leaving t => Roster 1 t ∧ Tally debt leaving t.2)
      fun _ => Balanced debt 1 where
  postponed _ t h := h.1.postpone.symm ▸ Int.one_pos
  remove l name t h _ := by
    obtain ⟨q, c⟩ := t
    have hleft (c : Controller) (h : Tally debt l c) : Tally debt [] c :=
      ⟨h.toCounted, h.running, h.apart, h.wired, fun _ _ _ _ _ => List.not_mem_nil, h.fresh⟩
    apply SweepRules.removeMachine (tally_sweep 2 l) h.1 Int.one_pos fun _ _ => h.2
    · exact fun _ => ⟨h.1, hleft c h.2⟩
    · intro m q' c' _ _ ht _ _ hr
      refine ⟨fun _ => ⟨hr, hleft c' ht⟩, fun hn => ⟨hr.tables rfl rfl rfl rfl, ?_⟩,
        fun controllers hc => ⟨hr.tables rfl rfl rfl rfl, ht.unregistered hc⟩⟩
      have h' := hleft c' ht
      refine ⟨h'.toCounted.congr rfl (fun _ => rfl) rfl fun _ => rfl, h'.running, h'.apart,
        fun n hm => h'.wired n ?_, h'.left, h'.fresh⟩
      dsimp only at hm
      rw [Dict.get?_erase] at hm
      split at hm
      · cases hm
      · exact hm
    · exact fun _ q' c' hr ht => ⟨hr, hleft c' ht⟩
  stop l t h := ⟨Roster.tables (q := t.1) (c := t.2) h.1 rfl rfl rfl rfl, h.2.stopped⟩
  change name old new q c h hold _ _ := by
    refine ⟨fun _ => h, fun m _ =>
      ⟨(h.1.queue_congr (sameBooks_modified m _ _ _) rfl).tables rfl rfl rfl rfl, ?_⟩⟩
    refine ⟨h.2.toCounted.congr rfl (fun _ => rfl) rfl fun _ => rfl, h.2.running, h.2.apart,
      fun n hn => ?_, h.2.left, h.2.fresh⟩
    change ((c.machines.set name new).get? n).isSome at hn
    rw [Dict.get?_set] at hn
    split at hn
    · next hname => exact h.2.wired n (by rw [← hname, hold]; rfl)
    · exact h.2.wired n hn
  add name new q c h _ hnew := by
    obtain ⟨hn, hj, hr, hjob⟩ := registered_jobs c name new
    have ht := h.2.registered (machines.named name new hnew)
    exact ⟨fun _ => ⟨h.1.tables hn hj hr hjob, ht⟩, fun hnone =>
      ⟨(h.1.added hnone new.width new.height _ _ _).tables hn hj hr hjob, ht⟩⟩
  move name q c h := by
    have ht : Tally debt [] { c with machines := c.machines.moveToEnd name } := by
      refine ⟨h.2.toCounted.congr rfl (fun _ => rfl) rfl fun _ => rfl, h.2.running, h.2.apart,
        fun n hn => ?_, h.2.left, h.2.fresh⟩
      dsimp only at hn
      rw [Dict.get?_moveToEnd] at hn
      exact h.2.wired n hn
    exact ⟨fun _ => h, fun _ => ⟨h.1.tables rfl rfl rfl rfl, ht⟩,
      (h.1.moved name).tables rfl rfl rfl rfl, ht⟩

namespace Balanced

theorem exit (depth : ℤ) (h : Balanced debt (depth + 1) t) :
    wp (JobQueue.exit callbacks) (fun _ => Balanced debt depth) (fun _ => Balanced debt depth) t := by
  obtain ⟨q, c⟩ := t
  apply (balanced_rules debt depth).exit (fun _ _ he => he) (fun _ _ ht => ht)
  · exact fun _ _ ht => ⟨ht.1.queue_congr sameBooks_cleared rfl, ht.2⟩
  · have hpost : q.postpone = depth + 1 := h.1.postpone
    rw [hpost, Int.add_sub_cancel]
    exact ⟨h.1.postponed depth, h.2⟩

theorem enlisted {owner : String} {alive : Option Keepalive} {host : Option String} {reads : ℕ}
    (h : Tally debt [] c) :
    Tally debt [] (Controller.createdJob { c with nextId := c.nextId + 1, reads := reads }
      c.nextId owner alive host) := by
  obtain ⟨-, -, hidle⟩ := h.fresh c.nextId le_rfl
  refine h.congr (h.toCounted.congr rfl (fun _ => rfl) rfl fun k => ?_) rfl rfl (fun _ => rfl)
    fun k hk => ?_
  · rw [job_createdJob]
    split
    · next hk =>
      rw [hk]
      exact hidle.symm
    · rfl
  · change c.nextId + 1 ≤ k at hk
    have hne : k ≠ c.nextId := by omega
    obtain ⟨hnew, hnone⟩ := h.fresh k (by omega)
    rw [job_createdJob, if_neg hne]
    refine ⟨fun hin => ?_, hnone⟩
    obtain hin | hin := List.mem_append.mp hin
    · exact hnew hin
    · exact hne (List.mem_singleton.mp hin)

end Balanced

theorem createJob_balanced {ownerhost owner : Option String} {keepalive : Option (Option ℚ)}
    {machine : Option MachineName} {tags : Option Tags} {request : Request}
    (h : Balanced debt depth t) :
    wp (createJob ownerhost owner keepalive machine tags request) (fun _ => Balanced debt depth)
      (fun _ => Balanced debt depth) t := by
  obtain ⟨q, c⟩ := t
  apply (balanced_rules debt depth).createJob (fun _ _ he => he) (fun _ _ ht => ht) h
  · exact fun _ _ _ _ _ => ⟨h.1.enlisted, Balanced.enlisted h.2⟩
  · exact fun _ _ _ tags hnone => ⟨h.1.created hnone machine tags request, Balanced.enlisted h.2⟩
  · exact fun _ _ _ ht => ⟨ht.1.tables rfl rfl rfl rfl,
      ht.2.same rfl rfl rfl rfl rfl (fun _ hk => hk) rfl⟩

theorem Tally.owing_lt (h : Tally (owing id) leaving c) : id < c.nextId := by
  by_contra hn
  have hidle := (h.fresh id (Nat.not_lt.mp hn)).2.2
  have hcount := h.count id
  unfold owing at hcount
  rw [if_pos rfl] at hcount
  omega

theorem Tally.uncounted (h : Tally (owing id) leaving c) : Tally settled leaving (c.uncounted id) :=
  h.rewrites rewrites_uncounted h.owing_lt h.toCounted.uncounted

theorem Tally.readied (h : Tally (owing id) leaving c) :
    Tally settled leaving ((c.uncounted id).readied id) := by
  apply h.uncounted.rewrites rewrites_readied h.owing_lt
  apply h.toCounted.uncounted.rewrites rewrites_readied
  rw [Controller.readied, job_setJob, if_pos rfl]

theorem Tally.popped {r : AtomicRequests} {rest : List AtomicRequests}
    (h : Tally settled leaving c) (hr : (c.bmp b).requests = r :: rest) :
    Tally (owing r.onDone) leaving (c.setBmp b (c.bmp b).popped) := by
  refine h.congr (h.toCounted.popped hr) rfl rfl (fun b' => ?_) h.fresh
  change (Function.update c.bmp b _ b').stopped = _
  by_cases hb : b' = b
  · rw [hb, Function.update_self]
    rfl
  · rw [Function.update_of_ne hb]

theorem owing_waits (h : Counted (owing id) c) : 1 ≤ (c.job id).bmpRequestsUntilReady := by
  rw [h.count]
  unfold owing
  rw [if_pos rfl]
  omega

theorem complete_balanced {success : Bool} (h : Balanced settled depth t) :
    wp (complete b success) (fun _ => Balanced settled depth) (fun _ _ => True) t := by
  obtain ⟨q, c⟩ := t
  apply complete_wp
  · exact fun _ => h
  intro r rest hr
  apply bmpOnRequestComplete_wp (J := Balanced (owing r.onDone) depth)
  · exact ⟨h.1.tables rfl rfl rfl rfl, h.2.popped hr⟩
  · exact fun _ reason t ht =>
      ((balanced_rules _ depth).destroyJob ht).mono (fun _ _ ht => ht) fun _ _ _ => trivial
  · exact fun _ _ _ _ => trivial
  · exact fun q c ht _ => ⟨ht.1.uncounted _, ht.2.uncounted⟩
  · intro q c ht _
    have hready : Balanced settled depth (q, (c.uncounted r.onDone).readied r.onDone) :=
      ⟨ht.1.readied _, ht.2.readied⟩
    apply freeRetired_wp
    · exact fun _ => hready
    · intro hretired
      apply hready.1.free_wp (ht.1.gone _ hretired)
        fun t ht => ((balanced_rules settled depth).processQueue ht).mono (fun _ _ ht => ht)
          fun _ _ _ => trivial
      · exact fun _ => hready
      · exact fun j m a b hj hh hm hrun => ⟨hready.1.freed hj hh hm hrun, hready.2⟩
  · exact fun q c ids ht => ⟨ht.1.tables rfl rfl rfl rfl,
      ht.2.same rfl rfl rfl rfl rfl (fun _ hk => hk) rfl⟩

theorem setMachines_balanced {machines : Machines} (h : Balanced settled 0 t) :
    wp (setMachines machines) (fun _ => Balanced settled 0) (fun _ => Balanced settled 0) t := by
  apply balanced_assign.setMachines
  · rw [h.1.postpone]
    exact ⟨Roster.postponed (q := t.1) (c := t.2) h.1 1, h.2⟩
  · exact fun _ ht => Balanced.exit 0 ht
  · exact fun _ _ ht => Balanced.exit 0 ht
  · exact fun q c names ht => ⟨ht.1.tables rfl rfl rfl rfl,
      ht.2.same rfl rfl rfl rfl rfl (fun _ hk => hk) rfl⟩

theorem exec_balanced {op : Operation} (h : Balanced settled 0 t) (hop : op ≠ .stop) :
    wp (exec op) (fun _ => Balanced settled 0)
      (fun _ t' => (∀ b success, op ≠ .complete b success) → Balanced settled 0 t') t := by
  have hrules := (balanced_rules settled 0).weaken
    fun _ _ ht (_ : ∀ b success, op ≠ .complete b success) => ht
  cases op with
  | createJob ownerhost owner keepalive machine tags request =>
    simp only [exec, wp_bind]
    exact (createJob_balanced h).mono (fun _ _ ht => ht) fun _ _ ht _ => ht
  | jobKeepalive clienthost id => exact hrules.jobKeepalive h
  | powerOnJobBoards clienthost id => exact hrules.setJobBoards h
  | powerOffJobBoards clienthost id => exact hrules.setJobBoards h
  | destroyJob id reason => exact hrules.destroyJob h
  | destroyTimedOutJobs => exact hrules.destroyTimedOutJobs h
  | checkFree => exact hrules.checkFree h
  | setMaxRetiredJobs value =>
    have hroster := setMaxRetiredJobs_roster value h.1
    exact ⟨hroster, h.2.same rfl rfl rfl rfl rfl (fun _ hk => hk) rfl⟩
  | setMachines machines =>
    exact (setMachines_balanced h).mono (fun _ _ ht => ht) fun _ _ ht _ => ht
  | stop => exact absurd rfl hop
  | complete b success =>
    exact (complete_balanced h).mono (fun _ _ ht => ht) fun _ _ _ hno => absurd rfl (hno b success)

theorem start_balanced (s : Setup) : Balanced settled 0 s.start :=
  ⟨start_roster s, ⟨nofun, fun _ _ => rfl, fun _ => rfl⟩, nofun, nofun, nofun, nofun,
    fun _ _ => ⟨List.not_mem_nil, rfl, rfl⟩⟩

/-- The controller is not stopped, and a completed request is counted down. -/
def Settles (t : JobQueue × Controller) (op : Operation) : Prop :=
  op ≠ .stop ∧ ∀ b success, op = .complete b success → Returns t op

/-- Whatever else is done before the controller is stopped, and whether or not it raises, a job
waits for its requests, and the BMP controllers of the machines are running. -/
theorem reachable_balanced {s : Setup} (h : ((system s).restrict Settles).Reachable t) :
    Balanced settled 0 t := by
  apply h.invariant
  · rintro _ rfl
    exact start_balanced s
  · rintro t op _ - ht ⟨⟨hop, hcomplete⟩, rfl⟩
    have hexec := exec_balanced ht hop
    by_cases hret : Returns t op
    · obtain ⟨t', hrun⟩ := run_of_isOk hret
      have ht' := wp_of_eq_ok hexec hrun
      rw [hrun]
      exact ht'
    · have hno (b : ℕ) (success : Bool) : op ≠ .complete b success :=
        fun hop' => hret (hcomplete b success hop')
      exact wp_same (hexec.mono (fun _ _ ht => ht) fun _ _ ht => ht hno)

def givenBack (q : JobQueue) (id : ℕ) : JobQueue :=
  match q.jobs.get? id with
  | none => q
  | some j =>
    match (q.job j).machine, (q.job j).allocationId with
    | some m, some a =>
      (q.dropped id).setAllocator m ((Allocator.free a).run (q.machine m).allocator).2
    | _, _ => q.dropped id

def refuses (a : Allocator) (r : Request) : Bool :=
  match ((Allocator.alloc r).run a).1 with
  | .ok none => true
  | _ => false

def Blocked (q : JobQueue) : Prop :=
  ∀ m ∈ q.machines.values, ((q.machine m).queue.find? fun j => (q.job j).pending).all
    fun j => refuses (q.machine m).allocator (q.job j).request

instance (q : JobQueue) : Decidable (Blocked q) := inferInstanceAs (Decidable (∀ _ ∈ _, _ = true))

/-- The completion destroys no job, and frees no boards that a queued job would be given. -/
def Calm (t : JobQueue × Controller) (completion : ℕ × Bool) : Prop :=
  ∀ r ∈ (t.2.bmp completion.1).requests.head?, (completion.2 = true ∨ r.onDone ∉ t.2.jobs) ∧
    ((t.2.job r.onDone).bmpRequestsUntilReady = 1 → (t.2.retiredJobs.get? r.onDone).isSome →
      (t.1.jobs.get? r.onDone).isSome → Blocked (givenBack t.1 r.onDone))

instance (t : JobQueue × Controller) (completion : ℕ × Bool) : Decidable (Calm t completion) :=
  inferInstanceAs (Decidable (∀ _ ∈ _, _))

theorem processHead_blocked {ω : Type} {cb : Callbacks ω} {w : ω} {m : ℕ} (n : ℕ)
    (h : ((q.machine m).queue.find? fun j => (q.job j).pending).all
      fun j => refuses (q.machine m).allocator (q.job j).request) :
    wp (processHead cb m n) (fun started t => started = false ∧ t.2 = w ∧ t.1.job = q.job ∧
      t.1.machines = q.machines ∧ ∀ n ≠ m, t.1.machine n = q.machine n) (fun _ _ => False)
      (q, w) := by
  induction n generalizing q with
  | zero => exact ⟨rfl, rfl, rfl, rfl, fun _ _ => rfl⟩
  | succ n ih =>
    simp only [processHead, wp_bind, wp_queue]
    cases hq : (q.machine m).queue with
    | nil => exact ⟨rfl, rfl, rfl, rfl, fun _ _ => rfl⟩
    | cons j rest =>
      rw [hq] at h
      dsimp only
      cases hp : (q.job j).pending with
      | false =>
        rw [if_pos (by simp), wp_bind, wp_change]
        rw [List.find?_cons_of_neg (by simp [hp])] at h
        have hself : (q.setQueue m rest).machine m = { q.machine m with queue := rest } := by
          rw [machine_setQueue, if_pos rfl]
        have hrest := ih (q := q.setQueue m rest) (by rw [hself]; exact h)
        apply hrest.mono _ fun _ _ he => he
        intro started t ⟨h1, h2, h3, h4, h5⟩
        refine ⟨h1, h2, h3, h4, fun n' hn => ?_⟩
        rw [h5 n' hn, machine_setQueue, if_neg hn]
      | true =>
        rw [List.find?_cons_of_pos (p := fun j => (q.job j).pending) hp, Option.all_some,
          refuses] at h
        rw [if_neg (by simp), wp_bind]
        simp only [tryJob, wp_bind, wp_queue, wp_onAllocator]
        split at h
        · next hrun =>
          have hrefused : (Allocator.alloc (q.job j).request).run (q.machine m).allocator =
              (.ok none, ((Allocator.alloc (q.job j).request).run (q.machine m).allocator).2) :=
            Prod.ext hrun rfl
          apply wp_intro_ok hrefused
          refine ⟨rfl, rfl, rfl, rfl, fun n' hn => ?_⟩
          dsimp only
          rw [machine_setAllocator, if_neg hn]
        · cases h

theorem processMachines_blocked {ω : Type} {cb : Callbacks ω} {w : ω} {machines : List ℕ}
    (hn : machines.Nodup)
    (h : ∀ m ∈ machines, ((q.machine m).queue.find? fun j => (q.job j).pending).all
      fun j => refuses (q.machine m).allocator (q.job j).request) :
    wp (processMachines cb machines) (fun started t => started = false ∧ t.2 = w)
      (fun _ _ => False) (q, w) := by
  induction machines generalizing q with
  | nil => exact ⟨rfl, rfl⟩
  | cons m machines ih =>
    obtain ⟨hm, hn⟩ := List.nodup_cons.mp hn
    simp only [processMachines, wp_bind, wp_queue]
    apply (processHead_blocked _ (h m List.mem_cons_self)).mono _ fun _ _ he => he
    rintro _ ⟨q', _⟩ ⟨rfl, rfl, hjob, -, hother⟩
    dsimp only at hjob hother
    rw [wp_bind]
    have hrest := ih (q := q') hn fun n hin => by
      have hne : n ≠ m := by
        rintro rfl
        exact hm hin
      rw [hother n hne, hjob]
      exact h n (List.mem_cons_of_mem m hin)
    apply hrest.mono _ fun _ _ he => he
    rintro _ t ⟨rfl, ht⟩
    exact ⟨rfl, ht⟩

theorem processQueue_blocked {ω : Type} {cb : Callbacks ω} {w : ω} (hl : q.Linked)
    (h : Blocked q) :
    wp (processQueue cb) (fun _ t => t.2 = w) (fun _ _ => False) (q, w) := by
  have hn : q.machines.values.Nodup := Dict.values_nodup fun name name' m hm hm' =>
    (hl.names name m hm).1.symm.trans (hl.names name' m hm').1
  simp only [processQueue, wp_bind, wp_queue]
  split
  · rfl
  · simp only [processLoop, wp_bind, wp_queue]
    apply (processMachines_blocked hn h).mono _ fun _ _ he => he
    rintro _ t ⟨rfl, ht⟩
    exact ht

def Winding (t : JobQueue × Controller) : Prop := Roster 0 t ∧ Counted settled t.2

theorem givenBack_eq {j m a : ℕ} {a' : Allocator} (hj : q.jobs.get? id = some j)
    (hh : q.Holds j m a) (hrun : (Allocator.free a).run (q.machine m).allocator = (.ok (), a')) :
    givenBack q id = (q.dropped id).setAllocator m a' := by
  unfold givenBack
  rw [hj]
  dsimp only
  rw [hh.1, hh.2]
  dsimp only
  rw [hrun]

theorem complete_calm {b : ℕ} {success : Bool} (h : Winding t) (hcalm : Calm t (b, success)) :
    wp (complete b success) (fun _ => Winding) (fun _ _ => False) t := by
  obtain ⟨q, c⟩ := t
  apply complete_wp
  · exact fun _ => h
  intro r rest hr
  obtain ⟨halive, hblocked⟩ := hcalm r (by rw [hr]; rfl)
  have hroster : Roster 0 (q, c.setBmp b (c.bmp b).popped) := h.1.tables rfl rfl rfl rfl
  have hcounted : Counted (owing r.onDone) (c.setBmp b (c.bmp b).popped) := h.2.popped hr
  apply bmpOnRequestComplete_wp (J := fun t => t = (q, c.setBmp b (c.bmp b).popped)) rfl
  · rintro hfailed reason _ rfl
    have hgone : r.onDone ∉ (c.setBmp b (c.bmp b).popped).jobs :=
      halive.resolve_left (by rw [hfailed]; exact Bool.false_ne_true)
    simp only [destroyJob, wp_bind, wp_controller]
    rw [if_neg hgone]
    rfl
  · rintro _ _ ⟨rfl, rfl⟩ hneg
    have hwaits := owing_waits hcounted
    omega
  · rintro _ _ ⟨rfl, rfl⟩ _
    exact ⟨hroster.uncounted _, hcounted.uncounted⟩
  · rintro _ _ ⟨rfl, rfl⟩ hlast
    have hready := hroster.readied r.onDone
    have hcount : Counted settled
        (((c.setBmp b (c.bmp b).popped).uncounted r.onDone).readied r.onDone) := by
      apply hcounted.uncounted.rewrites rewrites_readied
      rw [readied, job_setJob, if_pos rfl]
    apply freeRetired_wp
    · exact fun _ => ⟨hready, hcount⟩
    · intro hretired
      apply hready.free_wp (h.1.gone _ hretired) (K := fun t => Roster 0 t ∧ Counted settled t.2 ∧
        Blocked t.1)
      · intro t ⟨hr, hc, hb⟩
        obtain ⟨q', c'⟩ := t
        have hquiet : wp (processQueue callbacks) (fun _ t => t.2 = c') (fun _ _ => False)
            (q', c') := processQueue_blocked hr.linked hb
        apply (((roster_rules 0).processQueue hr).and hquiet).mono
        · intro _ t ⟨hr', hsame⟩
          exact ⟨hr', by rw [hsame]; exact hc⟩
        · exact fun _ _ he => he.2
      · exact fun _ => ⟨hready, hcount⟩
      · intro j m a a' hj hh hm hrun
        refine ⟨hready.freed hj hh hm hrun, hcount, ?_⟩
        rw [← givenBack_eq hj hh hrun]
        exact hblocked hlast hretired (by rw [hj]; rfl)
  · intro q c ids ht
    exact ⟨ht.1.tables rfl rfl rfl rfl, ht.2.congr rfl (fun _ => rfl) rfl fun _ => rfl⟩

theorem stop_balanced (h : Balanced settled 0 t) :
    wp (own stop) (fun _ => Winding) (fun _ _ => False) t := by
  obtain ⟨q, c⟩ := t
  apply stop_wp
  · intro bmps
    exact ⟨h.1.tables rfl rfl rfl rfl,
      h.2.toCounted.congr rfl (requests_stopped bmps) rfl fun _ => rfl⟩
  · intro bmps ⟨name, hname, hnone⟩
    have hwired := h.2.wired name hname
    dsimp only at hwired
    rw [hnone] at hwired
    cases hwired

/-- A request is completed while `join` waits. -/
def flushed (t : JobQueue × Controller) (completion : ℕ × Bool) : JobQueue × Controller :=
  next t (.complete completion.1 completion.2)

theorem flush_winding {completions : List (ℕ × Bool)} (h : Winding t)
    (hcalm : System.Along flushed Calm t completions) :
    System.Along flushed (fun t p => Returns t (.complete p.1 p.2)) t completions ∧
      Winding (completions.foldl flushed t) := by
  induction completions generalizing t with
  | nil => exact ⟨trivial, h⟩
  | cons p completions ih =>
    obtain ⟨hp, hcalm⟩ := hcalm
    obtain ⟨_, t', hrun, ht'⟩ := wp_returns (complete_calm h hp)
    have hnext : flushed t p = t' := by
      unfold flushed next exec
      rw [hrun]
    rw [hnext] at hcalm
    obtain ⟨hrest, hlast⟩ := ih ht' hcalm
    refine ⟨⟨?_, by rw [hnext]; exact hrest⟩, by rw [List.foldl_cons, hnext]; exact hlast⟩
    change ((complete p.1 p.2).run t).1.isOk = true
    rw [hrun]
    rfl

/-- After `stop`, completions that destroy no job and let no job start do not raise, and no job
waits for anything once no request is left. -/
theorem shutdown_clean {s : Setup} {completions : List (ℕ × Bool)}
    (h : ((system s).restrict Settles).Reachable t)
    (hcalm : System.Along flushed Calm (next t .stop) completions) :
    Returns t .stop ∧
      System.Along flushed (fun t p => Returns t (.complete p.1 p.2)) (next t .stop) completions ∧
      ((∀ b, ((completions.foldl flushed (next t .stop)).2.bmp b).requests = []) → ∀ id,
        ((completions.foldl flushed (next t .stop)).2.job id).bmpRequestsUntilReady = 0 ∧
          (completions.foldl flushed (next t .stop)).2.outstanding id = 0) := by
  obtain ⟨_, t', hrun, ht'⟩ := wp_returns (stop_balanced (reachable_balanced h))
  have hnext : next t .stop = t' := by
    unfold next exec
    rw [hrun]
  rw [hnext] at hcalm ⊢
  obtain ⟨hret, hlast⟩ := flush_winding ht' hcalm
  refine ⟨?_, hret, fun hempty id => ?_⟩
  · change ((own stop).run t).1.isOk = true
    rw [hrun]
    rfl
  · have hzero : (completions.foldl flushed t').2.outstanding id = 0 := by
      unfold outstanding
      simp only [hempty, List.countP_nil, Finset.sum_const_zero]
    refine ⟨?_, hzero⟩
    rw [hlast.2.count, hzero]
    rfl

theorem shutdown_clean_poweringOn :
    ((system Setup.quiet).restrict Settles).Reachable (runs Setup.quiet.start poweringOn) ∧
      ((runs Setup.quiet.start poweringOn).2.bmp 0).requests ≠ [] ∧
      Returns (runs Setup.quiet.start poweringOn) .stop ∧
      Returns (next (runs Setup.quiet.start poweringOn) .stop) (.complete 0 true) := by
  have h : ((system Setup.quiet).restrict Settles).Reachable
      (runs Setup.quiet.start poweringOn) :=
    reachable_runs (.start rfl) ⟨⟨nofun, nofun⟩, ⟨nofun, nofun⟩, trivial⟩
  have hcalm : System.Along flushed Calm (next (runs Setup.quiet.start poweringOn) .stop)
      [(0, true)] := ⟨by decide +kernel, trivial⟩
  have hclean := shutdown_clean h hcalm
  exact ⟨h, by decide +kernel, hclean.1, hclean.2.1.1⟩

/-- A request that fails after `stop` has its job send a command to a stopped controller. -/
theorem shutdown_not_clean :
    ((system Setup.quiet).restrict Settles).Reachable (runs Setup.quiet.start poweringOn) ∧
      Returns (runs Setup.quiet.start poweringOn) .stop ∧
      ((exec (.complete 0 false)).run (next (runs Setup.quiet.start poweringOn) .stop)).1 =
        .error .assertionError ∧
      ((next (next (runs Setup.quiet.start poweringOn) .stop) (.complete 0 false)).2.bmp
        0).requests = [] ∧
      ((next (next (runs Setup.quiet.start poweringOn) .stop) (.complete 0 false)).2.job
        1).bmpRequestsUntilReady = 2 := by
  refine ⟨reachable_runs (.start rfl) ⟨⟨nofun, nofun⟩, ⟨nofun, nofun⟩, trivial⟩, ?_⟩
  decide +kernel

end SpallocServer.Controller
