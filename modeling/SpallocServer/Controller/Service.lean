import SpallocServer.JobQueue.Service
import SpallocServer.Controller.Hardware
import SpallocServer.Controller.Shutdown

namespace SpallocServer.Controller

open Foundation Prog JobQueue Allocator

variable {q q' : JobQueue} {c c' : Controller} {t t' : JobQueue × Controller} {id j m k : ℕ}
  {depth : ℤ} {debt : ℕ → ℕ} {name : String} {new : Configuration.Machine} {S : Allocator → Prop}
  {accepted : Configuration.Machine → Prop}
  {permitted : Configuration.Machine → JobQueue × Controller → Prop}

/-- With the new dead boards, the boards that work in a triad that is open for single boards are
not just a part of its boards in use: no release will be hasty, in whatever order boards are given
back. -/
def Tolerated (new : Configuration.Machine) (t : JobQueue × Controller) : Prop :=
  ∀ m, t.1.machines.get? new.name = some m →
    ({ (t.1.machine m).allocator with
      deadBoards := new.deadBoards, deadLinks := new.deadLinks } : Allocator).ledger.Resilient
      ({ (t.1.machine m).allocator with
        deadBoards := new.deadBoards, deadLinks := new.deadLinks } : Allocator).working

theorem tolerated_local : Local Tolerated := by
  intro new t t' h ha m hm
  rw [ha.queued] at hm
  rw [ha.allocator m hm]
  exact h m hm

theorem Narrows.serviceable (hv : Narrows t t') (h : t.1.Serviceable S) : t'.1.Serviceable S := by
  have hsame (m : ℕ) (hm : m ∈ t'.1.machines.values) : m ∈ t.1.machines.values := by
    obtain ⟨name, hname⟩ := Dict.mem_values.mp hm
    rw [hv.queued] at hname
    exact Dict.mem_values.mpr ⟨name, hname⟩
  refine h.fewer hsame (fun m hm => ?_) hv.queue (fun i => ?_) hv.nextJob ?_
  · rw [hv.allocator]
    exact h.sound m (hsame m hm)
  · rw [hv.queuedJob]
  · rw [hv.queuedJobs]

theorem alloc_serviceable (hS : Closed S) (h : q.Serviceable S) (hm : m ∈ q.machines.values)
    (hq : j ∈ (q.machine m).queue) :
    wp (Allocator.alloc (q.job j).request) (fun res a =>
      match res with
      | none => (q.setAllocator m a).Serviceable S
      | some al =>
        wp (onAllocate (q.job j).id (q.machine m).name al.boards al.periphery al.torus)
          (fun _ _ => ((q.setAllocator m a).placed j m al.id).Serviceable S)
          (fun _ _ => ((q.setAllocator m a).placed j m al.id).Serviceable S) c)
      (fun _ a => (q.setAllocator m a).Serviceable S) (q.machine m).allocator := by
  apply (hS.alloc _ _ (h.sound m hm) (h.queued m hm j hq).2).mono _
    fun _ _ ha => h.setAllocator ha
  intro res a ha
  have hset : (q.setAllocator m a).Serviceable S := h.setAllocator ha
  cases res with
  | none => exact hset
  | some al =>
    have hplaced : ((q.setAllocator m a).placed j m al.id).Serviceable S := hset.setJob rfl
    exact (wp_trivial _).mono (fun _ _ _ => hplaced) fun _ _ _ => hplaced

theorem offer_serviceable (hr : Roster depth (q, c)) (h : q.Serviceable S)
    (hp : (q.job j).pending = true) (hm : m ∈ q.machines.values)
    (ho : (q.machine m).allocator.allocPossible (q.job j).request = .ok true) :
    (q.setQueue m ((q.machine m).queue ++ [j])).Serviceable S := by
  apply h.setQueue
  intro i hi
  obtain hi | hi := List.mem_append.mp hi
  · exact h.queued m hm i hi
  · obtain rfl := List.mem_singleton.mp hi
    exact ⟨(hr.linked.ids _ i (hr.linked.known i hp)).2, good_of_possible ho⟩

theorem serviceable_steps (hS : Closed S) (depth : ℤ) :
    Steps (fun t => Roster depth t ∧ t.1.Serviceable S) (fun t => t.1.Serviceable S)
      fun _ t => t.1.Serviceable S where
  alloc q c m j rest h hh _ :=
    alloc_serviceable hS h.2 hh.machine (hh.queue ▸ List.mem_cons_self)
  skip _ c _ _ _ h hh _ := (narrows_skip hh c).serviceable h.2
  offer _ _ _ _ h hp hm ho := offer_serviceable h.1 h.2 hp hm ho
  cancel q c j reason h _ := by
    have hwithdrawn : (q.withdrawn j).Serviceable S := h.2.setJob rfl
    exact (wp_trivial _).mono (fun _ _ _ => hwithdrawn.dropped (q.job j).id)
      fun _ _ _ => hwithdrawn
  freed _ _ _ _ _ h _ _ _ := (wp_trivial _).mono (fun _ _ _ => h.2) fun _ _ _ => h.2
  read _ _ _ h := h.2
  refresh _ _ _ _ _ _ h := h.2
  power _ _ _ _ _ h _ _ := (wp_trivial _).mono (fun _ _ _ => h.2) fun _ _ _ => h.2
  free _ _ m h hm := (hS.checkFree _ (h.2.sound m hm)).mono (fun _ _ ha => h.2.setAllocator ha)
    fun _ _ ha => h.2.setAllocator ha

/-- `S` is kept for the allocators of a controller. -/
structure Lasting (S : Allocator → Prop) (accepted : Configuration.Machine → Prop)
    (permitted : Configuration.Machine → JobQueue × Controller → Prop) : Prop
    extends Stable S where
  new : ∀ (machine : Configuration.Machine) secondsBeforeFree clock setPop, accepted machine →
    S (.new machine.width machine.height machine.deadBoards machine.deadLinks 1 secondsBeforeFree
      clock setPop)
  changed : ∀ (new : Configuration.Machine) (t : JobQueue × Controller) m, permitted new t →
    t.1.machines.get? new.name = some m → S (t.1.machine m).allocator →
      S { (t.1.machine m).allocator with
        deadBoards := new.deadBoards, deadLinks := new.deadLinks }

theorem lasting_robust : Lasting Robust Sized Tolerated where
  toStable := stable_robust
  new _ _ _ _ hsized := robust_new hsized.1 hsized.2
  changed _ _ m hp hm h := ⟨h.unhurried.reconfigured _ _, hp m hm⟩

theorem serviceable_rules (hS : Lasting S accepted permitted) :
    UpkeepRules True accepted permitted (fun t => Hosting t ∧ t.1.Serviceable S)
      fun t => t.1.Serviceable S where
  agreed _ h := h.1.toAgreed
  numbered q c h := hosting_rules.numbered q c h.1
  view _ _ h hv := hv.serviceable h.2
  alloc _ _ _ _ _ _ h hm hq _ := alloc_serviceable hS.toClosed h.2 hm hq
  offer _ _ _ _ _ hr h hp hm ho := offer_serviceable hr h.2 hp hm ho
  checked _ _ _ m _ h hm :=
    (hS.checkFree _ (h.2.sound m hm)).mono (fun _ _ ha => h.2.setAllocator ha)
      fun _ _ ha => h.2.setAllocator ha
  cancelled depth q c j reason _ h _ := by
    have hwithdrawn : (q.withdrawn j).Serviceable S := h.2.setJob rfl
    exact hwithdrawn.dropped (q.job j).id
  retired _ _ _ _ _ _ h _ := h.2
  freed depth q c id j m a b hr h _ hj hh hm hrun := by
    have htype := (hr.linked.image m hm a).mpr ⟨j, Dict.mem_values.mpr ⟨id, hj⟩, hh⟩
    have hb := wp_of_eq_ok (hS.free _ a (h.2.sound m hm) htype) hrun
    exact (h.2.dropped id).setAllocator hb
  enlisted _ _ _ _ _ _ _ _ _ h := h.2
  created _ _ _ _ _ _ _ _ _ _ hr h hnone := h.2.created hr.linked hnone
  removed q c name m h _ _ _ := by
    have hfewer (n : ℕ) (hn : n ∈ (q.machines.erase name).values) : n ∈ q.machines.values :=
      (Dict.values_erase_sublist _ _).subset hn
    exact h.2.fewer hfewer (fun n hn => h.2.sound n (hfewer n hn)) (fun _ _ hi => hi)
      (fun _ => rfl) rfl (List.Sublist.refl _)
  changed q c name old new m _ h _ hm hname _ _ hp := by
    subst hname
    exact h.2.modified (some new.tags) (some new.deadBoards) (some new.deadLinks)
      (hS.changed new (q, c) m hp hm (h.2.sound m (Dict.mem_values.mpr ⟨new.name, hm⟩)))
  added q c name new hr h hnone _ hsized := by
    have hqnone : q.machines.get? name = none := by
      apply Option.not_isSome_iff_eq_none.mp
      rw [h.1.queued name, hnone]
      exact Bool.false_ne_true
    have hself : (q.added name new.width new.height (some new.tags) new.deadBoards
      new.deadLinks).machine q.nextMachine = _ := machine_setMachine_self _ _
    apply h.2.added hr.linked hqnone
    rw [hself]
    exact hS.new new _ _ _ hsized

def Known (t : JobQueue × Controller) : Prop :=
  ∀ id ∈ t.2.jobs, (t.1.jobs.get? id).isSome

theorem Known.congr (h : Known (q, c)) (hq : q'.jobs = q.jobs) (hc : ∀ k ∈ c'.jobs, k ∈ c.jobs) :
    Known (q', c') := by
  intro k hk
  dsimp only
  rw [hq]
  exact h k (hc k hk)

theorem Known.dropped (h : Known (q, c)) (hc : ∀ k ∈ c'.jobs, k ∈ c.jobs ∧ k ≠ id)
    (hq : q'.jobs = (q.dropped id).jobs) : Known (q', c') := by
  intro k hk
  obtain ⟨hold, hne⟩ := hc k hk
  dsimp only
  rw [hq]
  change ((q.jobs.erase id).get? k).isSome
  rw [Dict.get?_erase_ne _ (Ne.symm hne)]
  exact h k hold

theorem known_rules : KeepRules False (fun _ => True) (fun t => Hosting t ∧ Known t) Known where
  agreed _ h := h.1.toAgreed
  numbered q c h := hosting_rules.numbered q c h.1
  view t t' h hv := Known.congr (q := t.1) (c := t.2) h.2 hv.queuedJobs
    fun k hk => by rwa [hv.jobs] at hk
  alloc depth q c m j _ h _ _ := by
    apply (wp_trivial _).mono
    · intro res a _
      cases res with
      | none => exact h.2
      | some al =>
        have hplaced (c' : Controller) (ht : Touches (q.job j).id c c') :
            Known ((q.setAllocator m a).placed j m al.id, c') :=
          h.2.congr rfl fun k hk => by rwa [ht.jobs] at hk
        exact onAllocate_touches.mono (fun _ c' ht => hplaced c' ht) fun _ c' ht => hplaced c' ht
    · exact fun _ _ _ => h.2
  checked _ _ _ _ _ h _ := (wp_trivial _).mono (fun _ _ _ => h.2) fun _ _ _ => h.2
  cancelled _ _ _ _ _ _ h _ := h.2.dropped (fun _ hk => mem_retired.mp hk) rfl
  retired _ _ _ _ _ _ h _ := h.2.congr rfl fun _ hk => (mem_retired.mp hk).1
  freed depth q c id j m a b _ h hid _ _ _ _ := by
    have hne (k : ℕ) (hk : k ∈ c.jobs) : k ≠ id := fun heq => hid (heq ▸ hk)
    exact h.2.dropped (fun k hk => ⟨hk, hne k hk⟩) rfl
  enlisted _ _ _ _ _ _ _ hlost := hlost.elim
  created depth q c _ _ _ _ _ _ _ _ h hnone := by
    intro k hk
    change ((q.jobs.set c.nextId _).get? k).isSome
    rw [Dict.get?_set]
    split
    · rfl
    · next hne =>
      obtain hk | hk := List.mem_append.mp hk
      · exact h.2 k hk
      · exact absurd (List.mem_singleton.mp hk).symm hne
  removed _ _ _ _ h _ _ _ := h.2.congr rfl fun _ hk => hk
  changed _ _ _ _ _ _ _ _ h _ _ _ _ _ := h.2.congr rfl fun _ hk => hk
  added depth q c name new _ h _ _ _ := by
    obtain ⟨-, hj, -, -⟩ := registered_jobs c name new
    exact h.2.congr rfl fun k hk => by rwa [hj] at hk

structure Provided (S : Allocator → Prop) (t : JobQueue × Controller) : Prop where
  furnished : Furnished t
  serviceable : t.1.Serviceable S

theorem Provided.narrows (h : Provided S t) (hv : Narrows t t') : Provided S t' :=
  ⟨furnished_rules.view _ _ h.furnished hv.toSameView, hv.serviceable h.serviceable⟩

theorem provided_rules (hS : Lasting S Sized permitted) :
    UpkeepRules True Sized permitted (Provided S) (Provided S) :=
  ((furnished_rules.upkeep.mono (fun hlost => hlost) (fun _ h => h) (fun _ _ _ _ _ => trivial)
    (fun _ h => h.furnished) fun _ h => h).and
      ((serviceable_rules hS).mono (fun hlost => hlost) (fun _ h => h) (fun _ _ _ _ h => h)
        (fun _ h => ⟨h.furnished.toHosting, h.serviceable⟩) fun _ h => h)).mono
          (fun hlost => hlost) (fun _ h => h) (fun _ _ _ _ h => h) (fun _ h => h)
            fun _ h => ⟨h.1, h.2⟩

theorem Tally.commands {leaving : List ℕ} {power : Bool} {linkEnable : Option Bool}
    {commands : Dict ℕ AtomicRequests} (h : Tally debt leaving c)
    (hc : c.frameCommands id power linkEnable = .ok commands) :
    wp (setJobPowerAndLinks id power linkEnable) (fun _ _ => True) (fun _ _ => False) c := by
  apply setJobPowerAndLinks_wp
  · exact fun _ _ => trivial
  · intro e he
    rw [hc] at he
    cases he
  · intro commands l hcommands _ hstopped
    obtain ⟨b, hb, hstopped⟩ := hstopped
    obtain ⟨machine, controllers, _, hof⟩ := frameCommands_spec hcommands
    obtain ⟨r, hr⟩ := Dict.mem_keys.mp hb
    rw [h.running _ _ hof.wired b (hof.addressed.controller b r hr)] at hstopped
    cases hstopped

theorem Furnished.commanded {power : Bool} {linkEnable : Option Bool} (h : Furnished (q, c))
    (hid : id ∈ c.jobs) (hb : (c.job id).boards ≠ none) :
    ∃ commands, c.frameCommands id power linkEnable = .ok commands := by
  obtain ⟨machine, hmachine⟩ := Option.ne_none_iff_exists'.mp ((h.boards id).mp hb)
  obtain ⟨boards, periphery, hfound⟩ := h.found (t := (q, c)) hmachine
  exact hfound.commanded hid power linkEnable

theorem Furnished.teardown {reason : Option String} (h : Furnished (q, c))
    (ht : Tally debt [] c) (hid : id ∈ c.jobs) :
    wp (teardownJob id reason) (fun _ _ => True) (fun _ _ => False) c := by
  apply teardownJob_wp
  · exact fun hno => absurd hid hno
  · exact fun _ _ => trivial
  · intro _ hb
    have hfound : ∃ commands, c.frameCommands id false none = .ok commands := h.commanded hid hb
    obtain ⟨commands, hcommands⟩ := hfound
    have hsame : (c.retired id reason).frameCommands id false none = .ok commands := hcommands
    have hretired : Tally debt [] (c.retired id reason) :=
      ht.same rfl rfl rfl rfl rfl (fun _ hk => (mem_retired.mp hk).1) rfl
    exact hretired.commands hsame

theorem Furnished.free {reason : Option String} (h : Furnished (q, c)) (ht : Tally debt [] c)
    (hid : id ∈ c.jobs) (hj : q.jobs.get? id = some j) (hp : (q.job j).pending = false) :
    wp (onFree id reason) (fun _ _ => True) (fun _ _ => False) c := by
  apply onFree_wp
  · exact fun hno => absurd hid hno
  · exact fun _ hnone => absurd hnone (h.told id hid j hj hp)
  · intro machine _ _
    have hseen : Furnished (q, { c with changedMachines := insert machine.name c.changedMachines }) :=
      furnished_rules.view _ _ h
        (sameView_controller rfl rfl rfl rfl (fun _ => rfl) fun _ => rfl)
    exact hseen.teardown (ht.same rfl rfl rfl rfl rfl (fun _ hk => hk) rfl) hid

theorem Furnished.allocate {boards : Finset Board} {periphery : Finset BoardLink}
    {torus : WrapAround} {machine : Configuration.Machine} (h : Furnished (q, c))
    (ht : Tally debt [] c) (hid : id ∈ c.jobs) (hget : c.machines.get? name = some machine)
    (hne : boards.Nonempty) (hequips : ∀ b ∈ boards, Equips machine b)
    (hlinks : ∀ l ∈ periphery, l.1 ∈ boards) :
    wp (onAllocate id name boards periphery torus) (fun _ _ => True) (fun _ _ => False) c := by
  obtain ⟨least, hleast⟩ := leastBoard_isOk hne
  obtain ⟨greatest, hgreatest⟩ := greatestBoard_isOk hne
  have hname : machine.name = name := h.named name machine hget
  apply onAllocate_wp
  · exact fun hno => absurd hid hno
  · intro hno
    rw [hget] at hno
    cases hno
  · intro _ _ _ _ hmin
    rw [hleast] at hmin
    cases hmin
  · intro _ _ _ _ hmax
    rw [hgreatest] at hmax
    cases hmax
  · intro machine' origin _ _ _ hget' _ _ hip
    obtain rfl := Option.some.inj (hget.symm.trans hget')
    have hconnect : ∃ connections, connect machine origin Dict.empty (c.boardOrder.list boards) =
        .ok connections := connect_isOk fun b hb => hequips b ((c.boardOrder.mem boards b).mp hb)
    obtain ⟨connections, hconnect⟩ := hconnect
    rw [hconnect] at hip
    cases hip
  · intro machine' origin top connections c' hl ha
    obtain rfl := Option.some.inj (hget.symm.trans hl.registered)
    have hwired := (h.wired name).mpr (hget ▸ rfl)
    obtain ⟨controllers, hcontrollers⟩ := Option.isSome_iff_exists.mp hwired
    have hplace (b : Board) (hb : b ∈ boards) : ∃ place, locate machine controllers b = .ok place :=
      locate_isOk (hequips b hb) fun frame => h.framed name machine controllers hget hcontrollers frame
    have hcommands : ∃ commands, c'.frameCommands id true (some false) = .ok commands := by
      apply frameCommands_isOk ha.allocatedMachine _ ha.boards ha.periphery hplace
      · exact fun l hlink => hplace l.1 (hlinks l hlink)
      · rw [ha.bmpControllers, hname]
        exact hcontrollers
    obtain ⟨commands, hcommands⟩ := hcommands
    have htold : Tally debt [] c' := ht.rewrites ha.toRewrites (ht.lt hid)
      (ht.toCounted.rewrites ha.toRewrites ha.waits)
    exact htold.commands hcommands

def Employed (c : Controller) : Prop :=
  ∀ id, (c.job id).bmpRequestsUntilReady ≠ 0 → (c.job id).allocatedMachine ≠ none

namespace Employed

theorem congr (h : Employed c)
    (hw : ∀ k, (c'.job k).bmpRequestsUntilReady = (c.job k).bmpRequestsUntilReady)
    (hm : ∀ k, (c'.job k).allocatedMachine = (c.job k).allocatedMachine) : Employed c' := by
  intro k hk
  rw [hw] at hk
  rw [hm]
  exact h k hk

theorem touched (h : Employed c) (ht : ∀ k, k ≠ id → c'.job k = c.job k)
    (hid : (c'.job id).bmpRequestsUntilReady ≠ 0 → (c'.job id).allocatedMachine ≠ none) :
    Employed c' := by
  intro k hk
  by_cases heq : k = id
  · subst heq
    exact hid hk
  · rw [ht k heq] at hk ⊢
    exact h k hk

theorem power {power : Bool} {linkEnable : Option Bool} (h : Employed c) :
    wp (setJobPowerAndLinks id power linkEnable) (fun _ => Employed) (fun _ => Employed) c := by
  apply setJobPowerAndLinks_wp
  · intro commands hcommands
    obtain ⟨machine, _, _, hc⟩ := frameCommands_spec hcommands
    apply h.touched (touches_commanded power commands.entries).job
    intro _
    rw [job_commanded, if_pos rfl]
    dsimp only
    rw [hc.placed]
    exact Option.some_ne_none machine
  · exact fun _ _ => h
  · intro commands l hcommands _ _
    obtain ⟨machine, _, _, hc⟩ := frameCommands_spec hcommands
    apply h.touched (touches_sent commands.entries.length l).job
    intro _
    change ((c.counted id commands.entries.length).job id).allocatedMachine ≠ none
    rw [counted, job_setJob, if_pos rfl]
    dsimp only
    rw [hc.placed]
    exact Option.some_ne_none machine

theorem teardown {reason : Option String} (h : Employed c) :
    wp (teardownJob id reason) (fun _ => Employed) (fun _ => Employed) c := by
  have hretired (reason : Option String) : Employed (c.retired id reason) :=
    h.congr (fun _ => rfl) fun _ => rfl
  apply teardownJob_wp
  · exact fun _ => h
  · exact fun _ _ => hretired _
  · exact fun _ _ => (hretired _).power

theorem free {reason : Option String} (h : Employed c) :
    wp (onFree id reason) (fun _ => Employed) (fun _ => Employed) c := by
  apply onFree_wp
  · exact fun _ => h
  · exact fun _ _ => h
  · exact fun _ _ _ => teardown (h.congr (fun _ => rfl) fun _ => rfl)

theorem allocate {boards : Finset Board} {periphery : Finset BoardLink} {torus : WrapAround}
    (h : Employed c) : wp (onAllocate id name boards periphery torus) (fun _ => Employed)
      (fun _ => Employed) c := by
  have hassigned (machine : Configuration.Machine) :
      Employed (c.assigned id name machine boards periphery torus) := by
    apply h.touched rewrites_assigned.job
    intro _
    rw [job_assigned, if_pos rfl]
    exact Option.some_ne_none machine
  apply onAllocate_wp
  · exact fun _ => h
  · exact fun _ => h
  · exact fun machine _ _ _ _ => hassigned machine
  · exact fun machine _ _ _ _ => hassigned machine
  · intro machine origin top _ _ _ _ _ _
    have hsized : Employed ((c.assigned id name machine boards periphery torus).sized id
        (dimensions origin top boards torus)) := by
      apply (hassigned machine).touched (rewrites_setJob _ id _).job
      intro _
      rw [job_setJob, if_pos rfl, job_assigned, if_pos rfl]
      exact Option.some_ne_none machine
    exact hsized
  · intro machine _ _ _ c' _ ha
    apply power
    apply h.touched ha.job
    intro _
    rw [ha.allocatedMachine]
    exact Option.some_ne_none machine

theorem enlisted {owner : String} {alive : Option Keepalive} {host : Option String} {reads : ℕ}
    (h : Employed c) :
    Employed (Controller.createdJob { c with nextId := c.nextId + 1, reads := reads } c.nextId
      owner alive host) := by
  have hother (k : ℕ) (hk : k ≠ c.nextId) : (Controller.createdJob
      { c with nextId := c.nextId + 1, reads := reads } c.nextId owner alive host).job k =
        c.job k := by
    rw [job_createdJob, if_neg hk]
  apply h.touched hother
  intro hne
  rw [job_createdJob, if_pos rfl] at hne
  exact absurd rfl hne

theorem uncounted (h : Employed c) (hw : 1 ≤ (c.job id).bmpRequestsUntilReady) :
    Employed (c.uncounted id) := by
  apply h.touched rewrites_uncounted.job
  intro _
  rw [job_uncounted, if_pos rfl]
  exact h id (by omega)

theorem readied (h : Employed c) (hw : 1 ≤ (c.job id).bmpRequestsUntilReady) :
    Employed ((c.uncounted id).readied id) := by
  apply (h.uncounted hw).touched rewrites_readied.job
  intro hne
  rw [Controller.readied, job_setJob, if_pos rfl] at hne ⊢
  exact h.uncounted hw id hne

end Employed

theorem employed_steps : Steps (fun t => Employed t.2) (fun t => Employed t.2)
    fun _ t => Employed t.2 where
  alloc q c m j rest h _ _ := by
    apply (wp_trivial _).mono
    · intro res a _
      cases res with
      | none => exact h
      | some al => exact h.allocate
    · exact fun _ _ _ => h
  skip _ _ _ _ _ h _ _ := h
  offer _ _ _ _ h _ _ _ := h
  cancel _ _ _ _ h _ := h.teardown
  freed _ _ _ _ _ h _ _ _ := h.free
  read _ _ _ h := h
  refresh _ _ _ _ _ _ h :=
    h.congr (fun _ => job_refreshed_field (·.bmpRequestsUntilReady) (fun _ _ _ => rfl) _ _ _)
      fun _ => job_refreshed_field (·.allocatedMachine) (fun _ _ _ => rfl) _ _ _
  power _ _ _ _ _ h _ _ := h.power
  free _ _ _ h _ := (wp_trivial _).mono (fun _ _ _ => h) fun _ _ _ => h

theorem employed_assign {machines : Machines} :
    AssignRules machines (fun _ t => Roster 1 t ∧ Employed t.2)
      fun _ t => Roster 1 t ∧ Employed t.2 where
  postponed _ t h := h.1.postpone.symm ▸ Int.one_pos
  remove l name t h _ := by
    obtain ⟨q, c⟩ := t
    have hsweep (m : ℕ) : SweepRules (1 + 1) m (fun t => Employed t.2) fun _ t => Employed t.2 :=
      ⟨fun _ _ _ _ _ h _ _ _ => h.free, fun _ _ _ _ _ _ _ h _ _ _ _ _ => h⟩
    apply SweepRules.removeMachine hsweep h.1 Int.one_pos fun _ _ => h.2
    · exact fun _ => h
    · intro m q' c' _ _ hK _ _ hr
      exact ⟨fun _ => ⟨hr, hK⟩, fun _ => ⟨hr.tables rfl rfl rfl rfl, hK⟩,
        fun _ _ => ⟨hr.tables rfl rfl rfl rfl, hK⟩⟩
    · exact fun _ _ _ hr hK => ⟨hr, hK⟩
  stop l t h := ⟨Roster.tables (q := t.1) (c := t.2) h.1 rfl rfl rfl rfl, h.2⟩
  change name old new q c h _ _ _ := ⟨fun _ => h, fun m _ =>
    ⟨(h.1.queue_congr (sameBooks_modified m _ _ _) rfl).tables rfl rfl rfl rfl, h.2⟩⟩
  add name new q c h _ _ := by
    obtain ⟨hn, hj, hr, hjob⟩ := registered_jobs c name new
    have hemployed : Employed (c.registered name new) :=
      h.2.congr (fun k => by rw [hjob]) fun k => by rw [hjob]
    exact ⟨fun _ => ⟨h.1.tables hn hj hr hjob, hemployed⟩, fun hnone =>
      ⟨(h.1.added hnone new.width new.height _ _ _).tables hn hj hr hjob, hemployed⟩⟩
  move name q c h := ⟨fun _ => h, fun _ => ⟨h.1.tables rfl rfl rfl rfl, h.2⟩,
    (h.1.moved name).tables rfl rfl rfl rfl, h.2⟩

theorem employed_rules (depth : ℤ) : JobRules (fun t => Roster depth t ∧ Employed t.2)
    fun _ t => Roster depth t ∧ Employed t.2 where
  toSteps := ((roster_steps depth).mono (fun _ h => h.1) (fun _ h => h) fun _ _ h => h).and
    (employed_steps.mono (fun _ h => h.2) (fun _ h => h) fun _ _ h => h)
  indexed _ h := h.1.indexed
  lost _ _ _ h _ _ := h

theorem createJob_employed {ownerhost owner : Option String} {keepalive : Option (Option ℚ)}
    {machine : Option MachineName} {tags : Option Tags} {request : Request}
    (h : Roster depth t ∧ Employed t.2) :
    wp (createJob ownerhost owner keepalive machine tags request)
      (fun _ t => Roster depth t ∧ Employed t.2) (fun _ t => Roster depth t ∧ Employed t.2) t := by
  obtain ⟨q, c⟩ := t
  apply (employed_rules depth).createJob (fun _ _ he => he) (fun _ _ ht => ht) h
  · exact fun _ _ _ _ _ => ⟨h.1.enlisted, h.2.enlisted⟩
  · exact fun _ _ _ tags hnone => ⟨h.1.created hnone machine tags request, h.2.enlisted⟩
  · exact fun _ _ _ ht => ⟨ht.1.tables rfl rfl rfl rfl, ht.2⟩

theorem setMachines_employed {machines : Machines} (h : Roster 0 t ∧ Employed t.2) :
    wp (setMachines machines) (fun _ t => Roster 0 t ∧ Employed t.2)
      (fun _ t => Roster 0 t ∧ Employed t.2) t := by
  have hexit (t : JobQueue × Controller) (ht : Roster 1 t ∧ Employed t.2) :
      wp (JobQueue.exit callbacks) (fun _ t => Roster 0 t ∧ Employed t.2)
        (fun _ t => Roster 0 t ∧ Employed t.2) t := by
    obtain ⟨q, c⟩ := t
    apply (employed_rules 0).exit (fun _ _ he => he) (fun _ _ ht => ht)
    · exact fun _ _ ht => ⟨ht.1.queue_congr sameBooks_cleared rfl, ht.2⟩
    · have hpost : q.postpone = 1 := ht.1.postpone
      rw [hpost, sub_self]
      exact ⟨ht.1.postponed 0, ht.2⟩
  apply employed_assign.setMachines
  · rw [h.1.postpone]
    exact ⟨Roster.postponed (q := t.1) (c := t.2) h.1 1, h.2⟩
  · exact hexit
  · exact fun _ t ht => hexit t ht
  · exact fun q c names ht => ⟨ht.1.tables rfl rfl rfl rfl, ht.2⟩

/-- The tables agree, whatever is looked up is found, and whatever is queued can be served. -/
structure Serving (S : Allocator → Prop) (debt : ℕ → ℕ) (depth : ℤ) (t : JobQueue × Controller) :
    Prop where
  balanced : Balanced debt depth t
  provided : Provided S t
  employed : Employed t.2

theorem Serving.furnished (h : Serving S debt depth t) : Furnished t := h.provided.furnished

theorem Serving.roster (h : Serving S debt depth t) : Roster depth t := h.balanced.1

theorem Serving.tally (h : Serving S debt depth t) : Tally debt [] t.2 := h.balanced.2

theorem smooth_steps (hS : Sound S) (debt : ℕ → ℕ) (depth : ℤ) :
    Steps (Serving S debt depth) (fun _ => True) fun _ _ => False where
  alloc q c m j rest h hh hp := by
    have hr := h.roster
    obtain ⟨hq, machine, hget⟩ := h.furnished.toAgreed.known hr hh.machine
    have hgood := (h.provided.serviceable.queued m hh.machine j (hh.queue ▸ List.mem_cons_self)).2
    have hsturdy := hS.sturdy _ (h.provided.serviceable.sound m hh.machine)
    apply ((alloc_sturdy hsturdy hgood).and
      (alloc_stocked (h.furnished.stocked _ machine m hget hq) _)).mono _ fun _ _ hf => hf.1
    intro res a hres
    cases res with
    | none => trivial
    | some al =>
      obtain ⟨hne, hequips, hlinks⟩ := hres.2.2 al rfl
      exact h.furnished.allocate h.tally (hr.pending j hp).1 hget hne hequips hlinks
  skip _ _ _ _ _ _ _ _ := trivial
  offer _ _ _ _ _ _ _ _ := trivial
  cancel q c j reason h hp := by
    obtain ⟨hid, hb⟩ := h.roster.pending j hp
    exact onCancel_wp hid hb fun _ => trivial
  freed q c id j reason h hid hj hp := h.furnished.free h.tally hid hj hp
  read _ _ _ _ := trivial
  refresh _ _ _ _ _ _ _ := trivial
  power q c id power linkEnable h hid hb := by
    obtain ⟨commands, hcommands⟩ := h.furnished.commanded hid hb
    exact h.tally.commands hcommands
  free q c m h hm :=
    (checkFree_sturdy (hS.sturdy _ (h.provided.serviceable.sound m hm))).mono (fun _ _ _ => trivial)
      fun _ _ hf => hf

theorem serving_steps (hS : Sound S) (debt : ℕ → ℕ) (depth : ℤ) :
    Steps (Serving S debt depth) (Serving S debt depth) fun _ _ => False := by
  have hbalanced : Steps (Serving S debt depth) (Balanced debt depth) fun _ _ => True :=
    (balanced_rules debt depth).toSteps.mono (fun _ h => h.balanced) (fun _ h => h)
      fun _ _ _ => trivial
  have hfurnished : Steps (Serving S debt depth) Furnished fun _ _ => True :=
    (furnished_rules.steps depth).mono (fun _ h => ⟨h.roster, h.furnished⟩) (fun _ h => h)
      fun _ _ _ => trivial
  have hserviceable : Steps (Serving S debt depth) (fun t => t.1.Serviceable S) fun _ _ => True :=
    (serviceable_steps hS.toClosed depth).mono (fun _ h => ⟨h.roster, h.provided.serviceable⟩)
      (fun _ h => h) fun _ _ _ => trivial
  have hemployed : Steps (Serving S debt depth) (fun t => Employed t.2) fun _ _ => True :=
    employed_steps.mono (fun _ h => h.employed) (fun _ h => h) fun _ _ _ => trivial
  exact ((smooth_steps hS debt depth).and
    (hbalanced.and ((hfurnished.and hserviceable).and hemployed))).mono (fun _ h => h)
      (fun _ h => ⟨h.2.1, ⟨h.2.2.1.1, h.2.2.1.2⟩, h.2.2.2⟩) fun _ _ h => h.1

theorem serving_rules (hS : Sound S) (debt : ℕ → ℕ) (depth : ℤ) :
    JobRules (Serving S debt depth) fun _ => Serving S debt depth where
  toSteps := (serving_steps hS debt depth).mono (fun _ h => h) (fun _ h => h) fun _ _ hf => hf.elim
  indexed _ h := h.roster.indexed
  lost _ _ _ h _ _ := h

theorem known_steps (hS : Sound S) (debt : ℕ → ℕ) (depth : ℤ) :
    JobRules (fun t => Serving S debt depth t ∧ Known t) fun _ _ => False where
  toSteps := by
    have hknown : Steps (fun t => Serving S debt depth t ∧ Known t) Known fun _ _ => True := by
      have hboth := (hosting_rules.mono False.elim (fun _ _ => trivial)
        (fun _ h => h.1) fun _ h => h).and known_rules
      exact (hboth.steps depth).mono
        (fun _ h => ⟨h.1.roster, h.1.furnished.toHosting, h.2⟩) (fun _ h => h.2)
          fun _ _ _ => trivial
    exact (((serving_steps hS debt depth).mono (fun _ h => h.1) (fun _ h => h)
      fun _ _ hf => hf).and hknown).mono (fun _ h => h) (fun _ h => h) fun _ _ h => h.1
  indexed _ h := h.1.roster.indexed
  lost q c id h hid hnone := by
    have hsome := h.2 id hid
    dsimp only at hsome
    rw [hnone] at hsome
    cases hsome

end SpallocServer.Controller
