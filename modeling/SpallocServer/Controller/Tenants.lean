import SpallocServer.Allocator.Leases
import SpallocServer.Controller.Service

namespace SpallocServer.Controller

open Foundation Prog JobQueue Allocator

variable {q q' : JobQueue} {c c' : Controller} {t t' : JobQueue × Controller} {id id' j m : ℕ}
  {al al' : ℕ} {depth : ℤ} {name : String} {boards boards' : Finset Board}
  {periphery periphery' : Finset BoardLink} {machine : Configuration.Machine}

theorem not_holds_next (h : q.Linked) (hi : q.jobs.get? id = some j) :
    ¬q.Holds j q.nextMachine al := by
  intro hh
  have hin : j ∈ q.jobs.values := Dict.mem_values.mpr ⟨id, hi⟩
  cases hp : (q.job j).pending with
  | true =>
    have hnone := hh.1
    rw [(h.unplaced j hp).1] at hnone
    cases hnone
  | false =>
    obtain ⟨m, hm, al', hm', -⟩ := h.placed j hin hp
    obtain ⟨name, hname⟩ := Dict.mem_values.mp hm
    have heq : m = q.nextMachine := Option.some.inj (hm'.symm.trans hh.1)
    exact absurd heq (h.names name m hname).2.ne

/-- A job that is known to the job queue has the boards, and the links around them, from an
allocation on the machine. -/
def granted (t : JobQueue × Controller) (m : ℕ) : Grants := fun al boards periphery =>
  ∃ id j, t.1.jobs.get? id = some j ∧ t.1.Holds j m al ∧ (t.2.job id).boards = some boards ∧
    (t.2.job id).periphery = some periphery

theorem granted_mono (h : granted t' m al boards periphery)
    (hjobs : ∀ id j, t'.1.jobs.get? id = some j → t'.1.Holds j m al →
      t.1.jobs.get? id = some j ∧ t.1.Holds j m al ∧
        (t'.2.job id).boards = (t.2.job id).boards ∧
        (t'.2.job id).periphery = (t.2.job id).periphery) :
    granted t m al boards periphery := by
  obtain ⟨id, j, hj, hh, hboards, hperiphery⟩ := h
  obtain ⟨hj', hh', hb, hp⟩ := hjobs id j hj hh
  exact ⟨id, j, hj', hh', hb ▸ hboards, hp ▸ hperiphery⟩

theorem granted_congr (h : granted (q', c') m al boards periphery)
    (hjobs : ∀ id j, q'.jobs.get? id = some j → q.jobs.get? id = some j)
    (hmachine : ∀ j, (q'.job j).machine = (q.job j).machine)
    (hallocation : ∀ j, (q'.job j).allocationId = (q.job j).allocationId)
    (hplacement : ∀ k, (c'.job k).placement = (c.job k).placement) :
    granted (q, c) m al boards periphery := by
  refine granted_mono h fun id j hj hh => ⟨hjobs id j hj, ?_, boards_of_placement (hplacement id),
    periphery_of_placement (hplacement id)⟩
  obtain ⟨hm, ha⟩ := hh
  exact ⟨(hmachine j).symm.trans hm, (hallocation j).symm.trans ha⟩

/-- What jobs have been told is what the allocators of their machines have given out, and what is
queued can be asked for. -/
structure Tenants (t : JobQueue × Controller) : Prop where
  leased : ∀ name machine m, t.2.machines.get? name = some machine →
    t.1.machines.get? name = some m →
    Leased (Equips machine) (granted t m) (t.1.machine m).allocator
  asked : ∀ m ∈ t.1.machines.values, ∀ j ∈ (t.1.machine m).queue,
    j < t.1.nextJob ∧ (t.1.job j).request.Good

namespace Tenants

theorem fewer (h : Tenants (q, c))
    (hm : ∀ name machine, c'.machines.get? name = some machine →
      c.machines.get? name = some machine)
    (hq : ∀ name m, q'.machines.get? name = some m → q.machines.get? name = some m)
    (ha : ∀ m, (q'.machine m).allocator = (q.machine m).allocator)
    (hqueue : ∀ m, ∀ j ∈ (q'.machine m).queue, j ∈ (q.machine m).queue)
    (hnext : q.nextJob ≤ q'.nextJob)
    (hrequest : ∀ j < q.nextJob, (q'.job j).request = (q.job j).request)
    (hgranted : ∀ m al boards periphery, granted (q', c') m al boards periphery →
      granted (q, c) m al boards periphery) : Tenants (q', c') := by
  refine ⟨fun name machine m hget hgetq => ?_, fun m hin j hj => ?_⟩
  · dsimp only at hget hgetq ⊢
    rw [ha]
    exact (h.leased name machine m (hm name machine hget) (hq name m hgetq)).mono (fun _ hd => hd)
      (hgranted m)
  · obtain ⟨name, hname⟩ := Dict.mem_values.mp hin
    obtain ⟨hlt, hgood⟩ :=
      h.asked m (Dict.mem_values.mpr ⟨name, hq name m hname⟩) j (hqueue m j hj)
    dsimp only at hlt hgood ⊢
    rw [hrequest j hlt]
    exact ⟨hlt.trans_le hnext, hgood⟩

theorem narrows (h : Tenants t) (hv : Narrows t t') : Tenants t' := by
  refine fewer (q := t.1) (c := t.2) h ?_ ?_ hv.allocator hv.queue hv.nextJob.ge ?_ ?_
  · exact fun name machine hget => by rwa [hv.machines] at hget
  · exact fun name m hget => by rwa [hv.queued] at hget
  · exact fun j _ => by rw [hv.queuedJob]
  · intro m al boards periphery hg
    refine granted_congr (q := t.1) (c := t.2) hg ?_ ?_ ?_ hv.placement
    · exact fun id j hj => by rwa [hv.queuedJobs] at hj
    · exact fun j => by rw [hv.queuedJob]
    · exact fun j => by rw [hv.queuedJob]

theorem setAllocator {a : Allocator} (h : Tenants (q, c))
    (hnames : ∀ name m, q.machines.get? name = some m → (q.machine m).name = name)
    (hget : c.machines.get? name = some machine) (hm : q.machines.get? name = some m)
    (ha : Leased (Equips machine) (granted (q, c) m) a) : Tenants (q.setAllocator m a, c) := by
  refine ⟨fun name' machine' m' hget' hm' => ?_, fun m' hin j hj => ?_⟩
  · dsimp only at hget' hm' ⊢
    change q.machines.get? name' = some m' at hm'
    rw [machine_setAllocator]
    split
    · next heq =>
      subst heq
      have hname : name = name' := (hnames name m' hm).symm.trans (hnames name' m' hm')
      subst hname
      obtain rfl := Option.some.inj (hget.symm.trans hget')
      exact ha
    · exact h.leased name' machine' m' hget' hm'
  · dsimp only at hj
    rw [queue_setAllocator] at hj
    exact h.asked m' hin j hj

theorem placed {a : Allocator} {connections : Option (Dict (ℤ × ℤ) String)} (h : Tenants (q, c))
    (hr : Roster depth (q, c)) (hp : (q.job j).pending = true)
    (hget : c.machines.get? name = some machine) (hm : q.machines.get? name = some m)
    (ht : Touches (q.job j).id c c')
    (hplacement : (c'.job (q.job j).id).placement =
      (some machine, some boards, some periphery, connections))
    (ha : Leased (Equips machine) (fun id boards' periphery' =>
      granted (q, c) m id boards' periphery' ∨
        id = al ∧ boards' = boards ∧ periphery' = periphery) a) :
    Tenants ((q.setAllocator m a).placed j m al, c') := by
  have hjob (i : ℕ) : ((q.setAllocator m a).placed j m al).job i =
      if i = j then { q.job i with pending := false, machine := some m, allocationId := some al }
      else q.job i := job_placed _ i j m al
  have hgranted (m' : ℕ) (al' : ℕ) (boards' : Finset Board) (periphery' : Finset BoardLink)
      (hg : granted ((q.setAllocator m a).placed j m al, c') m' al' boards' periphery') :
      granted (q, c) m' al' boards' periphery' ∨
        m' = m ∧ al' = al ∧ boards' = boards ∧ periphery' = periphery := by
    obtain ⟨id, i, hi, hh, hb, hper⟩ := hg
    change q.jobs.get? id = some i at hi
    dsimp only at hh hb hper
    by_cases hij : i = j
    · subst hij
      obtain ⟨rfl, rfl⟩ := holds_placed.mp hh
      have hid : (q.job i).id = id := (hr.linked.ids id i hi).1
      rw [← hid] at hb hper
      have hb' : (c'.job (q.job i).id).boards = some boards := congrArg (·.2.1) hplacement
      have hper' : (c'.job (q.job i).id).periphery = some periphery :=
        congrArg (·.2.2.1) hplacement
      exact .inr ⟨rfl, rfl, Option.some.inj (hb.symm.trans hb'),
        Option.some.inj (hper.symm.trans hper')⟩
    · have hne : id ≠ (q.job j).id := by
        intro heq
        rw [heq] at hi
        exact hij (Option.some.inj (hi.symm.trans (hr.linked.known j hp)))
      rw [ht.job id hne] at hb hper
      exact .inl ⟨id, i, hi, (holds_placed_ne hij).mp hh, hb, hper⟩
  refine ⟨fun name' machine' m' hget' hm' => ?_, fun m' hin i hi => ?_⟩
  · dsimp only at hget' hm' ⊢
    rw [ht.machines] at hget'
    change q.machines.get? name' = some m' at hm'
    change Leased _ _ ((q.setAllocator m a).machine m').allocator
    rw [machine_setAllocator]
    by_cases heq : m' = m
    · subst heq
      have hname : name = name' :=
        (hr.linked.names name m' hm).1.symm.trans (hr.linked.names name' m' hm').1
      subst hname
      obtain rfl := Option.some.inj (hget.symm.trans hget')
      rw [if_pos rfl]
      exact ha.mono (fun _ hd => hd) fun id boards' periphery' hg =>
        (hgranted m' id boards' periphery' hg).imp_right And.right
    · rw [if_neg heq]
      exact (h.leased name' machine' m' hget' hm').mono (fun _ hd => hd)
        fun id boards' periphery' hg =>
          (hgranted m' id boards' periphery' hg).resolve_right fun hnew => heq hnew.1
  · change i ∈ ((q.setAllocator m a).machine m').queue at hi
    rw [queue_setAllocator] at hi
    obtain ⟨hlt, hgood⟩ := h.asked m' hin i hi
    refine ⟨hlt, ?_⟩
    dsimp only
    rw [hjob]
    split
    · exact hgood
    · exact hgood

theorem freed {b : Allocator} (h : Tenants (q, c)) (hr : Roster depth (q, c))
    (hagreed : Agreed (q, c)) (hj : q.jobs.get? id = some j) (hh : q.Holds j m al)
    (hm : m ∈ q.machines.values)
    (hrun : (Allocator.free al).run (q.machine m).allocator = (.ok (), b)) :
    Tenants ((q.dropped id).setAllocator m b, c) := by
  obtain ⟨hgetq, machine, hget⟩ := hagreed.known hr hm
  have hdropped : Tenants (q.dropped id, c) := by
    refine h.fewer (fun _ _ hget => hget) (fun _ _ hget => hget) (fun _ => rfl) (fun _ _ hi => hi)
      le_rfl (fun _ _ => rfl) fun m al boards periphery hg => ?_
    exact granted_congr hg (fun k i hi => Dict.get?_of_erase hi) (fun _ => rfl) (fun _ => rfl)
      fun _ => rfl
  apply hdropped.setAllocator (fun name m hm => (hr.linked.names name m hm).1) hget hgetq
  apply ((h.leased _ machine m hget hgetq).free hrun).mono fun _ hd => hd
  intro al' boards periphery hg
  obtain ⟨k, i, hi, hhi, hb, hp⟩ := hg
  have hi' : q.jobs.get? k = some i := Dict.get?_of_erase hi
  refine ⟨⟨k, i, hi', hhi, hb, hp⟩, fun heq => ?_⟩
  subst heq
  have hij : i = j := hr.linked.apart i (Dict.mem_values.mpr ⟨k, hi'⟩) j
    (Dict.mem_values.mpr ⟨id, hj⟩) m al' hhi hh
  have hkid : k = id := by
    rw [hij] at hi'
    exact (hr.linked.ids k j hi').1.symm.trans (hr.linked.ids id j hj).1
  change (q.jobs.erase id).get? k = some i at hi
  rw [hkid, Dict.get?_erase_self] at hi
  cases hi

theorem enlisted {owner : String} {alive : Option Keepalive} {host : Option String} {reads : ℕ}
    (h : Tenants (q, c)) (hnone : q.jobs.get? c.nextId = none) :
    Tenants (q, Controller.createdJob { c with nextId := c.nextId + 1, reads := reads } c.nextId
      owner alive host) := by
  refine h.fewer (fun _ _ hget => hget) (fun _ _ hget => hget) (fun _ => rfl) (fun _ _ hi => hi)
    le_rfl (fun _ _ => rfl) fun m al boards periphery hg => ?_
  refine granted_mono hg fun k i hi hh => ⟨hi, hh, ?_⟩
  have hne : k ≠ c.nextId := by
    intro heq
    dsimp only at hi
    rw [heq, hnone] at hi
    cases hi
  dsimp only
  rw [job_createdJob, if_neg hne]
  exact ⟨rfl, rfl⟩

theorem created {job : JobQueue.Job} (h : Tenants (q, c)) (hmachine : job.machine = none) :
    Tenants (q.created job, c) := by
  have hjob (i : ℕ) : (q.created job).job i = if i = q.nextJob then job else q.job i :=
    JobQueue.job_setJob i q.nextJob job
  refine h.fewer (fun _ _ hget => hget) (fun _ _ hget => hget) (fun _ => rfl) (fun _ _ hi => hi)
    (Nat.le_succ _) (fun i hi => by rw [hjob, if_neg hi.ne]) fun m al boards periphery hg => ?_
  refine granted_mono hg fun k i hi hh => ?_
  obtain ⟨hne, hh⟩ := (JobQueue.holds_created hmachine).mp hh
  refine ⟨?_, hh, rfl, rfl⟩
  change (q.jobs.set job.id q.nextJob).get? k = some i at hi
  rw [Dict.get?_set] at hi
  split at hi
  · exact absurd (Option.some.inj hi).symm hne
  · exact hi

theorem changed {old new : Configuration.Machine} (h : Tenants (q, c)) (hr : Roster depth (q, c))
    (hagreed : Agreed (q, c)) (hold : c.machines.get? name = some old)
    (hm : q.machines.get? name = some m) (hname : new.name = name) (halike : old.Alike new)
    (hp : Tolerated new (q, c)) :
    Tenants (q.setMachine m ((q.machine m).modified (some new.tags) (some new.deadBoards)
      (some new.deadLinks)), { c with machines := c.machines.set name new }) := by
  have hmachine (n : ℕ) : (q.setMachine m ((q.machine m).modified (some new.tags)
      (some new.deadBoards) (some new.deadLinks))).machine n =
      if n = m then (q.machine m).modified (some new.tags) (some new.deadBoards)
        (some new.deadLinks) else q.machine n := machine_setMachine m n _
  have hgranted (n al : ℕ) (boards : Finset Board) (periphery : Finset BoardLink)
      (hg : granted (q.setMachine m ((q.machine m).modified (some new.tags) (some new.deadBoards)
        (some new.deadLinks)), { c with machines := c.machines.set name new }) n al boards
          periphery) : granted (q, c) n al boards periphery :=
    granted_congr hg (fun _ _ hi => hi) (fun _ => rfl) (fun _ => rfl) fun _ => rfl
  refine ⟨fun name' machine n hget hn => ?_, fun n hin i hi => ?_⟩
  · dsimp only at hget hn ⊢
    change q.machines.get? name' = some n at hn
    rw [Dict.get?_set] at hget
    rw [hmachine]
    split at hget
    · next heq =>
      cases hget
      rw [← heq, hm] at hn
      cases hn
      rw [if_pos rfl]
      have hdescribed := hagreed.described name old m hold hm
      dsimp only at hdescribed
      apply ((h.leased name old m hold hm).mono (fun d hd => hd.alike halike)
        (hgranted m)).reconfigured
      · exact hp m (hname ▸ hm)
      · intro d hd hdead
        dsimp only at hd
        rw [hdescribed.width, hdescribed.height, halike.width, halike.height] at hd
        exact equips_works hd hdead
    · next hne =>
      have hnm : n ≠ m := by
        intro heq
        rw [heq] at hn
        exact hne ((hr.linked.names name m hm).1.symm.trans (hr.linked.names name' m hn).1)
      rw [if_neg hnm]
      exact (h.leased name' machine n hget hn).mono (fun _ hd => hd) (hgranted n)
  · dsimp only at hi
    rw [hmachine] at hi
    split at hi
    · next heq =>
      subst heq
      exact h.asked n hin i hi
    · exact h.asked n hin i hi

theorem added {new : Configuration.Machine} (h : Tenants (q, c)) (hr : Roster depth (q, c)) :
    Tenants (q.added name new.width new.height (some new.tags) new.deadBoards new.deadLinks,
      c.registered name new) := by
  obtain ⟨-, hj, -, hjob⟩ := registered_jobs c name new
  have hmachine (n : ℕ) (hn : n < q.nextMachine) : (q.added name new.width new.height
      (some new.tags) new.deadBoards new.deadLinks).machine n = q.machine n :=
    machine_setMachine_ne hn.ne _
  have hself : (q.added name new.width new.height (some new.tags) new.deadBoards
      new.deadLinks).machine q.nextMachine = _ := machine_setMachine_self _ _
  have hget (name' : String) (n : ℕ) (hn : (q.added name new.width new.height (some new.tags)
      new.deadBoards new.deadLinks).machines.get? name' = some n) :
      name = name' ∧ n = q.nextMachine ∨ name ≠ name' ∧ q.machines.get? name' = some n := by
    change (q.machines.set name _).get? name' = some n at hn
    rw [Dict.get?_set] at hn
    split at hn
    · next heq => exact .inl ⟨heq, (Option.some.inj hn).symm⟩
    · next hne => exact .inr ⟨hne, hn⟩
  have hgranted (m' al : ℕ) (boards : Finset Board) (periphery : Finset BoardLink)
      (hg : granted (q.added name new.width new.height (some new.tags) new.deadBoards
        new.deadLinks, c.registered name new) m' al boards periphery) :
      granted (q, c) m' al boards periphery := by
    refine granted_mono hg fun k i hi hh => ⟨hi, hh, ?_⟩
    rw [hjob]
    exact ⟨rfl, rfl⟩
  refine ⟨fun name' machine n hget' hn => ?_, fun n hin i hi => ?_⟩
  · dsimp only at hget' hn ⊢
    rw [registered_machines, Dict.get?_set] at hget'
    obtain ⟨rfl, rfl⟩ | ⟨hne, hn⟩ := hget name' n hn
    · rw [if_pos rfl] at hget'
      cases hget'
      rw [hself]
      apply (Leased.new fun d hd hdead => equips_works hd hdead).mono fun _ hd => hd
      intro al boards periphery hg
      obtain ⟨k, i, hi, hh, -⟩ := hgranted _ al boards periphery hg
      exact not_holds_next hr.linked hi hh
    · rw [if_neg hne] at hget'
      rw [hmachine n (hr.linked.names name' n hn).2]
      exact (h.leased name' machine n hget' hn).mono (fun _ hd => hd) (hgranted n)
  · obtain ⟨name', hname'⟩ := Dict.mem_values.mp hin
    dsimp only at hi
    obtain ⟨rfl, rfl⟩ | ⟨-, hn⟩ := hget name' n hname'
    · rw [hself] at hi
      exact absurd hi List.not_mem_nil
    · rw [hmachine n (hr.linked.names name' n hn).2] at hi
      exact h.asked n (Dict.mem_values.mpr ⟨name', hn⟩) i hi

end Tenants

theorem tenants_alloc (hr : Roster depth (q, c)) (hagreed : Agreed (q, c)) (h : Tenants (q, c))
    (hm : m ∈ q.machines.values) (hq : j ∈ (q.machine m).queue)
    (hp : (q.job j).pending = true) :
    wp (Allocator.alloc (q.job j).request) (fun res a =>
      match res with
      | none => Tenants (q.setAllocator m a, c)
      | some al =>
        wp (onAllocate (q.job j).id (q.machine m).name al.boards al.periphery al.torus)
          (fun _ c' => Tenants ((q.setAllocator m a).placed j m al.id, c'))
          (fun _ c' => Tenants ((q.setAllocator m a).placed j m al.id, c')) c)
      (fun _ a => Tenants (q.setAllocator m a, c)) (q.machine m).allocator := by
  obtain ⟨hgetq, machine, hget⟩ := hagreed.known hr hm
  have hgood : (q.job j).request.Good := (h.asked m hm j hq).2
  have hset {a : Allocator} (ha : Leased (Equips machine) (granted (q, c) m) a) :
      Tenants (q.setAllocator m a, c) :=
    h.setAllocator (fun name n hn => (hr.linked.names name n hn).1) hget hgetq ha
  apply ((h.leased _ machine m hget hgetq).alloc hgood).mono _ fun _ _ ha => hset ha
  intro res a ha
  cases res with
  | none => exact hset ha
  | some al =>
    apply onAllocate_placed (hr.pending j hp).1 hget
    intro c' connections ht hplacement
    exact h.placed hr hp hget hgetq ht hplacement ha

theorem tenants_rules : UpkeepRules True (fun _ => True) Tolerated
    (fun t => Hosting t ∧ Tenants t) Tenants where
  agreed _ h := h.1.toAgreed
  numbered q c h := hosting_rules.numbered q c h.1
  view _ _ h hv := h.2.narrows hv
  alloc _ _ _ _ _ hr h hm hq hp := tenants_alloc hr h.1.toAgreed h.2 hm hq hp
  offer depth q c j m hr h hp hm ho := by
    refine ⟨fun name machine n hget hn => ?_, fun n hn i hi => ?_⟩
    · dsimp only
      rw [allocator_setQueue]
      exact h.2.leased name machine n hget hn
    · dsimp only at hi
      rw [machine_setQueue] at hi
      split at hi
      · next heq =>
        subst heq
        obtain hi | hi := List.mem_append.mp hi
        · exact h.2.asked n hm i hi
        · obtain rfl := List.mem_singleton.mp hi
          exact ⟨(hr.linked.ids _ i (hr.linked.known i hp)).2, good_of_possible ho⟩
      · exact h.2.asked n hn i hi
  checked depth q c m hr h hm := by
    obtain ⟨hgetq, machine, hget⟩ := h.1.toAgreed.known hr hm
    apply (h.2.leased _ machine m hget hgetq).checkFree.mono _ fun _ _ hf => hf.elim
    intro _ a ha
    exact h.2.setAllocator (fun name n hn => (hr.linked.names name n hn).1) hget hgetq ha
  cancelled depth q c j reason hr h hp := by
    -- Only what says that the job is pending is changed.
    have hjob (i : ℕ) : (q.withdrawn j).job i =
        { q.job i with pending := ((q.withdrawn j).job i).pending } := by
      rw [job_withdrawn]
      split
      · rfl
      · rfl
    refine h.2.fewer (fun _ _ hget => hget) (fun _ _ hget => hget) (fun _ => rfl)
      (fun _ _ hi => hi) le_rfl (fun i _ => congrArg (·.request) (hjob i))
      fun m al boards periphery hg => ?_
    exact granted_congr hg (fun k i hi => Dict.get?_of_erase hi)
      (fun i => congrArg (·.machine) (hjob i)) (fun i => congrArg (·.allocationId) (hjob i))
      fun _ => rfl
  retired depth q c id reason _ h _ := by
    refine h.2.fewer (fun _ _ hget => hget) (fun _ _ hget => hget) (fun _ => rfl)
      (fun _ _ hi => hi) le_rfl (fun _ _ => rfl) fun m al boards periphery hg => ?_
    exact granted_congr hg (fun _ _ hi => hi) (fun _ => rfl) (fun _ => rfl) fun _ => rfl
  freed _ _ _ _ _ _ _ _ hr h _ hj hh hm hrun := h.2.freed hr h.1.toAgreed hj hh hm hrun
  enlisted _ q c _ _ _ _ _ _ h := h.2.enlisted (hosting_rules.numbered q c h.1)
  created _ q c _ _ _ _ _ _ _ _ h _ :=
    (h.2.enlisted (hosting_rules.numbered q c h.1)).created rfl
  removed q c name m h _ _ _ := by
    refine h.2.fewer (fun _ _ hget => Dict.get?_of_erase hget)
      (fun _ _ hget => Dict.get?_of_erase hget) (fun _ => rfl) (fun _ _ hi => hi) le_rfl
      (fun _ _ => rfl) fun m al boards periphery hg => ?_
    exact granted_congr hg (fun _ _ hi => hi) (fun _ => rfl) (fun _ => rfl) fun _ => rfl
  changed _ _ _ _ _ _ hr h hold hm hname hminor _ hp :=
    h.2.changed hr h.1.toAgreed hold hm hname (alike_of_minor hminor) hp
  added _ _ _ _ hr h _ _ _ := h.2.added hr

theorem start_tenants (s : Setup) : Tenants s.start := by
  refine ⟨fun _ _ _ hget => ?_, fun _ hm => absurd hm List.not_mem_nil⟩
  cases hget

/-- The tables agree, and jobs have what has been given out. -/
structure Resident (t : JobQueue × Controller) : Prop extends Hosting t, Tenants t

theorem resident_rules : UpkeepRules True (fun _ => True) Tolerated Resident Resident :=
  ((hosting_rules.upkeep.mono (fun hlost => hlost) (fun _ h => h) (fun _ _ _ _ _ => trivial)
    (fun _ h => h.1) fun _ h => h).and tenants_rules).mono (fun hlost => hlost) (fun _ h => h)
      (fun _ _ _ _ h => h) (fun _ h => ⟨h.toHosting, h.toTenants⟩) fun _ h => ⟨h.1, h.2⟩

theorem start_resident (s : Setup) : Resident s.start := ⟨start_hosting s, start_tenants s⟩

theorem holds_of_machine (h : q.Linked) (hj : q.jobs.get? id = some j)
    (hm : (q.job j).machine = some m) : ∃ al, q.Holds j m al := by
  cases hp : (q.job j).pending with
  | true =>
    rw [(h.unplaced j hp).1] at hm
    cases hm
  | false =>
    obtain ⟨m', -, al, hh⟩ := h.placed j (Dict.mem_values.mpr ⟨id, hj⟩) hp
    obtain rfl := Option.some.inj (hh.1.symm.trans hm)
    exact ⟨al, hh⟩

structure Housed (t : JobQueue × Controller) (id m : ℕ) (boards : Finset Board)
    (periphery : Finset BoardLink) : Prop where
  held : ∃ j al, t.1.jobs.get? id = some j ∧ t.1.Holds j m al
  boards : (t.2.job id).boards = some boards
  periphery : (t.2.job id).periphery = some periphery

theorem Resident.housed (h : Resident t) (hr : Roster depth t) (hid : id ∈ t.2.jobs)
    (hmachine : (t.2.job id).allocatedMachine = some machine) :
    ∃ m current boards periphery, t.1.machines.get? machine.name = some m ∧
      t.2.machines.get? machine.name = some current ∧ machine.Alike current ∧
      Housed t id m boards periphery := by
  obtain ⟨j, m, current, hj, hjm, hm, hcurrent, halike⟩ := h.hosted id hid machine hmachine
  have hsome : (t.2.job id).allocatedMachine ≠ none := by
    rw [hmachine]
    exact Option.some_ne_none machine
  obtain ⟨boards, hboards⟩ := Option.ne_none_iff_exists'.mp ((h.boards id).mpr hsome)
  obtain ⟨periphery, hperiphery⟩ := Option.ne_none_iff_exists'.mp ((h.periphery id).mpr hsome)
  obtain ⟨al, hh⟩ := holds_of_machine hr.linked hj hjm
  exact ⟨m, current, boards, periphery, hm, hcurrent, halike, ⟨j, al, hj, hh⟩, hboards, hperiphery⟩

theorem Tenants.given (h : Tenants t) (hget : t.2.machines.get? name = some machine)
    (hm : t.1.machines.get? name = some m) (hh : Housed t id m boards periphery) :
    boards.Nonempty ∧ (∀ d ∈ boards, Equips machine d) ∧ ∀ l ∈ periphery, l.1 ∈ boards := by
  obtain ⟨j, al, hj, hal⟩ := hh.held
  exact (h.leased name machine m hget hm).given ⟨id, j, hj, hal, hh.boards, hh.periphery⟩

theorem Tenants.disjoint (h : Tenants t) (hr : Roster depth t)
    (hget : t.2.machines.get? name = some machine) (hm : t.1.machines.get? name = some m)
    (hh : Housed t id m boards periphery) (hh' : Housed t id' m boards' periphery')
    (hne : id ≠ id') : Disjoint boards boards' := by
  obtain ⟨j, al, hj, hal⟩ := hh.held
  obtain ⟨j', al', hj', hal'⟩ := hh'.held
  apply (h.leased name machine m hget hm).disjoint ⟨id, j, hj, hal, hh.boards, hh.periphery⟩
    ⟨id', j', hj', hal', hh'.boards, hh'.periphery⟩
  intro heq
  subst heq
  have hin : j ∈ t.1.jobs.values := Dict.mem_values.mpr ⟨id, hj⟩
  have hin' : j' ∈ t.1.jobs.values := Dict.mem_values.mpr ⟨id', hj'⟩
  have hjj : j = j' := hr.linked.apart j hin j' hin' m al hal hal'
  subst hjj
  exact hne ((hr.linked.ids id j hj).1.symm.trans (hr.linked.ids id' j hj').1)

end SpallocServer.Controller
