import SpallocServer.JobQueue.Order
import SpallocServer.Controller.Placement

namespace SpallocServer.Controller

open Foundation Prog JobQueue Allocator

variable {q q' : JobQueue} {c c' : Controller} {t t' : JobQueue × Controller} {id j m k : ℕ}
  {depth : ℤ} {name : String} {machine old new : Configuration.Machine}

theorem Describes.alike {m : JobQueue.Machine} (h : Describes old m) (ha : old.Alike new) :
    Describes new (m.modified (some new.tags) (some new.deadBoards) (some new.deadLinks)) :=
  ⟨rfl, h.width.trans ha.width, h.height.trans ha.height, rfl, rfl⟩

theorem registered_wired (hname : machine.name = name) (name' : String) :
    (name' ≠ name → (c.registered name machine).bmpControllers.get? name' =
      c.bmpControllers.get? name') ∧
    (name' = name → ∃ controllers, (c.registered name machine).bmpControllers.get? name' =
        some controllers ∧
      ∀ frame, (controllers.get? frame).isSome ↔ (machine.bmpIps.get? frame).isSome) := by
  have hfold (l : List ((ℤ × ℤ) × String)) (c : Controller) (controllers : Dict (ℤ × ℤ) ℕ)
      (hc : c.bmpControllers.get? name = some controllers) :
      (name' ≠ name → (l.foldl (fun c p => c.wired name p.1 p.2) c).bmpControllers.get? name' =
        c.bmpControllers.get? name') ∧
      ∃ controllers', (l.foldl (fun c p => c.wired name p.1 p.2) c).bmpControllers.get? name =
          some controllers' ∧
        ∀ frame, (controllers'.get? frame).isSome ↔
          (controllers.get? frame).isSome ∨ frame ∈ l.map Prod.fst := by
    induction l generalizing c controllers with
    | nil => exact ⟨fun _ => rfl, controllers, hc, fun frame => by simp⟩
    | cons p l ih =>
      have hwired : (c.wired name p.1 p.2).bmpControllers.get? name =
          some (controllers.set p.1 c.nextBmp) := by
        change (c.bmpControllers.set name _).get? name = _
        rw [Dict.get?_set_self, hc]
        rfl
      obtain ⟨hother, controllers', hget, hframes⟩ := ih (c.wired name p.1 p.2) _ hwired
      refine ⟨fun hne => ?_, controllers', hget, fun frame => ?_⟩
      · rw [List.foldl_cons, hother hne]
        exact Dict.get?_set_ne _ (Ne.symm hne) _
      · rw [hframes, Dict.get?_set, List.map_cons, List.mem_cons]
        by_cases hp : p.1 = frame
        · simp [hp]
        · simp [hp, Ne.symm hp]
  subst hname
  obtain ⟨hother, controllers, hget, hframes⟩ := hfold machine.bmpIps.entries
    { c with
      machines := c.machines.set machine.name machine
      bmpControllers := c.bmpControllers.set machine.name Dict.empty }
    Dict.empty (Dict.get?_set_self _ _ _)
  constructor
  · intro hne
    exact (hother hne).trans (Dict.get?_set_ne _ (Ne.symm hne) _)
  · intro heq
    subst heq
    refine ⟨controllers, hget, fun frame => ?_⟩
    rw [hframes]
    change _ ∨ frame ∈ machine.bmpIps.keys ↔ _
    rw [Dict.mem_keys, Option.isSome_iff_exists, Option.isSome_iff_exists]
    simp

namespace Agreed

theorem congr (h : Agreed (q, c)) (hq : ∀ name, q'.machines.get? name = q.machines.get? name)
    (htags : ∀ m, (q'.machine m).tags = (q.machine m).tags)
    (hsetup : ∀ m, SameSetup (q.machine m).allocator (q'.machine m).allocator)
    (hm : ∀ name, c'.machines.get? name = c.machines.get? name)
    (hb : c'.bmpControllers = c.bmpControllers) : Agreed (q', c') where
  named name machine hget := h.named name machine (by rw [← hm]; exact hget)
  queued name := by
    dsimp only
    rw [hq, hm]
    exact h.queued name
  described name machine m hget hgetq := by
    dsimp only at hget hgetq ⊢
    rw [hm] at hget
    rw [hq] at hgetq
    have hd := h.described name machine m hget hgetq
    dsimp only at hd
    exact ⟨(htags m).trans hd.tags, (hsetup m).width.trans hd.width,
      (hsetup m).height.trans hd.height, (hsetup m).deadBoards.trans hd.deadBoards,
      (hsetup m).deadLinks.trans hd.deadLinks⟩
  wired name := by
    dsimp only
    rw [hb, hm]
    exact h.wired name
  framed name machine controllers hget hgetb := by
    dsimp only at hget hgetb
    rw [hm] at hget
    rw [hb] at hgetb
    exact h.framed name machine controllers hget hgetb

theorem view (h : Agreed t) (hv : SameView t t') : Agreed t' := by
  refine Agreed.congr (q := t.1) (c := t.2) h hv.queued hv.tags (fun m => ?_) hv.machines
    hv.bmpControllers
  rw [hv.allocator]
  exact .refl _

theorem fixed (h : Agreed (q, c)) (hf : Fixed q q') (hm : c'.machines = c.machines)
    (hb : c'.bmpControllers = c.bmpControllers) : Agreed (q', c') :=
  h.congr (fun _ => by rw [hf.machines]) hf.tags hf.setup (fun _ => by rw [hm]) hb

theorem known (h : Agreed (q, c)) (hr : Roster depth (q, c)) (hm : m ∈ q.machines.values) :
    q.machines.get? (q.machine m).name = some m ∧
      ∃ machine, c.machines.get? (q.machine m).name = some machine := by
  obtain ⟨name, hname⟩ := Dict.mem_values.mp hm
  have hname' : (q.machine m).name = name := (hr.linked.names name m hname).1
  rw [hname']
  refine ⟨hname, Option.isSome_iff_exists.mp ((h.queued name).mp ?_)⟩
  dsimp only
  rw [hname]
  rfl

theorem removed (h : Agreed (q, c)) :
    Agreed ({ q with machines := q.machines.erase name }, c.unregistered name) where
  named name' machine hget := h.named name' machine (Dict.get?_of_erase hget)
  queued name' := by
    change ((q.machines.erase name).get? name').isSome ↔ ((c.machines.erase name).get? name').isSome
    rw [Dict.get?_erase, Dict.get?_erase]
    split
    · rfl
    · exact h.queued name'
  described name' machine m hget hgetq :=
    h.described name' machine m (Dict.get?_of_erase hget) (Dict.get?_of_erase hgetq)
  wired name' := by
    change ((c.bmpControllers.erase name).get? name').isSome ↔
      ((c.machines.erase name).get? name').isSome
    rw [Dict.get?_erase, Dict.get?_erase]
    split
    · rfl
    · exact h.wired name'
  framed name' machine controllers hget hgetb :=
    h.framed name' machine controllers (Dict.get?_of_erase hget) (Dict.get?_of_erase hgetb)

theorem changed (h : Agreed (q, c)) (hr : Roster depth (q, c))
    (hold : c.machines.get? name = some old) (hm : q.machines.get? name = some m)
    (hname : new.name = name) (halike : old.Alike new) :
    Agreed (q.setMachine m ((q.machine m).modified (some new.tags) (some new.deadBoards)
      (some new.deadLinks)), { c with machines := c.machines.set name new }) where
  named name' machine hget := by
    dsimp only at hget
    rw [Dict.get?_set] at hget
    split at hget
    · next heq =>
      cases hget
      exact hname.trans heq
    · exact h.named name' machine hget
  queued name' := by
    change (q.machines.get? name').isSome ↔ ((c.machines.set name new).get? name').isSome
    rw [Dict.get?_set]
    split
    · next heq =>
      rw [← heq, hm]
      rfl
    · exact h.queued name'
  described name' machine m' hget hgetq := by
    dsimp only at hget hgetq ⊢
    change q.machines.get? name' = some m' at hgetq
    rw [Dict.get?_set] at hget
    rw [machine_setMachine]
    split at hget
    · next heq =>
      cases hget
      rw [← heq, hm] at hgetq
      cases hgetq
      rw [if_pos rfl]
      exact (h.described name old m hold hm).alike halike
    · next hne =>
      have hm' : m' ≠ m := by
        intro heq
        rw [heq] at hgetq
        exact hne ((hr.linked.names name m hm).1.symm.trans (hr.linked.names name' m hgetq).1)
      rw [if_neg hm']
      exact h.described name' machine m' hget hgetq
  wired name' := by
    change (c.bmpControllers.get? name').isSome ↔ ((c.machines.set name new).get? name').isSome
    rw [Dict.get?_set]
    split
    · next heq =>
      subst heq
      have hw := h.wired name
      dsimp only at hw
      rw [hold] at hw
      exact ⟨fun _ => rfl, fun _ => hw.mpr rfl⟩
    · exact h.wired name'
  framed name' machine controllers hget hgetb frame := by
    dsimp only at hget hgetb
    rw [Dict.get?_set] at hget
    split at hget
    · next heq =>
      cases hget
      subst heq
      rw [h.framed name old controllers hold hgetb, halike.bmpIps]
    · exact h.framed name' machine controllers hget hgetb frame

theorem added (h : Agreed (q, c)) (hr : Roster depth (q, c)) (hname : new.name = name) :
    Agreed (q.added name new.width new.height (some new.tags) new.deadBoards new.deadLinks,
      c.registered name new) where
  named name' machine hget := by
    dsimp only at hget
    rw [registered_machines, Dict.get?_set] at hget
    split at hget
    · next heq =>
      cases hget
      exact hname.trans heq
    · exact h.named name' machine hget
  queued name' := by
    change ((q.machines.set name _).get? name').isSome ↔ _
    dsimp only
    rw [registered_machines, Dict.get?_set, Dict.get?_set]
    split
    · exact ⟨fun _ => rfl, fun _ => rfl⟩
    · exact h.queued name'
  described name' machine m hget hgetq := by
    dsimp only at hget hgetq ⊢
    change (q.machines.set name _).get? name' = some m at hgetq
    rw [registered_machines, Dict.get?_set] at hget
    rw [Dict.get?_set] at hgetq
    change Describes machine ((q.setMachine q.nextMachine _).machine m)
    rw [machine_setMachine]
    split at hget
    · next heq =>
      rw [if_pos heq] at hgetq
      cases hget
      cases hgetq
      rw [if_pos rfl]
      exact ⟨rfl, rfl, rfl, rfl, rfl⟩
    · next hne =>
      rw [if_neg hne] at hgetq
      have hm : m ≠ q.nextMachine := (hr.linked.names name' m hgetq).2.ne
      rw [if_neg hm]
      exact h.described name' machine m hget hgetq
  wired name' := by
    obtain ⟨hother, hself⟩ := registered_wired (c := c) hname name'
    dsimp only
    rw [registered_machines, Dict.get?_set]
    by_cases heq : name' = name
    · obtain ⟨controllers, hget, -⟩ := hself heq
      rw [hget, if_pos heq.symm]
      exact ⟨fun _ => rfl, fun _ => rfl⟩
    · rw [hother heq, if_neg (Ne.symm heq)]
      exact h.wired name'
  framed name' machine controllers hget hgetb frame := by
    obtain ⟨hother, hself⟩ := registered_wired (c := c) hname name'
    dsimp only at hget hgetb
    rw [registered_machines, Dict.get?_set] at hget
    by_cases heq : name' = name
    · rw [if_pos heq.symm] at hget
      cases hget
      obtain ⟨controllers', hget', hframes⟩ := hself heq
      obtain rfl := Option.some.inj (hget'.symm.trans hgetb)
      exact hframes frame
    · rw [if_neg (Ne.symm heq)] at hget
      rw [hother heq] at hgetb
      exact h.framed name' machine controllers hget hgetb frame

end Agreed

structure Hosted (t : JobQueue × Controller) : Prop where
  hosted : ∀ id ∈ t.2.jobs, ∀ machine, (t.2.job id).allocatedMachine = some machine →
    ∃ j m current, t.1.jobs.get? id = some j ∧ (t.1.job j).machine = some m ∧
      t.1.machines.get? machine.name = some m ∧
      t.2.machines.get? machine.name = some current ∧ machine.Alike current
  told : ∀ id ∈ t.2.jobs, ∀ j, t.1.jobs.get? id = some j → (t.1.job j).pending = false →
    (t.2.job id).allocatedMachine ≠ none
  boards : ∀ id, (t.2.job id).boards ≠ none ↔ (t.2.job id).allocatedMachine ≠ none
  periphery : ∀ id, (t.2.job id).periphery ≠ none ↔ (t.2.job id).allocatedMachine ≠ none
  numbered : ∀ id, (t.1.jobs.get? id).isSome → id < t.2.nextId

theorem allocatedMachine_of_placement {job job' : Job} (h : job.placement = job'.placement) :
    job.allocatedMachine = job'.allocatedMachine := congrArg (·.1) h

theorem boards_of_placement {job job' : Job} (h : job.placement = job'.placement) :
    job.boards = job'.boards := congrArg (·.2.1) h

theorem periphery_of_placement {job job' : Job} (h : job.placement = job'.placement) :
    job.periphery = job'.periphery := congrArg (·.2.2.1) h

namespace Hosted

theorem congr (h : Hosted (q, c)) (hjobs : q'.jobs = q.jobs) (hjob : q'.job = q.job)
    (hq : ∀ name, q'.machines.get? name = q.machines.get? name)
    (hm : ∀ name, c'.machines.get? name = c.machines.get? name) (hn : c'.nextId = c.nextId)
    (hj : ∀ k ∈ c'.jobs, k ∈ c.jobs) (hp : ∀ k, (c'.job k).placement = (c.job k).placement) :
    Hosted (q', c') where
  hosted id hid machine hmachine := by
    dsimp only at hid hmachine ⊢
    rw [allocatedMachine_of_placement (hp id)] at hmachine
    rw [hjobs, hjob, hq, hm]
    exact h.hosted id (hj id hid) machine hmachine
  told id hid j hget hpending := by
    dsimp only at hid hget hpending ⊢
    rw [hjobs] at hget
    rw [hjob] at hpending
    rw [allocatedMachine_of_placement (hp id)]
    exact h.told id (hj id hid) j hget hpending
  boards id := by
    dsimp only
    rw [boards_of_placement (hp id), allocatedMachine_of_placement (hp id)]
    exact h.boards id
  periphery id := by
    dsimp only
    rw [periphery_of_placement (hp id), allocatedMachine_of_placement (hp id)]
    exact h.periphery id
  numbered id hid := by
    dsimp only at hid ⊢
    rw [hjobs] at hid
    rw [hn]
    exact h.numbered id hid

theorem view (h : Hosted t) (hv : SameView t t') : Hosted t' :=
  Hosted.congr (q := t.1) (c := t.2) h hv.queuedJobs hv.queuedJob hv.queued hv.machines hv.nextId
    (fun k hk => by rwa [hv.jobs] at hk) hv.placement

theorem placed {a : Allocator} {al : ℕ} {boards : Finset Board} {periphery : Finset BoardLink}
    {connections : Option (Dict (ℤ × ℤ) String)} (h : Hosted (q, c)) (hr : Roster depth (q, c))
    (hp : (q.job j).pending = true) (hq : q.machines.get? machine.name = some m)
    (hm : c.machines.get? machine.name = some machine) (ht : Touches (q.job j).id c c')
    (hplaced : (c'.job (q.job j).id).placement =
      (some machine, some boards, some periphery, connections)) :
    Hosted ((q.setAllocator m a).placed j m al, c') := by
  have hknown := hr.linked.known j hp
  have hjob (i : ℕ) : ((q.setAllocator m a).placed j m al).job i =
      if i = j then { q.job i with pending := false, machine := some m, allocationId := some al }
      else q.job i := job_placed _ i j m al
  have hother (k i : ℕ) (hk : k ≠ (q.job j).id) (hi : q.jobs.get? k = some i) : i ≠ j := by
    intro heq
    subst heq
    exact hk (hr.linked.ids k i hi).1.symm
  have hself : (c'.job (q.job j).id).allocatedMachine = some machine :=
    congrArg Prod.fst hplaced
  refine ⟨fun id hid machine' hmachine => ?_, fun id hid i hget hpending => ?_, fun id => ?_,
    fun id => ?_, fun id hid => ?_⟩
  · dsimp only at hid hmachine ⊢
    rw [ht.jobs] at hid
    rw [ht.machines]
    by_cases heq : id = (q.job j).id
    · rw [heq, hself] at hmachine
      cases hmachine
      refine ⟨j, m, machine, heq ▸ hknown, ?_, hq, hm, .refl machine⟩
      rw [hjob, if_pos rfl]
    · rw [ht.job id heq] at hmachine
      obtain ⟨i, m', current, hi, him, hq', hm', ha⟩ := h.hosted id hid machine' hmachine
      refine ⟨i, m', current, hi, ?_, hq', hm', ha⟩
      rw [hjob, if_neg (hother id i heq hi)]
      exact him
  · dsimp only at hid hget hpending ⊢
    rw [ht.jobs] at hid
    change q.jobs.get? id = some i at hget
    by_cases heq : id = (q.job j).id
    · rw [heq, hself]
      exact Option.some_ne_none _
    · rw [hjob, if_neg (hother id i heq hget)] at hpending
      rw [ht.job id heq]
      exact h.told id hid i hget hpending
  · dsimp only
    by_cases heq : id = (q.job j).id
    · have hboards : (c'.job (q.job j).id).boards = some boards := congrArg (·.2.1) hplaced
      rw [heq, hself, hboards]
      simp only [ne_eq, reduceCtorEq, not_false_eq_true]
    · rw [ht.job id heq]
      exact h.boards id
  · dsimp only
    by_cases heq : id = (q.job j).id
    · have hperiphery : (c'.job (q.job j).id).periphery = some periphery :=
        congrArg (·.2.2.1) hplaced
      rw [heq, hself, hperiphery]
      simp only [ne_eq, reduceCtorEq, not_false_eq_true]
    · rw [ht.job id heq]
      exact h.periphery id
  · dsimp only
    rw [ht.nextId]
    exact h.numbered id hid

theorem retired (h : Hosted (q, c)) (id : ℕ) (reason : Option String) :
    Hosted (q, c.retired id reason) :=
  h.congr rfl rfl (fun _ => rfl) (fun _ => rfl) rfl (fun _ hk => (mem_retired.mp hk).1)
    fun _ => rfl

theorem dropped (h : Hosted (q, c)) (hid : id ∉ c.jobs) (b : Allocator) :
    Hosted ((q.dropped id).setAllocator m b, c) := by
  have hget (k : ℕ) : ((q.dropped id).setAllocator m b).jobs.get? k =
      if id = k then none else q.jobs.get? k := Dict.get?_erase _ _ _
  refine ⟨fun k hk machine hmachine => ?_, fun k hk i hi hpending => ?_, h.boards, h.periphery,
    fun k hk => ?_⟩
  · obtain ⟨i, m', current, hi, him, hq', hm', ha⟩ := h.hosted k hk machine hmachine
    refine ⟨i, m', current, ?_, him, hq', hm', ha⟩
    have hne : id ≠ k := fun heq => hid (heq ▸ hk)
    dsimp only
    rw [hget, if_neg hne]
    exact hi
  · dsimp only at hi
    rw [hget] at hi
    split at hi
    · cases hi
    · exact h.told k hk i hi hpending
  · dsimp only at hk
    rw [hget] at hk
    split at hk
    · cases hk
    · exact h.numbered k hk

theorem cancelled (h : Hosted (q, c)) (hr : Roster depth (q, c)) (hp : (q.job j).pending = true)
    (reason : Option String) :
    Hosted ((q.withdrawn j).dropped (q.job j).id, c.retired (q.job j).id reason) := by
  have hget (k : ℕ) : ((q.withdrawn j).dropped (q.job j).id).jobs.get? k =
      if (q.job j).id = k then none else q.jobs.get? k := Dict.get?_erase _ _ _
  have hjob (i : ℕ) : ((q.withdrawn j).dropped (q.job j).id).job i =
      if i = j then { q.job i with pending := false } else q.job i := job_withdrawn q i j
  have hother (k i : ℕ) (hk : k ≠ (q.job j).id) (hi : q.jobs.get? k = some i) : i ≠ j := by
    intro heq
    subst heq
    exact hk (hr.linked.ids k i hi).1.symm
  refine ⟨fun k hk machine hmachine => ?_, fun k hk i hi hpending => ?_, h.boards, h.periphery,
    fun k hk => ?_⟩
  · obtain ⟨hk, hne⟩ := mem_retired.mp hk
    obtain ⟨i, m', current, hi, him, hq', hm', ha⟩ := h.hosted k hk machine hmachine
    refine ⟨i, m', current, ?_, ?_, hq', hm', ha⟩
    · dsimp only
      rw [hget, if_neg (Ne.symm hne)]
      exact hi
    · dsimp only
      rw [hjob, if_neg (hother k i hne hi)]
      exact him
  · obtain ⟨hk, hne⟩ := mem_retired.mp hk
    dsimp only at hi hpending
    rw [hget, if_neg (Ne.symm hne)] at hi
    rw [hjob, if_neg (hother k i hne hi)] at hpending
    exact h.told k hk i hi hpending
  · dsimp only at hk
    rw [hget] at hk
    split at hk
    · cases hk
    · exact h.numbered k hk

theorem enlisted {owner : String} {alive : Option Keepalive} {host : Option String} {reads : ℕ}
    (h : Hosted (q, c)) :
    Hosted (q, Controller.createdJob { c with nextId := c.nextId + 1, reads := reads } c.nextId
      owner alive host) := by
  have hlt (k j : ℕ) (hj : q.jobs.get? k = some j) : k ≠ c.nextId := by
    have hlt := h.numbered k (Option.isSome_iff_exists.mpr ⟨j, hj⟩)
    dsimp only at hlt
    omega
  have hjob (k : ℕ) : (Controller.createdJob { c with nextId := c.nextId + 1, reads := reads }
      c.nextId owner alive host).job k = if k = c.nextId then .new owner (c.utcnow c.nextId) alive host
        else c.job k := job_createdJob
  have hold (k : ℕ) (hk : k ∈ c.jobs ++ [c.nextId]) (hne : k ≠ c.nextId) : k ∈ c.jobs := by
    obtain hk | hk := List.mem_append.mp hk
    · exact hk
    · exact absurd (List.mem_singleton.mp hk) hne
  refine ⟨fun k hk machine hmachine => ?_, fun k hk i hi hpending => ?_, fun k => ?_, fun k => ?_,
    fun k hk => ?_⟩
  · dsimp only at hmachine
    rw [hjob] at hmachine
    split at hmachine
    · cases hmachine
    · next hne => exact h.hosted k (hold k hk hne) machine hmachine
  · dsimp only
    rw [hjob, if_neg (hlt k i hi)]
    exact h.told k (hold k hk (hlt k i hi)) i hi hpending
  · dsimp only
    rw [hjob]
    split
    · exact ⟨fun hne => absurd rfl hne, fun hne => absurd rfl hne⟩
    · exact h.boards k
  · dsimp only
    rw [hjob]
    split
    · exact ⟨fun hne => absurd rfl hne, fun hne => absurd rfl hne⟩
    · exact h.periphery k
  · exact (h.numbered k hk).trans (Nat.lt_succ_self _)

theorem created (h : Hosted (q, c)) (hr : Roster depth (q, c)) {job : JobQueue.Job}
    (hid : job.id < c.nextId) (hpending : job.pending = true)
    (hnone : (c.job job.id).allocatedMachine = none) : Hosted (q.created job, c) := by
  have hget (k : ℕ) : (q.created job).jobs.get? k =
      if job.id = k then some q.nextJob else q.jobs.get? k := Dict.get?_set _ _ _ _
  have hjob (i : ℕ) : (q.created job).job i = if i = q.nextJob then job else q.job i :=
    JobQueue.job_setJob i q.nextJob job
  have hlt (k i : ℕ) (hi : q.jobs.get? k = some i) : i ≠ q.nextJob := (hr.linked.ids k i hi).2.ne
  refine ⟨fun k hk machine hmachine => ?_, fun k hk i hi hp => ?_, h.boards, h.periphery,
    fun k hk => ?_⟩
  · have hne : job.id ≠ k := by
      intro heq
      dsimp only at hmachine
      rw [← heq, hnone] at hmachine
      cases hmachine
    obtain ⟨i, m', current, hi, him, hq', hm', ha⟩ := h.hosted k hk machine hmachine
    refine ⟨i, m', current, ?_, ?_, hq', hm', ha⟩
    · dsimp only
      rw [hget, if_neg hne]
      exact hi
    · dsimp only
      rw [hjob, if_neg (hlt k i hi)]
      exact him
  · dsimp only at hi hp
    rw [hget] at hi
    rw [hjob] at hp
    split at hi
    · cases hi
      rw [if_pos rfl, hpending] at hp
      cases hp
    · rw [if_neg (hlt k i hi)] at hp
      exact h.told k hk i hi hp
  · dsimp only at hk
    rw [hget] at hk
    split at hk
    · next heq => exact heq ▸ hid
    · exact h.numbered k hk

theorem removed (h : Hosted (q, c)) (hm : q.machines.get? name = some m)
    (hempty : ∀ j ∈ q.jobs.values, (q.job j).machine ≠ some m) :
    Hosted ({ q with machines := q.machines.erase name }, c.unregistered name) := by
  refine ⟨fun k hk machine hmachine => ?_, h.told, h.boards, h.periphery, h.numbered⟩
  obtain ⟨i, m', current, hi, him, hq', hm', ha⟩ := h.hosted k hk machine hmachine
  have hne : name ≠ machine.name := by
    intro heq
    dsimp only at hq'
    rw [← heq, hm] at hq'
    obtain rfl := Option.some.inj hq'
    exact hempty i (Dict.mem_values.mpr ⟨k, hi⟩) him
  refine ⟨i, m', current, hi, him, ?_, ?_, ha⟩
  · exact (Dict.get?_erase_ne _ hne).trans hq'
  · exact (Dict.get?_erase_ne _ hne).trans hm'

theorem changed {machine : JobQueue.Machine} (h : Hosted (q, c))
    (hold : c.machines.get? name = some old) (halike : old.Alike new) :
    Hosted (q.setMachine m machine, { c with machines := c.machines.set name new }) := by
  refine ⟨fun k hk machine hmachine => ?_, h.told, h.boards, h.periphery, h.numbered⟩
  obtain ⟨i, m', current, hi, him, hq', hm', ha⟩ := h.hosted k hk machine hmachine
  by_cases heq : name = machine.name
  · refine ⟨i, m', new, hi, him, hq', ?_, ?_⟩
    · dsimp only
      rw [heq, Dict.get?_set_self]
    · dsimp only at hm'
      rw [← heq, hold] at hm'
      obtain rfl := Option.some.inj hm'
      exact ha.trans halike
  · exact ⟨i, m', current, hi, him, hq', (Dict.get?_set_ne _ heq _).trans hm', ha⟩

theorem added {width height : ℤ} {tags : Option (Finset String)} {deadBoards : Finset Board}
    {deadLinks : Finset BoardLink} (h : Hosted (q, c)) (hnone : c.machines.get? name = none) :
    Hosted (q.added name width height tags deadBoards deadLinks, c.registered name new) := by
  obtain ⟨hn, hj, -, hjob⟩ := registered_jobs c name new
  refine ⟨fun k hk machine hmachine => ?_, fun k hk i hi hp => ?_, fun k => ?_, fun k => ?_,
    fun k hk => ?_⟩
  · dsimp only at hk hmachine ⊢
    rw [hj] at hk
    rw [hjob] at hmachine
    obtain ⟨i, m', current, hi, him, hq', hm', ha⟩ := h.hosted k hk machine hmachine
    have hne : name ≠ machine.name := by
      intro heq
      dsimp only at hm'
      rw [← heq, hnone] at hm'
      cases hm'
    refine ⟨i, m', current, hi, him, (Dict.get?_set_ne _ hne _).trans hq', ?_, ha⟩
    rw [registered_machines]
    exact (Dict.get?_set_ne _ hne _).trans hm'
  · dsimp only at hk ⊢
    rw [hj] at hk
    rw [hjob]
    exact h.told k hk i hi hp
  · dsimp only
    rw [hjob]
    exact h.boards k
  · dsimp only
    rw [hjob]
    exact h.periphery k
  · dsimp only
    rw [hn]
    exact h.numbered k hk

end Hosted

/-- The tables agree, and jobs are where they were told to be. -/
structure Hosting (t : JobQueue × Controller) : Prop extends Agreed t, Hosted t

theorem hosting_alloc (hr : Roster depth (q, c)) (h : Hosting (q, c)) (hm : m ∈ q.machines.values)
    (hp : (q.job j).pending = true) :
    wp (Allocator.alloc (q.job j).request) (fun res a =>
      match res with
      | none => Hosting (q.setAllocator m a, c)
      | some al =>
        wp (onAllocate (q.job j).id (q.machine m).name al.boards al.periphery al.torus)
          (fun _ c' => Hosting ((q.setAllocator m a).placed j m al.id, c'))
          (fun _ c' => Hosting ((q.setAllocator m a).placed j m al.id, c')) c)
      (fun _ a => Hosting (q.setAllocator m a, c)) (q.machine m).allocator := by
  have hset (a : Allocator) (ha : SameSetup (q.machine m).allocator a) :
      Hosting (q.setAllocator m a, c) :=
    ⟨h.toAgreed.fixed (fixed_setAllocator ha) rfl rfl, h.toHosted.congr rfl rfl (fun _ => rfl)
      (fun _ => rfl) rfl (fun _ hk => hk) fun _ => rfl⟩
  apply (alloc_registers _ _).mono _ fun _ a ha => hset a ha.setup
  intro res a hreg
  cases res with
  | none => exact hset a hreg.setup
  | some al =>
    obtain ⟨hq, machine, hget⟩ := h.toAgreed.known hr hm
    have hname : machine.name = (q.machine m).name := h.named _ _ hget
    apply onAllocate_placed (hr.pending j hp).1 hget
    intro c' connections ht hplacement
    refine ⟨h.toAgreed.fixed ((fixed_setAllocator hreg.setup).trans (fixed_placed _ j m al.id))
      ht.machines ht.bmpControllers, ?_⟩
    rw [← hname] at hq hget
    exact h.toHosted.placed hr hp hq hget ht hplacement

theorem hosting_rules : KeepRules True (fun _ => True) Hosting Hosting where
  agreed _ h := h.toAgreed
  numbered q c h := by
    by_contra hne
    have hlt := h.numbered c.nextId (Option.isSome_iff_ne_none.mpr hne)
    exact absurd hlt (lt_irrefl _)
  view _ _ h hv := ⟨h.toAgreed.view hv, h.toHosted.view hv⟩
  alloc _ _ _ _ _ hr h hm hp := hosting_alloc hr h hm hp
  checked depth q c m hr h hm := by
    have hset (a : Allocator) (ha : Passes (q.machine m).allocator a) :
        Hosting (q.setAllocator m a, c) :=
      ⟨h.toAgreed.fixed (fixed_setAllocator ha.setup) rfl rfl, h.toHosted.congr rfl rfl
        (fun _ => rfl) (fun _ => rfl) rfl (fun _ hk => hk) fun _ => rfl⟩
    exact (checkFree_passes _).mono (fun _ => hset) fun _ => hset
  cancelled depth q c j reason hr h hp :=
    ⟨h.toAgreed.fixed ((fixed_withdrawn q j).trans (fixed_dropped _ _)) rfl rfl,
      h.toHosted.cancelled hr hp reason⟩
  retired depth q c id reason hr h _ :=
    ⟨h.toAgreed.congr (fun _ => rfl) (fun _ => rfl) (fun _ => .refl _) (fun _ => rfl) rfl,
      h.toHosted.retired id reason⟩
  freed depth q c id j m a b hr h hid hj hh hm hrun := by
    obtain ⟨-, -, hsetup, -⟩ := wp_of_eq_ok (free_registry (hr.linked.registry m hm) a) hrun
    have hfixed : Fixed q ((q.dropped id).setAllocator m b) :=
      (fixed_dropped q id).trans (fixed_setAllocator hsetup)
    exact ⟨h.toAgreed.fixed hfixed rfl rfl, h.toHosted.dropped hid b⟩
  enlisted depth q c owner alive host reads _ hr h :=
    ⟨h.toAgreed.congr (fun _ => rfl) (fun _ => rfl) (fun _ => .refl _) (fun _ => rfl) rfl,
      h.toHosted.enlisted⟩
  created depth q c owner alive host reads machine tags request hr h hnone := by
    refine ⟨h.toAgreed.congr (fun _ => rfl) (fun _ => rfl) (fun _ => .refl _) (fun _ => rfl) rfl,
      ?_⟩
    apply h.toHosted.enlisted.created hr.enlisted (Nat.lt_succ_self c.nextId) rfl
    dsimp only
    rw [job_createdJob, if_pos rfl]
    rfl
  removed q c name m h hm hempty _ := ⟨h.toAgreed.removed, h.toHosted.removed hm hempty⟩
  changed depth q c name old new m hr h hold hm hname halike _ :=
    ⟨h.toAgreed.changed hr hold hm hname halike, h.toHosted.changed hold halike⟩
  added depth q c name new hr h hnone hname _ :=
    ⟨h.toAgreed.added hr hname, h.toHosted.added hnone⟩

theorem start_hosting (s : Setup) : Hosting s.start where
  named _ _ := nofun
  queued _ := Iff.rfl
  described _ _ _ := nofun
  wired _ := Iff.rfl
  framed _ _ _ := nofun
  hosted _ hid := absurd hid List.not_mem_nil
  told _ hid := absurd hid List.not_mem_nil
  boards _ := ⟨fun hne => absurd rfl hne, fun hne => absurd rfl hne⟩
  periphery _ := ⟨fun hne => absurd rfl hne, fun hne => absurd rfl hne⟩
  numbered _ := nofun

theorem reachable_hosting {s : Setup} (h : (system s).Reachable t) : Roster 0 t ∧ Hosting t := by
  apply h.invariant
  · intro t ht
    rw [ht]
    exact ⟨start_roster s, start_hosting s⟩
  · intro t op t' _ ht hstep
    rw [hstep]
    exact wp_same (hosting_rules.exec (fun _ => trivial) (.of_all fun _ => trivial) ht)

end SpallocServer.Controller
