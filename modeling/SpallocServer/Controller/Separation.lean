import SpallocServer.Controller.Dedication
import SpallocServer.Controller.Tenants

namespace SpallocServer.Controller

open Foundation Prog JobQueue Allocator

variable {q q' : JobQueue} {c c' : Controller} {t t' : JobQueue × Controller} {id j m b : ℕ}
  {debt debt' : ℕ → ℕ} {depth depth' : ℤ} {name : String} {board : Board} {machines : Machines}
  {machine : Configuration.Machine}

/-- The job has the board from an allocation on the machine of the name. -/
def lent (t : JobQueue × Controller) : Loans := fun name id board =>
  ∃ m boards periphery, t.1.machines.get? name = some m ∧ Housed t id m boards periphery ∧
    board ∈ boards

theorem lent_mono (h : lent t name id board)
    (hm : ∀ m, t.1.machines.get? name = some m → t'.1.machines.get? name = some m)
    (hj : ∀ m j al, t.1.machines.get? name = some m → t.1.jobs.get? id = some j →
      t.1.Holds j m al → t'.1.jobs.get? id = some j ∧ t'.1.Holds j m al ∧
        (t'.2.job id).placement = (t.2.job id).placement) : lent t' name id board := by
  obtain ⟨m, boards, periphery, hget, hhoused, hboard⟩ := h
  obtain ⟨j, al, hjob, hh⟩ := hhoused.held
  obtain ⟨hjob', hh', hp⟩ := hj m j al hget hjob hh
  exact ⟨m, boards, periphery, hm m hget, ⟨⟨j, al, hjob', hh'⟩,
    (boards_of_placement hp).trans hhoused.boards,
    (periphery_of_placement hp).trans hhoused.periphery⟩, hboard⟩

theorem lent_congr (h : lent t name id board)
    (hm : ∀ name, t'.1.machines.get? name = t.1.machines.get? name)
    (hjobs : t'.1.jobs = t.1.jobs) (hjob : t'.1.job = t.1.job)
    (hp : ∀ k, (t'.2.job k).placement = (t.2.job k).placement) : lent t' name id board := by
  refine lent_mono h (fun m hget => by rwa [hm]) fun m j al _ hj hh => ⟨?_, ?_, hp id⟩
  · rwa [hjobs]
  · unfold JobQueue.Holds
    rwa [hjob]

theorem SameView.lent (hv : SameView t t') (h : lent t name id board) :
    Controller.lent t' name id board :=
  lent_congr h hv.queued hv.queuedJobs hv.queuedJob hv.placement

theorem lent_exclusive (h : Resident t) (hr : Roster depth t) : (lent t).Exclusive := by
  intro name id id' board hl hl'
  obtain ⟨m, boards, periphery, hm, hhoused, hboard⟩ := hl
  obtain ⟨m', boards', periphery', hm', hhoused', hboard'⟩ := hl'
  obtain rfl := Option.some.inj (hm.symm.trans hm')
  obtain ⟨machine, hget⟩ :=
    Option.isSome_iff_exists.mp ((h.toHosting.queued name).mp (hm ▸ rfl))
  by_contra hne
  have hdisjoint := h.toTenants.disjoint hr hget hm hhoused hhoused' hne
  exact Finset.disjoint_left.mp hdisjoint hboard hboard'

theorem Resident.lends (h : Resident t) (hr : Roster depth t) (hid : id ∈ t.2.jobs)
    (hmachine : (t.2.job id).allocatedMachine = some machine) :
    ∃ current, t.2.machines.get? machine.name = some current ∧
      machine.boardLocations.Same current.boardLocations ∧
      ∀ board ∈ t.2.Concerned id, lent t machine.name id board := by
  obtain ⟨m, current, boards, periphery, hm, hcurrent, halike, hhoused⟩ := h.housed hr hid hmachine
  refine ⟨current, hcurrent, halike.boardLocations, fun board hboard => ?_⟩
  refine ⟨m, boards, periphery, hm, hhoused, ?_⟩
  obtain ⟨boards', hb, hin⟩ | ⟨periphery', hp, l, hl, rfl⟩ := hboard
  · obtain rfl := Option.some.inj (hhoused.boards.symm.trans hb)
    exact hin
  · obtain rfl := Option.some.inj (hhoused.periphery.symm.trans hp)
    exact (h.toTenants.given hcurrent hm hhoused).2.2 l hl

theorem lent_other {i : ℕ} (h : lent (q, c) name id board) (hr : Roster depth (q, c))
    (hp : (q.job j).pending = true) (hi : q.jobs.get? id = some i) :
    id ≠ (q.job j).id ∧ i ≠ j := by
  obtain ⟨m, boards, periphery, -, hhoused, -⟩ := h
  obtain ⟨k, al, hk, hh⟩ := hhoused.held
  obtain rfl := Option.some.inj (hk.symm.trans hi)
  have hkj : k ≠ j := by
    intro heq
    have hnone := hh.1
    rw [heq, (hr.linked.unplaced j hp).1] at hnone
    cases hnone
  refine ⟨fun heq => ?_, hkj⟩
  rw [heq] at hk
  exact hkj (Option.some.inj (hk.symm.trans (hr.linked.known j hp)))

theorem Resident.sends {L : Loans} (h : Resident (q, c)) (hr : Roster depth (q, c))
    (hd : Dedicated L c) (hL : L.Exclusive)
    (hlent : ∀ name id board, lent (q, c) name id board → L name id board) (hid : id ∈ c.jobs)
    (hs : Sends id c c') (hp : ∀ k, (c'.job k).placement = (c.job k).placement) :
    Dedicated L c' := by
  apply hd.sends hs hL
  intro machine hmachine
  rw [allocatedMachine_of_placement (hp id)] at hmachine
  obtain ⟨current, hcurrent, hsame, hown⟩ := h.lends hr hid hmachine
  refine ⟨current, ?_, hsame, fun board hboard => hlent _ _ _ (hown board ?_)⟩
  · rwa [hs.machines]
  · rwa [concerned_congr (boards_of_placement (hp id)) (periphery_of_placement (hp id))] at hboard

theorem onFree_placement {reason : Option String} :
    wp (onFree id reason) (fun _ c' => ∀ k, (c'.job k).placement = (c.job k).placement)
      (fun _ c' => ∀ k, (c'.job k).placement = (c.job k).placement) c := by
  apply onFree_wp
  · exact fun _ _ => rfl
  · exact fun _ _ _ => rfl
  intro machine _ _
  apply teardownJob_wp
  · exact fun _ _ => rfl
  · exact fun _ _ _ => rfl
  · exact fun _ _ => setJobPowerAndLinks_placement

structure Separated (debt : ℕ → ℕ) (depth : ℤ) (t : JobQueue × Controller) : Prop where
  roster : Roster depth t
  resident : Resident t
  tracked : Tracked False debt depth t
  dedicated : Dedicated (lent t) t.2

theorem Dedicated.view (h : Dedicated (lent t) t.2) (hv : SameView t t')
    (hr : ∀ b, ∀ r ∈ (t'.2.bmp b).requests, r ∈ (t.2.bmp b).requests) :
    Dedicated (lent t') t'.2 := by
  have hfewer : Dedicated (lent t) t'.2 := by
    refine h.congr (fun b name frame hc => ?_) (fun b name frame machine _ hget => ?_) hr
    · unfold Controls at hc
      rwa [hv.bmpControllers] at hc
    · rw [hv.machines] at hget
      exact ⟨machine, hget, fun _ => rfl⟩
  exact hfewer.lend fun _ _ _ _ _ _ _ hl => hv.lent hl

theorem Separated.view (h : Separated debt depth t) (hv : Narrows t t') (hr : Roster depth' t')
    (ht : Tracked False debt' depth' t')
    (hreq : ∀ b, ∀ r ∈ (t'.2.bmp b).requests, r ∈ (t.2.bmp b).requests) :
    Separated debt' depth' t' :=
  ⟨hr, resident_rules.view t t' h.resident hv, ht, h.dedicated.view hv.toSameView hreq⟩

theorem Separated.placed {a : Allocator} {al : ℕ} (h : Separated debt depth (q, c))
    (hp : (q.job j).pending = true) (ht : Touches (q.job j).id c c')
    (hs : Sends (q.job j).id c c')
    (hr : Roster depth ((q.setAllocator m a).placed j m al, c'))
    (hresident : Resident ((q.setAllocator m a).placed j m al, c')) :
    Dedicated (lent ((q.setAllocator m a).placed j m al, c')) c' := by
  have hlend : Dedicated (lent ((q.setAllocator m a).placed j m al, c')) c := by
    refine h.dedicated.lend fun b name frame _ r _ board hl => ?_
    refine lent_mono hl (fun m hm => hm) fun n i al' _ hi hh => ?_
    obtain ⟨hne, hother⟩ := lent_other hl h.roster hp hi
    refine ⟨hi, (holds_placed_ne hother).mpr hh, ?_⟩
    dsimp only
    rw [ht.job _ hne]
  apply hlend.sends hs (lent_exclusive hresident hr)
  intro machine hmachine
  have hlive : (q.job j).id ∈ c'.jobs := by
    rw [ht.jobs]
    exact (h.roster.pending j hp).1
  exact hresident.lends hr hlive hmachine

theorem Separated.sends (h : Separated debt depth (q, c)) (hid : id ∈ c.jobs) (hs : Sends id c c')
    (hp : ∀ k, (c'.job k).placement = (c.job k).placement) : Dedicated (lent (q, c')) c' := by
  have hsent : Dedicated (lent (q, c)) c' :=
    h.resident.sends h.roster h.dedicated (lent_exclusive h.resident h.roster)
      (fun _ _ _ hl => hl) hid hs hp
  exact hsent.lend fun _ _ _ _ _ _ _ hl => lent_congr hl (fun _ => rfl) rfl rfl hp

theorem separated_steps (debt : ℕ → ℕ) (depth : ℤ) :
    Steps (Separated debt depth)
      (fun t => Roster depth t → Resident t → Dedicated (lent t) t.2) fun _ _ => True where
  alloc q c m j rest h _ hp := by
    apply (wp_trivial _).mono _ fun _ _ _ => trivial
    intro res a _
    cases res with
    | none =>
      intro _ _
      exact h.dedicated.lend fun _ _ _ _ _ _ _ hl =>
        lent_congr hl (fun _ => rfl) rfl rfl fun _ => rfl
    | some al =>
      apply (onAllocate_touches.and onAllocate_sends).mono _ fun _ _ _ => trivial
      exact fun _ c' hc hr hresident => h.placed hp hc.1 hc.2 hr hresident
  skip q c m j rest h _ _ _ _ := h.dedicated.view (sameView_setQueue q c m rest) fun _ _ hr => hr
  offer q c j m h _ _ _ _ _ := h.dedicated.view (sameView_setQueue q c m _) fun _ _ hr => hr
  cancel q c j reason h hp := by
    obtain ⟨hid, hb⟩ := h.roster.pending j hp
    apply onCancel_wp hid hb
    intro reason _ _
    have hretired : Dedicated (lent (q, c)) (c.retired (q.job j).id reason) :=
      h.dedicated.same rfl rfl rfl
    refine hretired.lend fun b name frame _ r _ board hl => ?_
    refine lent_mono hl (fun m hm => hm) fun n i al' _ hi hh => ⟨?_, holds_withdrawn.mpr hh, rfl⟩
    have hne := (lent_other hl h.roster hp hi).1
    exact (Dict.get?_erase_ne _ (Ne.symm hne)).trans hi
  freed q c id j reason h hid _ _ := by
    apply (onFree_sends.and onFree_placement).mono _ fun _ _ _ => trivial
    exact fun _ c' hc _ _ => h.sends hid hc.1 hc.2
  read q c reads h _ _ := h.dedicated.view
    (sameView_controller rfl rfl rfl rfl (fun _ => rfl) fun _ => rfl) fun _ _ hr => hr
  refresh q c id lasthost alive reads h _ _ :=
    h.dedicated.view (sameView_controller rfl rfl rfl rfl
      (fun _ => job_refreshed_field Job.placement (fun _ _ _ => rfl) lasthost alive reads)
      fun _ => job_refreshed_field Job.size (fun _ _ _ => rfl) lasthost alive reads)
        fun _ _ hr => hr
  power q c id power linkEnable h hid _ := by
    apply (setJobPowerAndLinks_sends.and setJobPowerAndLinks_placement).mono _
      fun _ _ _ => trivial
    exact fun _ c' hc _ _ => h.sends hid hc.1 hc.2
  free q c m h _ := by
    apply (wp_trivial _).mono _ fun _ _ _ => trivial
    intro _ a _ _ _
    exact h.dedicated.lend fun _ _ _ _ _ _ _ hl =>
      lent_congr hl (fun _ => rfl) rfl rfl fun _ => rfl

theorem separated_rules (debt : ℕ → ℕ) (depth : ℤ) :
    JobRules (Separated debt depth) fun _ _ => True where
  toSteps := by
    have hresident : Steps (Separated debt depth) (fun t => Roster depth t ∧ Resident t)
        fun _ _ => True :=
      (resident_rules.rules depth).toSteps.mono (fun _ h => ⟨h.roster, h.resident⟩) (fun _ h => h)
        fun _ _ _ => trivial
    have htracked : Steps (Separated debt depth) (Tracked False debt depth) fun _ _ => True :=
      (tracked_steps False debt depth).mono (fun _ h => h.tracked) (fun _ h => h)
        fun _ _ _ => trivial
    exact (hresident.and (htracked.and (separated_steps debt depth))).mono (fun _ h => h)
      (fun _ h => ⟨h.1.1, h.1.2, h.2.1, h.2.2 h.1.1 h.1.2⟩) fun _ _ _ => trivial
  indexed _ h := h.roster.indexed
  lost _ _ _ _ _ _ := trivial

namespace Separated

theorem created {owner : String} {alive : Option Keepalive} {host : Option String} {reads : ℕ}
    (h : Separated debt depth (q, c)) (hnone : q.jobs.get? c.nextId = none)
    (machine : Option MachineName) (tags : Finset String) (request : Request) :
    Separated debt depth (q.created ⟨c.nextId, true, machine, tags, request, none, none⟩,
      Controller.createdJob { c with nextId := c.nextId + 1, reads := reads } c.nextId owner alive
        host) := by
  refine ⟨h.roster.created hnone machine tags request,
    resident_rules.created depth q c owner alive host reads machine tags request h.roster h.resident
      hnone, h.tracked.created hnone machine tags request, ?_⟩
  have hcreated : Dedicated (lent (q, c)) (Controller.createdJob
      { c with nextId := c.nextId + 1, reads := reads } c.nextId owner alive host) :=
    h.dedicated.same rfl rfl rfl
  refine hcreated.lend fun b name frame _ r _ board hl => ?_
  refine lent_mono hl (fun m hm => hm) fun m i al _ hi hh => ?_
  have hne : r.onDone ≠ c.nextId := by
    intro heq
    rw [heq] at hi
    dsimp only at hi
    rw [hnone] at hi
    cases hi
  have hin : i ≠ q.nextJob := (h.roster.linked.ids _ i hi).2.ne
  refine ⟨(Dict.get?_set_ne _ (Ne.symm hne) _).trans hi,
    (JobQueue.holds_created rfl).mpr ⟨hin, hh⟩, ?_⟩
  dsimp only
  rw [job_createdJob, if_neg hne]

theorem seen (h : Separated debt depth (q, c)) (ids : Finset ℕ) :
    Separated debt depth (q, { c with changedJobs := ids }) :=
  h.view (narrows_controller rfl rfl rfl rfl (fun _ => rfl) fun _ => rfl)
    (h.roster.tables rfl rfl rfl rfl) (h.tracked.seen ids) fun _ _ hr => hr

theorem createJob {ownerhost owner : Option String} {keepalive : Option (Option ℚ)}
    {machine : Option MachineName} {tags : Option Tags} {request : Request}
    (h : Separated debt depth t) :
    wp (Controller.createJob ownerhost owner keepalive machine tags request)
      (fun _ => Separated debt depth) (fun _ _ => True) t := by
  obtain ⟨q, c⟩ := t
  apply (separated_rules debt depth).createJob (fun _ _ he => he) (fun _ _ _ => trivial) h
  · exact fun _ _ _ _ _ => trivial
  · exact fun owner alive reads tags hnone => h.created hnone machine tags request
  · exact fun _ _ ids h => h.seen ids

theorem exit (depth : ℤ) (h : Separated debt (depth + 1) t) :
    wp (JobQueue.exit callbacks) (fun _ => Separated debt depth) (fun _ _ => True) t := by
  obtain ⟨q, c⟩ := t
  apply (separated_rules debt depth).exit (fun _ _ he => he) (fun _ _ _ => trivial)
  · exact fun q c h => h.view (narrows_cleared q c) (h.roster.queue_congr sameBooks_cleared rfl)
      (h.tracked.queue_congr rfl rfl rfl rfl) fun _ _ hr => hr
  · have hpost : q.postpone = depth + 1 := h.roster.postpone
    rw [hpost, Int.add_sub_cancel]
    exact h.view (narrows_postponed q c depth) (h.roster.postponed depth)
      (h.tracked.postponed depth) fun _ _ hr => hr

theorem uncounted (h : Separated (owing id) depth (q, c))
    (hmore : 1 < (c.job id).bmpRequestsUntilReady) :
    Separated settled depth (q, c.uncounted id) :=
  h.view ((sameView_uncounted q c id).narrows rfl rfl) (h.roster.uncounted id)
    (h.tracked.uncounted hmore) fun _ _ hr => hr

theorem readied (h : Separated (owing id) depth (q, c))
    (hlast : (c.job id).bmpRequestsUntilReady = 1) :
    Separated settled depth (q, (c.uncounted id).readied id) := by
  have hone : Narrows (q, c) (q, c.uncounted id) := (sameView_uncounted q c id).narrows rfl rfl
  have huncounted : Dedicated (lent (q, c.uncounted id)) (c.uncounted id) :=
    h.dedicated.view hone.toSameView fun _ _ hr => hr
  have htwo : Narrows (q, c.uncounted id) (q, (c.uncounted id).readied id) :=
    (sameView_readied q _ id).narrows rfl rfl
  exact ⟨h.roster.readied id,
    resident_rules.view _ _ (resident_rules.view _ _ h.resident hone) htwo,
    h.tracked.readied hlast, huncounted.view htwo.toSameView fun _ _ hr => hr⟩

theorem freed {a : ℕ} {x : Allocator} (h : Separated settled depth (q, c)) (hid : id ∉ c.jobs)
    (hidle : (c.job id).bmpRequestsUntilReady = 0) (hj : q.jobs.get? id = some j)
    (hh : q.Holds j m a) (hm : m ∈ q.machines.values)
    (hrun : (Allocator.free a).run (q.machine m).allocator = (.ok (), x)) :
    Separated settled depth ((q.dropped id).setAllocator m x, c) := by
  refine ⟨h.roster.freed hj hh hm hrun,
    resident_rules.freed depth q c id j m a x h.roster h.resident hid hj hh hm hrun,
    (h.tracked.dropped hid).queue_congr rfl rfl rfl rfl, ?_⟩
  refine h.dedicated.lend fun b name frame hc r hr board hl => ?_
  have hne : r.onDone ≠ id := h.tracked.toCounted.not_owed hidle hr
  exact lent_mono hl (fun m hm => hm) fun m i al _ hi hh =>
    ⟨(Dict.get?_erase_ne _ (Ne.symm hne)).trans hi, hh, rfl⟩

theorem complete {success : Bool} (h : Separated settled depth t) :
    wp (complete b success) (fun _ => Separated settled depth) (fun _ _ => True) t := by
  obtain ⟨q, c⟩ := t
  apply complete_wp
  · exact fun _ => h
  intro r rest hr
  have hfewer (b' : ℕ) : ∀ r' ∈ ((c.setBmp b (c.bmp b).popped).bmp b').requests,
      r' ∈ (c.bmp b').requests := by
    intro r' hr'
    change r' ∈ (Function.update c.bmp b (c.bmp b).popped b').requests at hr'
    by_cases heq : b' = b
    · subst heq
      rw [Function.update_self] at hr'
      exact List.mem_of_mem_tail hr'
    · rwa [Function.update_of_ne heq] at hr'
  have hview : Narrows (q, c) (q, c.setBmp b (c.bmp b).popped) :=
    narrows_controller rfl rfl rfl rfl (fun _ => rfl) fun _ => rfl
  have hpopped : Separated (owing r.onDone) depth (q, c.setBmp b (c.bmp b).popped) :=
    h.view hview (h.roster.tables rfl rfl rfl rfl) (h.tracked.popped hr) hfewer
  apply bmpOnRequestComplete_wp hpopped
  · exact fun _ reason t h => (separated_rules (owing r.onDone) depth).destroyJob h
  · exact fun _ _ _ _ => trivial
  · exact fun _ _ h hmore => h.uncounted hmore
  · intro q c h hlast
    have hready := h.readied hlast
    apply freeRetired_wp
    · exact fun _ => hready
    · intro hretired
      have hid := hready.roster.gone _ hretired
      have hidle := waits_readied hlast
      apply hready.roster.free_wp hid fun t ht => (separated_rules settled depth).processQueue ht
      · exact fun _ => hready
      · exact fun j m a x hj hh hm hrun => hready.freed hid hidle hj hh hm hrun
  · exact fun _ _ ids h => h.seen ids

end Separated

structure Leaving (machines : Machines) (L : Loans) (name : String) (m : ℕ)
    (t : JobQueue × Controller) : Prop where
  resident : Resident t
  removing : UpkeepRules.Removing machines Tolerated name m t
  dedicated : Dedicated L t.2
  less : ∀ name' id board, lent t name' id board → L name' id board
  others : ∀ name' id board, name' ≠ name → L name' id board → lent t name' id board

theorem leaving_sweep {L : Loans} (hL : L.Exclusive) (depth : ℤ) (name : String) (m : ℕ) :
    SweepRules depth m (Leaving machines L name m) fun _ _ => True where
  freed q c id j hr h hj hp hm := by
    by_cases hid : id ∈ c.jobs
    · apply (((resident_rules.sweep tolerated_local depth name m).freed q c id j hr
        ⟨h.resident, h.removing⟩ hj hp hm).and (onFree_sends.and onFree_placement)).mono _
          fun _ _ _ => trivial
      intro _ c' hc
      obtain ⟨⟨hresident, hremoving⟩, hsends, hplacement⟩ := hc
      refine ⟨hresident, hremoving,
        h.resident.sends hr h.dedicated hL h.less hid hsends hplacement, ?_, ?_⟩
      · exact fun name' id board hl => h.less name' id board
          (lent_congr hl (fun _ => rfl) rfl rfl fun k => (hplacement k).symm)
      · exact fun name' id board hne hl =>
          lent_congr (h.others name' id board hne hl) (fun _ => rfl) rfl rfl hplacement
    · apply onFree_wp
      · exact fun _ => trivial
      · exact fun hin => absurd hin hid
      · exact fun _ hin => absurd hin hid
  free q c id j a b hr h hid hj hh hm hrun := by
    obtain ⟨hresident, hremoving⟩ := (resident_rules.sweep tolerated_local depth name m).free q c
      id j a b hr ⟨h.resident, h.removing⟩ hid hj hh hm hrun
    refine ⟨hresident, hremoving, h.dedicated, fun name' k board hl => ?_,
      fun name' k board hne hl => ?_⟩
    · apply h.less
      exact lent_mono hl (fun _ hm => hm) fun _ _ _ _ hi hh => ⟨Dict.get?_of_erase hi, hh, rfl⟩
    · refine lent_mono (h.others name' k board hne hl) (fun _ hm => hm)
        fun m' i al hm' hi hh' => ⟨(Dict.get?_erase_ne _ fun heq => ?_).trans hi, hh', rfl⟩
      -- A job of the machine has nothing on another one.
      subst heq
      obtain rfl := Option.some.inj (hi.symm.trans hj)
      obtain rfl := Option.some.inj (hh'.1.symm.trans hh.1)
      exact hne ((hr.linked.names name' m' hm').1.symm.trans
        (hr.linked.names name m' h.removing.queued).1)

theorem Separated.remove (h : Separated debt 1 t) (hchangeable : Changeable machines Tolerated t)
    (hmajor : ∀ old new, t.2.machines.get? name = some old → machines.dict.get? name = some new →
      compare old new = .major) :
    wp (JobQueue.removeMachine callbacks name) (fun _ t' =>
      Dedicated (lent (t'.1, t'.2.unregistered name)) (t'.2.unregistered name))
      (fun _ _ => True) t := by
  obtain ⟨q, c⟩ := t
  have hL := lent_exclusive h.resident h.roster
  apply SweepRules.removeMachine (fun m => leaving_sweep hL (1 + 1) name m) h.roster Int.one_pos
  · intro m hm
    have hpostponed := narrows_postponed q c 2
    refine ⟨resident_rules.view _ _ h.resident hpostponed,
      ⟨hm, hmajor, hchangeable.view tolerated_local hpostponed.toSameView⟩, h.dedicated,
      fun _ _ _ hl => ?_, fun _ _ _ _ hl => ?_⟩
    · exact lent_congr hl (fun _ => rfl) rfl rfl fun _ => rfl
    · exact lent_congr hl (fun _ => rfl) rfl rfl fun _ => rfl
  · exact fun _ => trivial
  · intro m q' c' _ _ hK _ _ _
    refine hK.dedicated.unregistered fun name' id board hne hl => ?_
    exact lent_mono (hK.others name' id board hne hl)
      (fun m' hm' => (Dict.get?_erase_ne _ (Ne.symm hne)).trans hm')
      fun _ _ _ _ hj hh => ⟨hj, hh, rfl⟩
  · exact fun _ _ _ _ _ => trivial

theorem separated_assign : AssignRules machines
    (fun _ t => Separated debt 1 t ∧ Changeable machines Tolerated t) fun _ _ => True := by
  have hbase : AssignRules machines
      (fun _ t => (Roster 1 t ∧ Resident t ∧ Changeable machines Tolerated t) ∧
        Tracked False debt 1 t) fun _ _ => True :=
    ((resident_rules.assign tolerated_local fun _ _ _ => trivial).and assign_tracked).weaken
      fun _ _ _ => trivial
  have hparts (l : List ℕ) (t : JobQueue × Controller)
      (h : Separated debt 1 t ∧ Changeable machines Tolerated t) :
      (Roster 1 t ∧ Resident t ∧ Changeable machines Tolerated t) ∧ Tracked False debt 1 t :=
    ⟨⟨h.1.roster, h.1.resident, h.2⟩, h.1.tracked⟩
  have hwhole (t : JobQueue × Controller) (hd : Dedicated (lent t) t.2)
      (h : (Roster 1 t ∧ Resident t ∧ Changeable machines Tolerated t) ∧
        Tracked False debt 1 t) : Separated debt 1 t ∧ Changeable machines Tolerated t :=
    ⟨⟨h.1.1, h.1.2.1, h.2, hd⟩, h.1.2.2⟩
  constructor
  case postponed => exact fun l t h => hbase.postponed l t (hparts l t h)
  case remove =>
    intro l name t h hmajor
    apply ((hbase.remove l name t (hparts l t h) hmajor).and (h.1.remove h.2 hmajor)).mono _
      fun _ _ _ => trivial
    intro _ t' hpost
    exact ⟨hpost.1.1, hpost.1.2.1, fun controllers hc =>
      hwhole _ hpost.2 (hpost.1.2.2 controllers hc)⟩
  case stop =>
    intro l t h
    have hsame : SameView t (t.1, t.2.stopped l) :=
      sameView_controller rfl rfl rfl rfl (fun _ => rfl) fun _ => rfl
    apply hwhole _ _ (hbase.stop l t (hparts l t h))
    exact h.1.dedicated.view hsame fun b r hr => by rwa [requests_stopped] at hr
  case change =>
    intro name old new q c h hold hnew hminor
    obtain ⟨hnone, hsome⟩ := hbase.change name old new q c (hparts [] _ h) hold hnew hminor
    refine ⟨hnone, fun m hm => hwhole _ ?_ (hsome m hm)⟩
    exact (h.1.dedicated.changed hold (alike_of_minor hminor)).lend fun _ _ _ _ _ _ _ hl =>
      lent_congr hl (fun _ => rfl) rfl rfl fun _ => rfl
  case add =>
    intro name new q c h hnone hnew
    obtain ⟨hused, hadded⟩ := hbase.add name new q c (hparts [] _ h) hnone hnew
    refine ⟨hused, fun hqnone => hwhole _ ?_ (hadded hqnone)⟩
    obtain ⟨-, -, -, hjob⟩ := registered_jobs c name new
    have hregistered : Dedicated (lent (q, c)) (c.registered name new) :=
      h.1.dedicated.registered h.1.tracked.toCounted (machines.named name new hnew)
    refine hregistered.lend fun b name' frame _ r _ board hl => ?_
    refine lent_mono hl (fun m hm => ?_) fun m i al _ hi hh => ⟨hi, hh, by rw [hjob]⟩
    have hne : name ≠ name' := by
      intro heq
      dsimp only at hm
      rw [← heq, hqnone] at hm
      cases hm
    exact (Dict.get?_set_ne _ hne _).trans hm
  case move =>
    intro name q c h
    obtain ⟨hnone, hqnone, hmoved⟩ := hbase.move name q c (hparts [] _ h)
    refine ⟨hnone, hqnone, hwhole _ ?_ hmoved⟩
    have hboth : Narrows (q, c) ({ q with machines := q.machines.moveToEnd name },
        { c with machines := c.machines.moveToEnd name }) :=
      narrows_moved (fun _ => Dict.get?_moveToEnd ..) fun _ => Dict.get?_moveToEnd ..
    exact h.1.dedicated.view hboth.toSameView fun _ _ hr => hr

namespace Separated

theorem setMachines (h : Separated settled 0 t) (hchangeable : Changeable machines Tolerated t) :
    wp (Controller.setMachines machines) (fun _ => Separated settled 0) (fun _ _ => True) t := by
  obtain ⟨q, c⟩ := t
  apply separated_assign.setMachines
  · have hpost : q.postpone = 0 := h.roster.postpone
    dsimp only
    rw [hpost]
    have hpostponed := narrows_postponed q c 1
    exact ⟨h.view hpostponed (h.roster.postponed 1) (h.tracked.postponed 1) fun _ _ hr => hr,
      hchangeable.view tolerated_local hpostponed.toSameView⟩
  · exact fun t ht => ht.1.exit 0
  · exact fun _ _ _ => wp_trivial _
  · exact fun q c names h => h.view
      (narrows_controller rfl rfl rfl rfl (fun _ => rfl) fun _ => rfl)
      (h.roster.tables rfl rfl rfl rfl) (h.tracked.tables
        (h.tracked.toCounted.congr rfl (fun _ => rfl) rfl fun _ => rfl) rfl rfl rfl rfl)
      fun _ _ hr => hr

theorem stopped (h : Separated settled 0 (q, c)) (bmps : List ℕ) :
    Separated settled 0 (q, c.stopped bmps) := by
  have hview : Narrows (q, c) (q, c.stopped bmps) :=
    narrows_controller rfl rfl rfl rfl (fun _ => rfl) fun _ => rfl
  have hcounted : Counted settled (c.stopped bmps) :=
    h.tracked.toCounted.congr rfl (requests_stopped bmps) rfl fun _ => rfl
  exact h.view hview (h.roster.tables rfl rfl rfl rfl) (h.tracked.tables hcounted rfl rfl rfl rfl)
    fun b r hr => by rwa [requests_stopped] at hr

theorem setMaxRetiredJobs {value : ℕ} (h : Separated settled 0 t) :
    wp (own (Controller.setMaxRetiredJobs value)) (fun _ => Separated settled 0)
      (fun _ _ => True) t := by
  obtain ⟨q, c⟩ := t
  have htracked : wp (own (Controller.setMaxRetiredJobs value))
      (fun _ => Tracked False settled 0) (fun _ _ => True) (q, c) :=
    setMaxRetiredJobs_tracked h.tracked
  have hroster := setMaxRetiredJobs_roster value h.roster
  simp only [wp_own, setMaxRetiredJobs_nat, wp_update] at htracked hroster ⊢
  exact h.view (narrows_controller rfl rfl rfl rfl (fun _ => rfl) fun _ => rfl) hroster htracked
    fun _ _ hr => hr

theorem exec {op : Operation} (h : Separated settled 0 t) (halters : op.Alters Tolerated t) :
    wp (Controller.exec op) (fun _ => Separated settled 0) (fun _ _ => True) t := by
  have hrules := separated_rules settled 0
  cases op with
  | createJob ownerhost owner keepalive machine tags request =>
    simp only [Controller.exec, wp_bind]
    exact h.createJob.mono (fun _ _ ht => ht) fun _ _ he => he
  | jobKeepalive clienthost id => exact hrules.jobKeepalive h
  | powerOnJobBoards clienthost id => exact hrules.setJobBoards h
  | powerOffJobBoards clienthost id => exact hrules.setJobBoards h
  | destroyJob id reason => exact hrules.destroyJob h
  | destroyTimedOutJobs => exact hrules.destroyTimedOutJobs h
  | checkFree => exact hrules.checkFree h
  | setMaxRetiredJobs value => exact h.setMaxRetiredJobs
  | setMachines machines => exact h.setMachines halters
  | stop => exact stop_wp (q := t.1) (c := t.2) h.stopped fun _ _ => trivial
  | complete b success => exact h.complete

end Separated

theorem start_separated (s : Setup) : Separated settled 0 s.start := by
  refine ⟨start_roster s, start_resident s, start_tracked s, ?_⟩
  have hcontrols (b : ℕ) (name : String) (frame : ℤ × ℤ) : ¬s.start.2.Controls b name frame := by
    intro hc
    obtain ⟨controllers, hget, -⟩ := hc
    cases hget
  refine ⟨fun b name frame _ _ hc => absurd hc (hcontrols b name frame),
    fun b name frame _ hc => absurd hc (hcontrols b name frame), fun b r hr => ?_⟩
  exact absurd hr List.not_mem_nil

/-- What is dead stays as it is. -/
def Undamaged (new : Configuration.Machine) (t : JobQueue × Controller) : Prop :=
  ∀ old, t.2.machines.get? new.name = some old →
    new.deadBoards = old.deadBoards ∧ new.deadLinks = old.deadLinks

theorem Undamaged.tolerated {new : Configuration.Machine} (h : Undamaged new t)
    (hresident : Resident t) : Tolerated new t := by
  intro m hm
  obtain ⟨old, hold⟩ :=
    Option.isSome_iff_exists.mp ((hresident.toHosting.queued new.name).mp (hm ▸ rfl))
  obtain ⟨hboards, hlinks⟩ := h old hold
  have hdescribed := hresident.described new.name old m hold hm
  rw [hboards, hlinks, ← hdescribed.deadBoards, ← hdescribed.deadLinks]
  exact (hresident.leased new.name old m hold hm).resilient

/-- In any run of operations that return, in which no dead boards or links of machines that stay
are changed, the requests of a BMP controller for a board are of one job. -/
theorem requests_separate {s : Setup} (h : ((system s).restrict fun t op =>
      Returns t op ∧ op.Alters Undamaged t).Reachable t) (b : ℕ) (n : ℤ) (r r' : AtomicRequests)
    (hr : r ∈ (t.2.bmp b).requests) (hr' : r' ∈ (t.2.bmp b).requests) (hn : n ∈ r.boards)
    (hn' : n ∈ r'.boards) : r.onDone = r'.onDone := by
  have hseparated : Separated settled 0 t := by
    apply h.invariant
    · intro t ht
      rw [ht]
      exact start_separated s
    · intro t op t' _ ht hstep
      obtain ⟨⟨hreturns, halters⟩, hstep⟩ := hstep
      obtain ⟨t'', hrun⟩ := run_of_isOk hreturns
      have htolerated : op.Alters Tolerated t :=
        halters.mono (.of_all fun _ => trivial) fun _ _ hp => hp.tolerated ht.resident
      have hexec := wp_of_eq_ok (ht.exec htolerated) hrun
      rw [hstep, hrun]
      exact hexec
  exact hseparated.dedicated.sharp b r hr r' hr' n hn hn'

def poweringOff : List Operation := poweringOn ++ [.destroyJob 1 none]

theorem requests_separate_poweringOff :
    ∃ r r', ((runs Setup.quiet.start poweringOff).2.bmp 0).requests = [r, r'] ∧ 0 ∈ r.boards ∧
      0 ∈ r'.boards ∧ r.onDone = r'.onDone := by
  have h : ((system Setup.quiet).restrict fun t op =>
      Returns t op ∧ op.Alters Undamaged t).Reachable (runs Setup.quiet.start poweringOff) := by
    apply reachable_runs (.start rfl)
    refine ⟨⟨by decide +kernel, fun _ _ _ hold => ?_⟩, ⟨by decide +kernel, trivial⟩,
      ⟨by decide +kernel, trivial⟩, trivial⟩
    cases hold
  have htwo : ((runs Setup.quiet.start poweringOff).2.bmp 0).requests.length = 2 := by
    decide +kernel
  have hboards : ∀ r ∈ ((runs Setup.quiet.start poweringOff).2.bmp 0).requests, 0 ∈ r.boards := by
    decide +kernel
  obtain ⟨r, r', hlist⟩ := List.length_eq_two.mp htwo
  have hr : r ∈ ((runs Setup.quiet.start poweringOff).2.bmp 0).requests := by
    rw [hlist]
    exact List.mem_cons_self
  have hr' : r' ∈ ((runs Setup.quiet.start poweringOff).2.bmp 0).requests := by
    rw [hlist]
    exact List.mem_cons_of_mem r List.mem_cons_self
  exact ⟨r, r', hlist, hboards r hr, hboards r' hr',
    requests_separate h 0 0 r r' hr hr' (hboards r hr) (hboards r' hr')⟩

end SpallocServer.Controller
