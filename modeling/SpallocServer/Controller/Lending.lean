import SpallocServer.Foundation.Lending
import SpallocServer.Controller.Separation

namespace SpallocServer.Controller

open Foundation Prog JobQueue Allocator

variable {q q' : JobQueue} {c c' : Controller} {t t' t₀ : JobQueue × Controller} {id id' j m : ℕ}
  {depth : ℤ} {name : String} {board : Board} {machine : Configuration.Machine}

def lot (t : JobQueue × Controller) (id : ℕ) : Set (String × Board) := {b | lent t b.1 id b.2}

/-- The job queue knows the job, and it is not queued. -/
def allocated (q : JobQueue) (id : ℕ) : Bool := (q.jobs.get? id).any fun j => !(q.job j).pending

/-- How the job stands with the controller. A job that is not live any more keeps its boards until
they are powered off. -/
def tenure (t : JobQueue × Controller) (id : ℕ) : Tenure (String × Board) :=
  if t.2.nextId ≤ id then .absent
  else if id ∈ t.2.jobs then if allocated t.1 id then .holding (lot t id) else .waiting
  else if allocated t.1 id then .returning (lot t id)
  else .done

def Lends (t t' : JobQueue × Controller) : Prop :=
  (desk (String × Board) ℕ).Path (tenure t) (tenure t')

theorem tenure_absent (h : t.2.nextId ≤ id) : tenure t id = .absent := if_pos h

theorem tenure_live (h : id < t.2.nextId) (hid : id ∈ t.2.jobs) :
    tenure t id = if allocated t.1 id then .holding (lot t id) else .waiting := by
  rw [tenure, if_neg (Nat.not_le.mpr h), if_pos hid]

theorem tenure_gone (h : id < t.2.nextId) (hid : id ∉ t.2.jobs) :
    tenure t id = if allocated t.1 id then .returning (lot t id) else .done := by
  rw [tenure, if_neg (Nat.not_le.mpr h), if_neg hid]

theorem allocated_unknown (hj : q.jobs.get? id = none) : allocated q id = false := by
  rw [allocated, hj]
  rfl

theorem allocated_known (hj : q.jobs.get? id = some j) : allocated q id = !(q.job j).pending := by
  rw [allocated, hj]
  rfl

theorem allocated_holds {al : ℕ} (h : q.Linked) (hj : q.jobs.get? id = some j)
    (hh : q.Holds j m al) : allocated q id = true := by
  cases hp : (q.job j).pending with
  | true =>
    have hnone := hh.1
    rw [(h.unplaced j hp).1] at hnone
    cases hnone
  | false =>
    rw [allocated_known hj, hp]
    rfl

theorem allocated_pending (h : q.Linked) (hp : (q.job j).pending = true) :
    allocated q (q.job j).id = false := by
  rw [allocated_known (h.known j hp), hp]
  rfl

theorem tenure_pending (h : Roster depth (q, c)) (hp : (q.job j).pending = true) :
    tenure (q, c) (q.job j).id = .waiting := by
  have hid := (h.pending j hp).1
  rw [tenure_live (t := (q, c)) (h.lt hid) hid, allocated_pending h.linked hp,
    if_neg Bool.false_ne_true]

theorem lot_of_tenure : (tenure t id).lot ⊆ lot t id := by
  unfold tenure
  split
  · exact Set.empty_subset _
  split
  · split
    · exact subset_rfl
    · exact Set.empty_subset _
  · split
    · exact subset_rfl
    · exact Set.empty_subset _

theorem lot_disjoint (h : Resident t) (hr : Roster depth t) (hne : id ≠ id') :
    Disjoint (lot t id) (lot t id') :=
  Set.disjoint_left.mpr fun b hb hb' => hne (lent_exclusive h hr b.1 id id' b.2 hb hb')

theorem lot_nonempty (h : Resident t) (hr : Roster depth t) (hid : id ∈ t.2.jobs)
    (hj : t.1.jobs.get? id = some j) (hp : (t.1.job j).pending = false) :
    (lot t id).Nonempty := by
  obtain ⟨machine, hmachine⟩ := Option.ne_none_iff_exists'.mp (h.told id hid j hj hp)
  obtain ⟨m, current, boards, periphery, hm, hcurrent, -, hhoused⟩ := h.housed hr hid hmachine
  obtain ⟨⟨b, hb⟩, -⟩ := h.toTenants.given hcurrent hm hhoused
  exact ⟨(machine.name, b), m, boards, periphery, hm, hhoused, hb⟩

structure SameStanding (id : ℕ) (t t' : JobQueue × Controller) : Prop where
  absent : t'.2.nextId ≤ id ↔ t.2.nextId ≤ id
  known : t'.1.jobs.get? id = t.1.jobs.get? id
  live : id ∈ t'.2.jobs ↔ id ∈ t.2.jobs
  job : ∀ j, t.1.jobs.get? id = some j → t'.1.job j = t.1.job j
  machine : ∀ j m name, t.1.jobs.get? id = some j → (t.1.job j).machine = some m →
    (t'.1.machines.get? name = some m ↔ t.1.machines.get? name = some m)
  placement : ∀ j, t.1.jobs.get? id = some j → (t'.2.job id).placement = (t.2.job id).placement

namespace SameStanding

theorem lent (h : SameStanding id t t') : lent t' name id board ↔ lent t name id board := by
  constructor
  · rintro ⟨m, boards, periphery, hm, hhoused, hboard⟩
    obtain ⟨j, al, hj, hh⟩ := hhoused.held
    rw [h.known] at hj
    have hh' : t.1.Holds j m al := (holds_congr (h.job j hj)).mp hh
    have hp := h.placement j hj
    exact ⟨m, boards, periphery, (h.machine j m name hj hh'.1).mp hm, ⟨⟨j, al, hj, hh'⟩,
      (boards_of_placement hp).symm.trans hhoused.boards,
      (periphery_of_placement hp).symm.trans hhoused.periphery⟩, hboard⟩
  · rintro ⟨m, boards, periphery, hm, hhoused, hboard⟩
    obtain ⟨j, al, hj, hh⟩ := hhoused.held
    have hp := h.placement j hj
    exact ⟨m, boards, periphery, (h.machine j m name hj hh.1).mpr hm,
      ⟨⟨j, al, h.known.trans hj, (holds_congr (h.job j hj)).mpr hh⟩,
      (boards_of_placement hp).trans hhoused.boards,
      (periphery_of_placement hp).trans hhoused.periphery⟩, hboard⟩

theorem lot (h : SameStanding id t t') : lot t' id = lot t id :=
  Set.ext fun _ => h.lent

theorem allocated (h : SameStanding id t t') : allocated t'.1 id = allocated t.1 id := by
  cases hj : t.1.jobs.get? id with
  | none => rw [allocated_unknown hj, allocated_unknown (h.known.trans hj)]
  | some j => rw [allocated_known hj, allocated_known (h.known.trans hj), h.job j hj]

theorem tenure (h : SameStanding id t t') : tenure t' id = tenure t id := by
  unfold Controller.tenure
  simp only [h.absent, h.live, h.allocated, h.lot]

end SameStanding

theorem SameView.standing (h : SameView t t') (id : ℕ) : SameStanding id t t' where
  absent := by rw [h.nextId]
  known := by rw [h.queuedJobs]
  live := by rw [h.jobs]
  job _ _ := by rw [h.queuedJob]
  machine _ _ name _ _ := by rw [h.queued]
  placement _ _ := h.placement id

theorem standing_tables (hjobs : q'.jobs = q.jobs) (hjob : q'.job = q.job)
    (hm : q'.machines = q.machines) (hn : c'.nextId = c.nextId) (hlive : c'.jobs = c.jobs)
    (hrecords : c'.job = c.job) (id : ℕ) : SameStanding id (q, c) (q', c') where
  absent := by rw [hn]
  known := by rw [hjobs]
  live := by rw [hlive]
  job _ _ := by rw [hjob]
  machine _ _ _ _ _ := by rw [hm]
  placement _ _ := by rw [hrecords]

namespace Lends

theorem same (h : Lends t₀ t) (hs : ∀ id, SameStanding id t t') : Lends t₀ t' := by
  have heq : tenure t' = tenure t := funext fun id => (hs id).tenure
  unfold Lends
  rw [heq]
  exact h

theorem act {a : Act (String × Board) ℕ} (h : Lends t₀ t)
    (hs : ∀ id, id ≠ a.client → SameStanding id t t')
    (hturns : a.turns (tenure t a.client) (tenure t' a.client))
    (hfree : ∀ id lot, a = .grant id lot → ∀ k, Disjoint (tenure t k).lot lot) : Lends t₀ t' := by
  refine h.step (i := a) ⟨_, hturns, ?_, hfree⟩
  funext id
  by_cases hid : id = a.client
  · rw [hid, Function.update_self]
  · rw [Function.update_of_ne hid]
    exact (hs id hid).tenure

end Lends

namespace Lends

variable {a : Allocator} {reason : Option String}

theorem placed {al : ℕ} (h : Lends t₀ (q, c)) (hr : Roster depth (q, c))
    (hp : (q.job j).pending = true) (ht : Touches (q.job j).id c c')
    (hr' : Roster depth ((q.setAllocator m a).placed j m al, c'))
    (hresident : Resident ((q.setAllocator m a).placed j m al, c')) :
    Lends t₀ ((q.setAllocator m a).placed j m al, c') := by
  have hid : (q.job j).id ∈ c.jobs := (hr.pending j hp).1
  have hknown : q.jobs.get? (q.job j).id = some j := hr.linked.known j hp
  have hlive : (q.job j).id ∈ c'.jobs := by
    rw [ht.jobs]
    exact hid
  have hjob (i : ℕ) : ((q.setAllocator m a).placed j m al).job i = if i = j then
      { q.job i with pending := false, machine := some m, allocationId := some al }
      else q.job i := job_placed _ i j m al
  have hother (id : ℕ) (hne : id ≠ (q.job j).id) :
      SameStanding id (q, c) ((q.setAllocator m a).placed j m al, c') := by
    refine ⟨by rw [ht.nextId], rfl, by rw [ht.jobs], fun i hi => ?_, fun _ _ _ _ _ => Iff.rfl,
      fun _ _ => by rw [ht.job id hne]⟩
    dsimp only
    rw [hjob, if_neg]
    rintro rfl
    exact hne (hr.linked.ids id i hi).1.symm
  have hplaced : (((q.setAllocator m a).placed j m al).job j).pending = false := by
    rw [hjob, if_pos rfl]
  have hallocated : allocated ((q.setAllocator m a).placed j m al) (q.job j).id = true := by
    rw [allocated_known (q := (q.setAllocator m a).placed j m al) hknown, hplaced]
    rfl
  have htenure : tenure ((q.setAllocator m a).placed j m al, c') (q.job j).id =
      .holding (lot ((q.setAllocator m a).placed j m al, c') (q.job j).id) := by
    rw [tenure_live (t := ((q.setAllocator m a).placed j m al, c')) (hr'.lt hlive) hlive,
      if_pos hallocated]
  have hwaiting := tenure_pending hr hp
  apply h.act (a := .grant (q.job j).id
    (lot ((q.setAllocator m a).placed j m al, c') (q.job j).id)) hother
  · exact ⟨hwaiting, lot_nonempty hresident hr' hlive hknown hplaced, htenure⟩
  · intro k l hk id
    obtain ⟨rfl, rfl⟩ := Act.grant.inj hk
    by_cases hne : id = (q.job j).id
    · rw [hne, hwaiting]
      exact Set.empty_disjoint _
    · rw [← (hother id hne).tenure]
      exact (lot_disjoint hresident hr' hne).mono_left lot_of_tenure

theorem cancelled (h : Lends t₀ (q, c)) (hr : Roster depth (q, c))
    (hp : (q.job j).pending = true) :
    Lends t₀ ((q.withdrawn j).dropped (q.job j).id, c.retired (q.job j).id reason) := by
  have hid := hr.lt (hr.pending j hp).1
  apply h.act (a := .withdraw (q.job j).id)
  · intro id hne
    refine ⟨Iff.rfl, Dict.get?_erase_ne _ (Ne.symm hne), ⟨fun hin => (mem_retired.mp hin).1,
      fun hin => mem_retired.mpr ⟨hin, hne⟩⟩, fun i hi => ?_, fun _ _ _ _ _ => Iff.rfl,
      fun _ _ => rfl⟩
    change (q.withdrawn j).job i = q.job i
    rw [job_withdrawn, if_neg]
    rintro rfl
    exact hne (hr.linked.ids id i hi).1.symm
  · refine ⟨tenure_pending hr hp, ?_⟩
    have hgone : (q.job j).id ∉ (c.retired (q.job j).id reason).jobs :=
      fun hin => (mem_retired.mp hin).2 rfl
    have hunknown : allocated ((q.withdrawn j).dropped (q.job j).id) (q.job j).id = false :=
      allocated_unknown (Dict.get?_erase_self _ _)
    rw [Act.client, tenure_gone hid hgone, hunknown, if_neg Bool.false_ne_true]
  · exact fun _ _ hne => nomatch hne

theorem retired (h : Lends t₀ (q, c)) (hr : Roster depth (q, c)) (hid : id ∈ c.jobs) :
    Lends t₀ (q, c.retired id reason) := by
  have hlt := hr.lt hid
  have hgone : id ∉ (c.retired id reason).jobs := fun hin => (mem_retired.mp hin).2 rfl
  have hlot : lot (q, c.retired id reason) id = lot (q, c) id :=
    Set.ext fun b => ⟨fun hl => lent_congr hl (fun _ => rfl) rfl rfl fun _ => rfl,
      fun hl => lent_congr hl (fun _ => rfl) rfl rfl fun _ => rfl⟩
  have hother (k : ℕ) (hne : k ≠ id) : SameStanding k (q, c) (q, c.retired id reason) :=
    ⟨Iff.rfl, rfl, ⟨fun hin => (mem_retired.mp hin).1, fun hin => mem_retired.mpr ⟨hin, hne⟩⟩,
      fun _ _ => rfl, fun _ _ _ _ _ => Iff.rfl, fun _ _ => rfl⟩
  have hbefore := tenure_live (t := (q, c)) hlt hid
  have hafter := tenure_gone (t := (q, c.retired id reason)) hlt hgone
  rw [hlot] at hafter
  dsimp only at hbefore hafter
  cases hallocated : allocated q id with
  | true =>
    rw [if_pos hallocated] at hbefore hafter
    exact h.act (a := .retire id) hother ⟨_, hbefore, hafter⟩ fun _ _ hne => nomatch hne
  | false =>
    rw [hallocated, if_neg Bool.false_ne_true] at hbefore hafter
    exact h.act (a := .withdraw id) hother ⟨hbefore, hafter⟩ fun _ _ hne => nomatch hne

theorem freed {al : ℕ} (h : Lends t₀ (q, c)) (hr : Roster depth (q, c))
    (hnumbered : id < c.nextId) (hid : id ∉ c.jobs) (hj : q.jobs.get? id = some j)
    (hh : q.Holds j m al) : Lends t₀ ((q.dropped id).setAllocator m a, c) := by
  have hallocated : allocated q id = true := allocated_holds hr.linked hj hh
  have hunknown : allocated ((q.dropped id).setAllocator m a) id = false :=
    allocated_unknown (Dict.get?_erase_self _ _)
  have hbefore : tenure (q, c) id = .returning (lot (q, c) id) := by
    rw [tenure_gone (t := (q, c)) hnumbered hid, if_pos hallocated]
  apply h.act (a := .release id)
  · exact fun k hne => ⟨Iff.rfl, Dict.get?_erase_ne _ (Ne.symm hne), Iff.rfl, fun _ _ => rfl,
      fun _ _ _ _ _ => Iff.rfl, fun _ _ => rfl⟩
  · refine ⟨_, hbefore, ?_⟩
    rw [Act.client, tenure_gone hnumbered hid, hunknown, if_neg Bool.false_ne_true]
  · exact fun _ _ hne => nomatch hne

section New

variable {owner : String} {alive : Option Keepalive} {host : Option String} {reads : ℕ}

theorem standing_enlisted (hne : id ≠ c.nextId) :
    SameStanding id (q, c) (q, Controller.createdJob { c with nextId := c.nextId + 1, reads := reads }
      c.nextId owner alive host) := by
  refine ⟨?_, rfl, ?_, fun _ _ => rfl, fun _ _ _ _ _ => Iff.rfl, fun _ _ => ?_⟩
  · change c.nextId + 1 ≤ id ↔ c.nextId ≤ id
    omega
  · change id ∈ c.jobs ++ [c.nextId] ↔ id ∈ c.jobs
    rw [List.mem_append, List.mem_singleton, or_iff_left hne]
  · dsimp only
    rw [job_createdJob, if_neg hne]

theorem enlisted (h : Lends t₀ (q, c)) (hnone : q.jobs.get? c.nextId = none) :
    Lends t₀ (q, Controller.createdJob { c with nextId := c.nextId + 1, reads := reads } c.nextId
      owner alive host) := by
  have hlive : c.nextId ∈ c.jobs ++ [c.nextId] :=
    List.mem_append_right _ (List.mem_singleton_self _)
  apply h.act (a := .submit c.nextId)
  · exact fun id hne => standing_enlisted hne
  · refine ⟨tenure_absent le_rfl, ?_⟩
    rw [Act.client, tenure_live (Nat.lt_succ_self c.nextId) hlive, allocated_unknown hnone,
      if_neg Bool.false_ne_true]
  · exact fun _ _ hne => nomatch hne

theorem created {machine : Option MachineName} {tags : Finset String} {request : Request}
    (h : Lends t₀ (q, c)) (hr : Roster depth (q, c)) :
    Lends t₀ (q.created ⟨c.nextId, true, machine, tags, request, none, none⟩,
      Controller.createdJob { c with nextId := c.nextId + 1, reads := reads } c.nextId owner alive
        host) := by
  have hjob (i : ℕ) : (q.created ⟨c.nextId, true, machine, tags, request, none, none⟩).job i =
      if i = q.nextJob then ⟨c.nextId, true, machine, tags, request, none, none⟩ else q.job i :=
    JobQueue.job_setJob i q.nextJob _
  apply h.act (a := .submit c.nextId)
  · intro id hne
    have hsame : SameStanding id (q, c) (q, Controller.createdJob
        { c with nextId := c.nextId + 1, reads := reads } c.nextId owner alive host) :=
      standing_enlisted hne
    refine ⟨hsame.absent, Dict.get?_set_ne _ (Ne.symm hne) _, hsame.live, fun i hi => ?_,
      fun _ _ _ _ _ => Iff.rfl, hsame.placement⟩
    dsimp only
    rw [hjob, if_neg (hr.linked.ids id i hi).2.ne]
  · refine ⟨tenure_absent le_rfl, ?_⟩
    have hlive : c.nextId ∈ c.jobs ++ [c.nextId] :=
      List.mem_append_right _ (List.mem_singleton_self _)
    have hqueued : allocated (q.created ⟨c.nextId, true, machine, tags, request, none, none⟩)
        c.nextId = false := by
      rw [allocated_known (Dict.get?_set_self _ _ _), hjob, if_pos rfl]
      rfl
    rw [Act.client, tenure_live (Nat.lt_succ_self c.nextId) hlive, hqueued,
      if_neg Bool.false_ne_true]
  · exact fun _ _ hne => nomatch hne

end New

end Lends

theorem lending_rules (t₀ : JobQueue × Controller) : UpkeepRules True (fun _ => True) Tolerated
    (fun t => Resident t ∧ Lends t₀ t) (Lends t₀) where
  agreed _ h := h.1.toAgreed
  numbered q c h := resident_rules.numbered q c h.1
  view _ _ h hv := h.2.same hv.toSameView.standing
  alloc depth q c m j hr h hm hq hp := by
    apply ((resident_rules.alloc depth q c m j hr h.1 hm hq hp).and (alloc_registers _ _)).mono
    · intro res a ⟨hresident, hregisters⟩
      cases res with
      | none => exact h.2.same (standing_tables rfl rfl rfl rfl rfl rfl)
      | some al =>
        have hplaced (c' : Controller) (ht : Touches (q.job j).id c c')
            (hresident : Resident ((q.setAllocator m a).placed j m al.id, c')) :
            Lends t₀ ((q.setAllocator m a).placed j m al.id, c') :=
          h.2.placed hr hp ht (hr.placed hp hm hregisters ht) hresident
        exact (hresident.and onAllocate_touches).mono (fun _ c' hc => hplaced c' hc.2 hc.1)
          fun _ c' hc => hplaced c' hc.2 hc.1
    · exact fun _ a _ => h.2.same (standing_tables rfl rfl rfl rfl rfl rfl)
  offer _ q c j m _ h _ _ _ := h.2.same (sameView_setQueue q c m _).standing
  checked depth q c m _ h _ := by
    have hsame (a : Allocator) : Lends t₀ (q.setAllocator m a, c) :=
      h.2.same (standing_tables rfl rfl rfl rfl rfl rfl)
    exact (wp_trivial _).mono (fun _ a _ => hsame a) fun _ a _ => hsame a
  cancelled _ _ _ _ _ hr h hp := h.2.cancelled hr hp
  retired _ _ _ _ _ hr h hid := h.2.retired hr hid
  freed _ q c id j m a b hr h hid hj hh _ _ :=
    h.2.freed hr (h.1.numbered id (Option.isSome_iff_exists.mpr ⟨j, hj⟩)) hid hj hh
  enlisted _ q c _ _ _ _ _ _ h := h.2.enlisted (resident_rules.numbered q c h.1)
  created _ _ _ _ _ _ _ _ _ _ hr h _ := h.2.created hr
  removed q c name m h hm hempty _ := by
    refine h.2.same fun id => ⟨Iff.rfl, rfl, Iff.rfl, fun _ _ => rfl, fun j m' name' hj hm' => ?_,
      fun _ _ => rfl⟩
    change (q.machines.erase name).get? name' = some m' ↔ _
    rw [Dict.get?_erase]
    split
    · next heq =>
      subst heq
      refine ⟨nofun, fun hget => ?_⟩
      obtain rfl := Option.some.inj (hm.symm.trans hget)
      exact absurd hm' (hempty j (Dict.mem_values.mpr ⟨id, hj⟩))
    · exact Iff.rfl
  changed q c name old new m _ h _ _ _ _ _ _ :=
    h.2.same (standing_tables rfl rfl rfl rfl rfl rfl)
  added q c name new hr h hnone _ _ := by
    obtain ⟨hn, hlive, -, hjob⟩ := registered_jobs c name new
    have hunqueued : q.machines.get? name = none := by
      have hqueued := h.1.toHosting.queued name
      dsimp only at hqueued
      rw [hnone] at hqueued
      exact Option.not_isSome_iff_eq_none.mp fun hs => nomatch hqueued.mp hs
    refine h.2.same fun id => ⟨by rw [hn], rfl, by rw [hlive], fun _ _ => rfl,
      fun j m name' hj hm => ?_, fun _ _ => by rw [hjob]⟩
    change (q.machines.set name q.nextMachine).get? name' = some m ↔ _
    rw [Dict.get?_set]
    split
    · next heq =>
      subst heq
      dsimp only
      rw [hunqueued]
      refine ⟨fun hget => ?_, nofun⟩
      obtain rfl := Option.some.inj hget
      obtain ⟨al, hh⟩ := holds_of_machine hr.linked hj hm
      exact absurd hh (not_holds_next hr.linked hj)
    · exact Iff.rfl

theorem lending_kept (t₀ : JobQueue × Controller) : UpkeepRules True (fun _ => True) Tolerated
    (fun t => Resident t ∧ Lends t₀ t) fun t => Resident t ∧ Lends t₀ t :=
  (resident_rules.mono (fun hlost => hlost) (fun _ h => h) (fun _ _ _ _ h => h) (fun _ h => h.1)
    fun _ h => h).and (lending_rules t₀)

theorem lends_runs {ops : List Operation} (hr : Roster 0 t) (h : Resident t ∧ Lends t₀ t)
    (hops : System.Along next (fun t op => op.Alters Tolerated t) t ops) :
    Roster 0 (runs t ops) ∧ Resident (runs t ops) ∧ Lends t₀ (runs t ops) := by
  induction ops generalizing t with
  | nil => exact ⟨hr, h⟩
  | cons op ops ih =>
    obtain ⟨hop, hops⟩ := hops
    have hnext : Roster 0 (next t op) ∧ Resident (next t op) ∧ Lends t₀ (next t op) :=
      wp_same ((lending_kept t₀).exec tolerated_local (fun _ => trivial) (.of_all fun _ => trivial)
        hop ⟨hr, h⟩)
    exact ih hnext.1 hnext.2 hops

theorem start_tenure (s : Setup) (id : ℕ) :
    tenure s.start id = .absent ∨ tenure s.start id = .done := by
  by_cases hid : s.nextId ≤ id
  · exact .inl (tenure_absent hid)
  · exact .inr (tenure_gone (t := s.start) (Nat.not_le.mp hid) List.not_mem_nil)

theorem reachable_lends {s : Setup}
    (h : ((system s).restrict fun t op => op.Alters Tolerated t).Reachable t) :
    Roster 0 t ∧ Resident t ∧ Lends s.start t := by
  apply (lending_kept s.start).reachable tolerated_local ⟨start_resident s, .refl⟩
  exact h.mono fun _ _ hop => ⟨fun _ => trivial, .of_all fun _ => trivial, hop⟩

/-- All that happens to jobs and their boards, in any run of operations, which may raise, are acts
at a desk that lends boards. -/
theorem lending_refined {s : Setup} {op : Operation}
    (h : ((system s).restrict fun t op => op.Alters Tolerated t).Reachable t)
    (hop : op.Alters Tolerated t) :
    (desk (String × Board) ℕ).Reachable (tenure t) ∧
      (desk (String × Board) ℕ).Path (tenure t) (tenure (next t op)) := by
  obtain ⟨hr, hresident, hlends⟩ := reachable_lends h
  have hone : System.Along next (fun t op => op.Alters Tolerated t) t [op] := ⟨hop, trivial⟩
  have hnext := lends_runs hr ⟨hresident, .refl⟩ hone
  exact ⟨System.Reachable.path (.start (start_tenure s)) hlends, hnext.2.2⟩

theorem reachable_poweringOn_tolerated :
    ((system Setup.quiet).restrict fun t op => op.Alters Tolerated t).Reachable
      (runs Setup.quiet.start poweringOn) := by
  apply reachable_runs (.start rfl)
  refine ⟨fun _ _ _ hold => ?_, trivial, trivial⟩
  cases hold

theorem lending_refined_poweringOn :
    (desk (String × Board) ℕ).Path (tenure (runs Setup.quiet.start poweringOn))
      (tenure (next (runs Setup.quiet.start poweringOn) (.destroyJob 1 none))) := by
  have hop : Operation.Alters Tolerated (runs Setup.quiet.start poweringOn) (.destroyJob 1 none) :=
    trivial
  exact (lending_refined reachable_poweringOn_tolerated hop).2

theorem lot_tenure (h : Resident t) (hr : Roster depth t) : (tenure t id).lot = lot t id := by
  apply Set.Subset.antisymm lot_of_tenure
  rintro b ⟨m, boards, periphery, hm, hhoused, hb⟩
  obtain ⟨j, al, hj, hh⟩ := hhoused.held
  have hlt : id < t.2.nextId := h.numbered id (Option.isSome_iff_exists.mpr ⟨j, hj⟩)
  have hlent : b ∈ lot t id := ⟨m, boards, periphery, hm, hhoused, hb⟩
  have hallocated := allocated_holds hr.linked hj hh
  by_cases hid : id ∈ t.2.jobs
  · rw [tenure_live hlt hid, if_pos hallocated]
    exact hlent
  · rw [tenure_gone hlt hid, if_pos hallocated]
    exact hlent

theorem gone_of_done (hr : Roster depth t) (h : tenure t id = .done) :
    id ∉ t.2.jobs ∧ t.1.jobs.get? id = none := by
  obtain ⟨q, c⟩ := t
  by_cases hlt : id < c.nextId
  · by_cases hid : id ∈ c.jobs
    · rw [tenure_live (t := (q, c)) hlt hid] at h
      split at h
      · cases h
      · cases h
    · refine ⟨hid, ?_⟩
      rw [tenure_gone (t := (q, c)) hlt hid] at h
      cases hj : q.jobs.get? id with
      | none => rfl
      | some j =>
        dsimp only at h
        rw [allocated_known hj] at h
        cases hp : (q.job j).pending with
        | true =>
          have hlive := (hr.pending j hp).1
          dsimp only at hlive
          rw [(hr.linked.ids id j hj).1] at hlive
          exact absurd hlive hid
        | false =>
          rw [hp] at h
          cases h
  · rw [tenure_absent (Nat.not_lt.mp hlt)] at h
    cases h

/-- A board passes from one job to another only when the first one is not live any more and has
been freed. Until then a job keeps exactly the boards that it was lent. -/
theorem boards_handed_over {s : Setup} {ops : List Operation} {id' : ℕ}
    (h : ((system s).restrict fun t op => op.Alters Tolerated t).Reachable t)
    (hops : System.Along next (fun t op => op.Alters Tolerated t) t ops)
    (hlent : lent t name id board) :
    (id' ≠ id → lent (runs t ops) name id' board →
      id ∉ (runs t ops).2.jobs ∧ (runs t ops).1.jobs.get? id = none) ∧
    (id ∈ (runs t ops).2.jobs ∨ (runs t ops).1.jobs.get? id ≠ none →
      ∀ name' board', lent (runs t ops) name' id board' ↔ lent t name' id board') := by
  obtain ⟨hr, hresident, hlends⟩ := reachable_lends h
  obtain ⟨hr', hresident', hpath⟩ := lends_runs hr ⟨hresident, .refl⟩ hops
  have hdesk : (desk (String × Board) ℕ).Reachable (tenure t) :=
    System.Reachable.path (.start (start_tenure s)) hlends
  have hmem : (name, board) ∈ (tenure t id).lot := by
    rw [lot_tenure hresident hr]
    exact hlent
  constructor
  · intro hne hlent'
    refine gone_of_done hr' (desk.handed_over hdesk hpath hmem ?_ hne.symm)
    rw [lot_tenure hresident' hr']
    exact hlent'
  · intro hthere name' board'
    have hdone : tenure (runs t ops) id ≠ .done := by
      intro hdone
      obtain ⟨hgone, hfreed⟩ := gone_of_done hr' hdone
      exact hthere.elim hgone fun hne => hne hfreed
    have hsame := desk.retained hpath hmem hdone
    rw [lot_tenure hresident hr, lot_tenure hresident' hr'] at hsame
    exact Set.ext_iff.mp hsame (name', board')

theorem lent_of_known (m j al : ℕ) (hm : t.1.machines.get? name = some m)
    (hj : t.1.jobs.get? id = some j) (hh : t.1.Holds j m al)
    (hboards : ∃ boards ∈ (t.2.job id).boards, board ∈ boards)
    (hperiphery : (t.2.job id).periphery.isSome) : lent t name id board := by
  obtain ⟨boards, hboards, hboard⟩ := hboards
  obtain ⟨periphery, hperiphery⟩ := Option.isSome_iff_exists.mp hperiphery
  exact ⟨m, boards, periphery, hm, ⟨⟨j, al, hj, hh⟩, hboards, hperiphery⟩, hboard⟩

def handing : List Operation :=
  [.createJob none (some "owner") (some none) none none { args := .nil }, .destroyJob 1 none,
    .complete 0 true, .complete 0 true, .checkFree]

theorem boards_handed_over_handing :
    lent (runs (runs Setup.quiet.start poweringOn) handing) "m" 2 (0, 0, 0) ∧
      1 ∉ (runs (runs Setup.quiet.start poweringOn) handing).2.jobs := by
  have hbefore : lent (runs Setup.quiet.start poweringOn) "m" 1 (0, 0, 0) :=
    lent_of_known 0 0 1 (by decide +kernel) (by decide +kernel)
      ⟨by decide +kernel, by decide +kernel⟩ (by decide +kernel) (by decide +kernel)
  have hafter : lent (runs (runs Setup.quiet.start poweringOn) handing) "m" 2 (0, 0, 0) :=
    lent_of_known 0 1 2 (by decide +kernel) (by decide +kernel)
      ⟨by decide +kernel, by decide +kernel⟩ (by decide +kernel) (by decide +kernel)
  have hops : System.Along next (fun t op => op.Alters Tolerated t)
      (runs Setup.quiet.start poweringOn) handing :=
    ⟨trivial, trivial, trivial, trivial, trivial, trivial⟩
  exact ⟨hafter, ((boards_handed_over reachable_poweringOn_tolerated hops hbefore).1 (by decide)
    hafter).1⟩

end SpallocServer.Controller
